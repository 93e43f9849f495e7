import Mathlib.Algebra.Order.Ring.Nat
import Mathlib.Data.List.Basic
import Mathlib.Tactic.SplitIfs

/-! The MessagePack format: unsigned integers, booleans, strings, byte strings, arrays and maps,
each written in its shortest form. Signed numbers, floats and extension types are left out. -/
namespace MessagePack

/-- A MessagePack value. -/
inductive Obj where
  | uint (n : Nat)
  | bool (b : Bool)
  | str (s : List UInt8)
  | bin (s : List UInt8)
  | array (os : List Obj)
  | map (kvs : List (Obj × Obj))

/-! ### Big-endian numbers -/

/-- The lowest `k` bytes of a number, the highest of them first. -/
def bigEndian : Nat → Nat → List UInt8
  | 0, _ => []
  | k + 1, n => UInt8.ofNat (n / 256 ^ k) :: bigEndian k n

def ofBigEndian (bs : List UInt8) : Nat := bs.foldl (fun n b => n * 256 + b.toNat) 0

def takeBytes (k : Nat) (bs : List UInt8) : Option (List UInt8 × List UInt8) :=
  if k ≤ bs.length then some (bs.take k, bs.drop k) else none

def takeNat (k : Nat) (bs : List UInt8) : Option (Nat × List UInt8) := do
  let (front, rest) ← takeBytes k bs
  some (ofBigEndian front, rest)

@[simp] theorem bigEndian_length (k n : Nat) : (bigEndian k n).length = k := by
  induction k with
  | zero => rfl
  | succ k ih => simp [bigEndian, ih]

theorem foldl_bigEndian (k n acc : Nat) :
    (bigEndian k n).foldl (fun n b => n * 256 + b.toNat) acc = acc * 256 ^ k + n % 256 ^ k := by
  induction k generalizing acc with
  | zero => simp [bigEndian, Nat.mod_one]
  | succ k ih =>
      have hsplit : n % 256 ^ (k + 1) = n % 256 ^ k + 256 ^ k * (n / 256 ^ k % 256) := Nat.mod_pow_succ
      have hbyte : (UInt8.ofNat (n / 256 ^ k)).toNat = n / 256 ^ k % 256 := UInt8.toNat_ofNat'
      simp only [bigEndian, List.foldl_cons, ih, hbyte, hsplit]
      rw [Nat.add_mul, Nat.mul_assoc, ← Nat.pow_succ', Nat.mul_comm (n / 256 ^ k % 256), Nat.add_assoc,
        Nat.add_comm (256 ^ k * _)]

theorem takeBytes_append (front rest : List UInt8) :
    takeBytes front.length (front ++ rest) = some (front, rest) := by
  simp [takeBytes]

theorem takeNat_bigEndian (k n : Nat) (rest : List UInt8) (h : n < 256 ^ k) :
    takeNat k (bigEndian k n ++ rest) = some (n, rest) := by
  have htake : takeBytes k (bigEndian k n ++ rest) = some (bigEndian k n, rest) := by
    have := takeBytes_append (bigEndian k n) rest
    rwa [bigEndian_length] at this
  simp only [takeNat, htake, bind, Option.bind, ofBigEndian, foldl_bigEndian]
  rw [Nat.mod_eq_of_lt h]
  simp

theorem takeBytes_extends {k : Nat} {bs front rest : List UInt8} (more : List UInt8)
    (h : takeBytes k bs = some (front, rest)) : takeBytes k (bs ++ more) = some (front, rest ++ more) := by
  unfold takeBytes at h ⊢
  split at h
  · rename_i hle
    simp only [Option.some.injEq, Prod.mk.injEq] at h
    obtain ⟨rfl, rfl⟩ := h
    rw [if_pos (by rw [List.length_append]; omega), List.take_append_of_le_length hle,
      List.drop_append_of_le_length hle]
  · cases h

theorem takeNat_extends {k n : Nat} {bs rest : List UInt8} (more : List UInt8)
    (h : takeNat k bs = some (n, rest)) : takeNat k (bs ++ more) = some (n, rest ++ more) := by
  simp only [takeNat, bind, Option.bind_eq_some_iff, Option.some.injEq, Prod.mk.injEq] at h
  obtain ⟨⟨front, rest'⟩, htake, rfl, rfl⟩ := h
  simp only [takeNat, takeBytes_extends more htake, bind, Option.bind]

/-! ### Writing -/

def packUint (n : Nat) : List UInt8 :=
  if n < 2 ^ 7 then [UInt8.ofNat n]
  else if n < 2 ^ 8 then 0xcc :: bigEndian 1 n
  else if n < 2 ^ 16 then 0xcd :: bigEndian 2 n
  else if n < 2 ^ 32 then 0xce :: bigEndian 4 n
  else 0xcf :: bigEndian 8 n

def strHeader (len : Nat) : List UInt8 :=
  if len < 32 then [UInt8.ofNat (0xa0 + len)]
  else if len < 2 ^ 8 then 0xd9 :: bigEndian 1 len
  else if len < 2 ^ 16 then 0xda :: bigEndian 2 len
  else 0xdb :: bigEndian 4 len

def binHeader (len : Nat) : List UInt8 :=
  if len < 2 ^ 8 then 0xc4 :: bigEndian 1 len
  else if len < 2 ^ 16 then 0xc5 :: bigEndian 2 len
  else 0xc6 :: bigEndian 4 len

def arrayHeader (len : Nat) : List UInt8 :=
  if len < 16 then [UInt8.ofNat (0x90 + len)]
  else if len < 2 ^ 16 then 0xdc :: bigEndian 2 len
  else 0xdd :: bigEndian 4 len

def mapHeader (len : Nat) : List UInt8 :=
  if len < 16 then [UInt8.ofNat (0x80 + len)]
  else if len < 2 ^ 16 then 0xde :: bigEndian 2 len
  else 0xdf :: bigEndian 4 len

mutual
def pack : Obj → List UInt8
  | .uint n => packUint n
  | .bool b => [if b then 0xc3 else 0xc2]
  | .str s => strHeader s.length ++ s
  | .bin s => binHeader s.length ++ s
  | .array os => arrayHeader os.length ++ packAll os
  | .map kvs => mapHeader kvs.length ++ packPairs kvs

def packAll : List Obj → List UInt8
  | [] => []
  | o :: os => pack o ++ packAll os

def packPairs : List (Obj × Obj) → List UInt8
  | [] => []
  | (k, v) :: kvs => pack k ++ pack v ++ packPairs kvs
end

/-! ### Reading -/

/-- What the first byte announces, with the number that follows it already read. -/
inductive Lead where
  | uint (n : Nat)
  | bool (b : Bool)
  | str (len : Nat)
  | bin (len : Nat)
  | array (len : Nat)
  | map (len : Nat)

/-- What a first byte says by itself: the whole lead, or that a number of `k` bytes completes it. -/
inductive Form where
  | short (lead : Lead)
  | long (lead : Nat → Lead) (k : Nat)

def form (b : UInt8) : Option Form :=
  let n := b.toNat
  if n < 0x80 then some (.short (.uint n))
  else if n < 0x90 then some (.short (.map (n - 0x80)))
  else if n < 0xa0 then some (.short (.array (n - 0x90)))
  else if n < 0xc0 then some (.short (.str (n - 0xa0)))
  else if n = 0xc2 then some (.short (.bool false))
  else if n = 0xc3 then some (.short (.bool true))
  else if n = 0xc4 then some (.long .bin 1)
  else if n = 0xc5 then some (.long .bin 2)
  else if n = 0xc6 then some (.long .bin 4)
  else if n = 0xcc then some (.long .uint 1)
  else if n = 0xcd then some (.long .uint 2)
  else if n = 0xce then some (.long .uint 4)
  else if n = 0xcf then some (.long .uint 8)
  else if n = 0xd9 then some (.long .str 1)
  else if n = 0xda then some (.long .str 2)
  else if n = 0xdb then some (.long .str 4)
  else if n = 0xdc then some (.long .array 2)
  else if n = 0xdd then some (.long .array 4)
  else if n = 0xde then some (.long .map 2)
  else if n = 0xdf then some (.long .map 4)
  else none

def readForm (f : Form) (bs : List UInt8) : Option (Lead × List UInt8) :=
  match f with
  | .short lead => some (lead, bs)
  | .long lead k => (takeNat k bs).map fun p => (lead p.1, p.2)

def readLead : List UInt8 → Option (Lead × List UInt8)
  | [] => none
  | b :: bs => (form b).bind fun f => readForm f bs

/-- A reader run a given number of times. -/
def readMany {α : Type*} (read : List UInt8 → Option (α × List UInt8)) :
    Nat → List UInt8 → Option (List α × List UInt8)
  | 0, bs => some ([], bs)
  | n + 1, bs => do
      let (a, bs) ← read bs
      let (as, bs) ← readMany read n bs
      some (a :: as, bs)

def readPair {α : Type*} (read : List UInt8 → Option (α × List UInt8)) (bs : List UInt8) :
    Option ((α × α) × List UInt8) := do
  let (k, bs) ← read bs
  let (v, bs) ← read bs
  some ((k, v), bs)

/-- The fuel bounds the nesting. -/
def read : Nat → List UInt8 → Option (Obj × List UInt8)
  | 0, _ => none
  | fuel + 1, bs =>
      match readLead bs with
      | none => none
      | some (.uint n, rest) => some (.uint n, rest)
      | some (.bool b, rest) => some (.bool b, rest)
      | some (.str len, rest) => (takeBytes len rest).map fun p => (.str p.1, p.2)
      | some (.bin len, rest) => (takeBytes len rest).map fun p => (.bin p.1, p.2)
      | some (.array len, rest) => (readMany (read fuel) len rest).map fun p => (.array p.1, p.2)
      | some (.map len, rest) => (readMany (readPair (read fuel)) len rest).map fun p => (.map p.1, p.2)

/-- The first value of the input; what follows it is ignored. -/
def unpack (bs : List UInt8) : Option Obj := (read bs.length bs).map Prod.fst

/-! ### Reading back what was written -/

/-- The values the format can represent. -/
inductive Fits : Obj → Prop where
  | uint {n : Nat} : n < 2 ^ 64 → Fits (.uint n)
  | bool (b : Bool) : Fits (.bool b)
  | str {s : List UInt8} : s.length < 2 ^ 32 → Fits (.str s)
  | bin {s : List UInt8} : s.length < 2 ^ 32 → Fits (.bin s)
  | array {os : List Obj} : os.length < 2 ^ 32 → (∀ o ∈ os, Fits o) → Fits (.array os)
  | map {kvs : List (Obj × Obj)} : kvs.length < 2 ^ 32 → (∀ p ∈ kvs, Fits p.1) → (∀ p ∈ kvs, Fits p.2) →
      Fits (.map kvs)

theorem readLead_long {b : UInt8} {lead : Nat → Lead} {k n : Nat} (hform : form b = some (.long lead k))
    (rest : List UInt8) (h : n < 256 ^ k) : readLead (b :: bigEndian k n ++ rest) = some (lead n, rest) := by
  simp only [List.cons_append, readLead, hform, Option.bind, readForm, takeNat_bigEndian k n rest h, Option.map]

theorem readLead_short {b : UInt8} {lead : Lead} (hform : form b = some (.short lead)) (rest : List UInt8) :
    readLead ([b] ++ rest) = some (lead, rest) := by
  simp only [List.cons_append, List.nil_append, readLead, hform, Option.bind, readForm]

theorem toNat_ofNat_small {n : Nat} (h : n < 256) : (UInt8.ofNat n).toNat = n := by
  rw [UInt8.toNat_ofNat']
  exact Nat.mod_eq_of_lt h

theorem readLead_packUint {n : Nat} (h : n < 2 ^ 64) (rest : List UInt8) :
    readLead (packUint n ++ rest) = some (.uint n, rest) := by
  unfold packUint
  split_ifs with h7 h8 h16 h32
  · refine readLead_short ?_ rest
    simp only [form, toNat_ofNat_small (n := n) (by omega)]
    rw [if_pos (by omega)]
  · exact readLead_long rfl rest (by omega)
  · exact readLead_long rfl rest (by omega)
  · exact readLead_long rfl rest (by omega)
  · exact readLead_long rfl rest (by omega)

theorem readLead_strHeader {n : Nat} (h : n < 2 ^ 32) (rest : List UInt8) :
    readLead (strHeader n ++ rest) = some (.str n, rest) := by
  unfold strHeader
  split_ifs with h5 h8 h16
  · refine readLead_short ?_ rest
    simp only [form, toNat_ofNat_small (n := 0xa0 + n) (by omega)]
    rw [if_neg (by omega), if_neg (by omega), if_neg (by omega), if_pos (by omega), Nat.add_sub_cancel_left]
  · exact readLead_long rfl rest (by omega)
  · exact readLead_long rfl rest (by omega)
  · exact readLead_long rfl rest (by omega)

theorem readLead_binHeader {n : Nat} (h : n < 2 ^ 32) (rest : List UInt8) :
    readLead (binHeader n ++ rest) = some (.bin n, rest) := by
  unfold binHeader
  split_ifs with h8 h16
  · exact readLead_long rfl rest (by omega)
  · exact readLead_long rfl rest (by omega)
  · exact readLead_long rfl rest (by omega)

theorem readLead_arrayHeader {n : Nat} (h : n < 2 ^ 32) (rest : List UInt8) :
    readLead (arrayHeader n ++ rest) = some (.array n, rest) := by
  unfold arrayHeader
  split_ifs with h4 h16
  · refine readLead_short ?_ rest
    simp only [form, toNat_ofNat_small (n := 0x90 + n) (by omega)]
    rw [if_neg (by omega), if_neg (by omega), if_pos (by omega), Nat.add_sub_cancel_left]
  · exact readLead_long rfl rest (by omega)
  · exact readLead_long rfl rest (by omega)

theorem readLead_mapHeader {n : Nat} (h : n < 2 ^ 32) (rest : List UInt8) :
    readLead (mapHeader n ++ rest) = some (.map n, rest) := by
  unfold mapHeader
  split_ifs with h4 h16
  · refine readLead_short ?_ rest
    simp only [form, toNat_ofNat_small (n := 0x80 + n) (by omega)]
    rw [if_neg (by omega), if_pos (by omega), Nat.add_sub_cancel_left]
  · exact readLead_long rfl rest (by omega)
  · exact readLead_long rfl rest (by omega)

/-- A number takes at most nine bytes, and the header of an array at most five. -/
theorem pack_numbers_length_le (ns : List Nat) : (pack (.array (ns.map .uint))).length ≤ 5 + 9 * ns.length := by
  have hone : ∀ n, (packUint n).length ≤ 9 := by
    intro n
    unfold packUint
    split_ifs <;> simp
  have hall : (packAll (ns.map .uint)).length ≤ 9 * ns.length := by
    induction ns with
    | nil => exact Nat.zero_le _
    | cons n ns ih =>
        have := hone n
        simp only [List.map_cons, packAll, pack, List.length_append, List.length_cons]
        omega
  have hheader : (arrayHeader (ns.map Obj.uint).length).length ≤ 5 := by
    unfold arrayHeader
    split_ifs <;> simp
  simp only [pack, List.length_append]
  omega

theorem pack_length_le_all {o : Obj} {os : List Obj} (h : o ∈ os) : (pack o).length ≤ (packAll os).length := by
  induction os with
  | nil => cases h
  | cons o' os ih =>
      simp only [packAll, List.length_append]
      rcases List.mem_cons.mp h with rfl | hmem
      · omega
      · have := ih hmem
        omega

theorem pack_length_le_pairs {p : Obj × Obj} {kvs : List (Obj × Obj)} (h : p ∈ kvs) :
    (pack p.1).length ≤ (packPairs kvs).length ∧ (pack p.2).length ≤ (packPairs kvs).length := by
  induction kvs with
  | nil => cases h
  | cons p' kvs ih =>
      simp only [packPairs, List.length_append]
      rcases List.mem_cons.mp h with rfl | hmem
      · omega
      · have := ih hmem
        omega

theorem readMany_packAll {read : List UInt8 → Option (Obj × List UInt8)} {os : List Obj}
    (h : ∀ o ∈ os, ∀ rest, read (pack o ++ rest) = some (o, rest)) (rest : List UInt8) :
    readMany read os.length (packAll os ++ rest) = some (os, rest) := by
  induction os with
  | nil => rfl
  | cons o os ih =>
      have htail := ih fun o' ho' => h o' (List.mem_cons_of_mem _ ho')
      simp only [packAll, List.length_cons, readMany, List.append_assoc, h o List.mem_cons_self, bind,
        Option.bind, htail]

theorem readMany_packPairs {read : List UInt8 → Option (Obj × List UInt8)} {kvs : List (Obj × Obj)}
    (hk : ∀ p ∈ kvs, ∀ rest, read (pack p.1 ++ rest) = some (p.1, rest))
    (hv : ∀ p ∈ kvs, ∀ rest, read (pack p.2 ++ rest) = some (p.2, rest)) (rest : List UInt8) :
    readMany (readPair read) kvs.length (packPairs kvs ++ rest) = some (kvs, rest) := by
  induction kvs with
  | nil => rfl
  | cons p kvs ih =>
      have htail := ih (fun p' hp' => hk p' (List.mem_cons_of_mem _ hp'))
        fun p' hp' => hv p' (List.mem_cons_of_mem _ hp')
      simp only [packPairs, List.length_cons, readMany, readPair, List.append_assoc,
        hk p List.mem_cons_self, hv p List.mem_cons_self, bind, Option.bind, htail]

theorem header_nonempty (n : Nat) :
    0 < (packUint n).length ∧ 0 < (strHeader n).length ∧ 0 < (binHeader n).length ∧
      0 < (arrayHeader n).length ∧ 0 < (mapHeader n).length := by
  unfold packUint strHeader binHeader arrayHeader mapHeader
  refine ⟨?_, ?_, ?_, ?_, ?_⟩ <;> split_ifs <;> simp

theorem pack_nonempty (o : Obj) : 0 < (pack o).length := by
  have h := header_nonempty
  cases o with
  | uint n => exact (h n).1
  | bool b => exact Nat.one_pos
  | str s => exact Nat.lt_of_lt_of_le (h s.length).2.1 (by simp [pack])
  | bin s => exact Nat.lt_of_lt_of_le (h s.length).2.2.1 (by simp [pack])
  | array os => exact Nat.lt_of_lt_of_le (h os.length).2.2.2.1 (by simp [pack])
  | map kvs => exact Nat.lt_of_lt_of_le (h kvs.length).2.2.2.2 (by simp [pack])

theorem length_le_packPairs (kvs : List (Obj × Obj)) : kvs.length ≤ (packPairs kvs).length := by
  induction kvs with
  | nil => exact Nat.zero_le _
  | cons p kvs ih =>
      have := pack_nonempty p.1
      simp only [packPairs, List.length_cons, List.length_append]
      omega

/-- A map of texts is within the limits when it takes less than 4 GiB. -/
theorem fits_texts {kvs : List (Obj × Obj)} (htexts : ∀ p ∈ kvs, ∃ k v, p = (.str k, .str v))
    (h : (pack (.map kvs)).length < 2 ^ 32) : Fits (.map kvs) := by
  have hpairs : (packPairs kvs).length < 2 ^ 32 := by
    rw [pack, List.length_append] at h
    omega
  have htext : ∀ s : List UInt8, s.length ≤ (pack (.str s)).length := by simp [pack]
  refine .map ((length_le_packPairs kvs).trans_lt hpairs) (fun p hp => ?_) fun p hp => ?_
  · obtain ⟨k, v, rfl⟩ := htexts p hp
    exact .str ((htext k).trans_lt ((pack_length_le_pairs hp).1.trans_lt hpairs))
  · obtain ⟨k, v, rfl⟩ := htexts p hp
    exact .str ((htext v).trans_lt ((pack_length_le_pairs hp).2.trans_lt hpairs))

/-- Enough fuel reads a value back and leaves what follows it. -/
theorem read_pack {o : Obj} (h : Fits o) (fuel : Nat) (hfuel : (pack o).length ≤ fuel) (rest : List UInt8) :
    read fuel (pack o ++ rest) = some (o, rest) := by
  induction h generalizing fuel rest with
  | @uint n hn =>
      have hpos := (header_nonempty n).1
      simp only [pack] at hfuel ⊢
      obtain ⟨fuel, rfl⟩ : ∃ f, fuel = f + 1 := ⟨fuel - 1, by omega⟩
      simp only [read, readLead_packUint hn]
  | bool b =>
      simp only [pack, List.length_singleton] at hfuel
      obtain ⟨fuel, rfl⟩ : ∃ f, fuel = f + 1 := ⟨fuel - 1, by omega⟩
      cases b <;> rfl
  | @str s hs =>
      have hpos := (header_nonempty s.length).2.1
      simp only [pack, List.length_append] at hfuel ⊢
      obtain ⟨fuel, rfl⟩ : ∃ f, fuel = f + 1 := ⟨fuel - 1, by omega⟩
      simp only [read, List.append_assoc, readLead_strHeader hs, takeBytes_append, Option.map]
  | @bin s hs =>
      have hpos := (header_nonempty s.length).2.2.1
      simp only [pack, List.length_append] at hfuel ⊢
      obtain ⟨fuel, rfl⟩ : ∃ f, fuel = f + 1 := ⟨fuel - 1, by omega⟩
      simp only [read, List.append_assoc, readLead_binHeader hs, takeBytes_append, Option.map]
  | @array os hlen _ ih =>
      have hpos := (header_nonempty os.length).2.2.2.1
      simp only [pack, List.length_append] at hfuel ⊢
      obtain ⟨fuel, rfl⟩ : ∃ f, fuel = f + 1 := ⟨fuel - 1, by omega⟩
      have hmany : readMany (read fuel) os.length (packAll os ++ rest) = some (os, rest) :=
        readMany_packAll (fun o ho rest => ih o ho fuel (by have := pack_length_le_all ho; omega) rest) rest
      simp only [read, List.append_assoc, readLead_arrayHeader hlen, hmany, Option.map]
  | @map kvs hlen _ _ ihk ihv =>
      have hpos := (header_nonempty kvs.length).2.2.2.2
      simp only [pack, List.length_append] at hfuel ⊢
      obtain ⟨fuel, rfl⟩ : ∃ f, fuel = f + 1 := ⟨fuel - 1, by omega⟩
      have hmany : readMany (readPair (read fuel)) kvs.length (packPairs kvs ++ rest) = some (kvs, rest) :=
        readMany_packPairs
          (fun p hp rest => ihk p hp fuel (by have := (pack_length_le_pairs hp).1; omega) rest)
          (fun p hp rest => ihv p hp fuel (by have := (pack_length_le_pairs hp).2; omega) rest) rest
      simp only [read, List.append_assoc, readLead_mapHeader hlen, hmany, Option.map]

theorem unpack_pack {o : Obj} (h : Fits o) : unpack (pack o) = some o := by
  have hread := read_pack h (pack o).length (Nat.le_refl _) []
  rw [List.append_nil] at hread
  rw [unpack, hread]
  rfl

/-! ### A value decides where it ends -/

theorem readForm_extends {f : Form} {bs rest : List UInt8} {l : Lead} (more : List UInt8)
    (h : readForm f bs = some (l, rest)) : readForm f (bs ++ more) = some (l, rest ++ more) := by
  cases f with
  | short lead =>
      obtain ⟨rfl, rfl⟩ := Prod.mk.inj (Option.some.inj h)
      rfl
  | long lead k =>
      simp only [readForm, Option.map_eq_some_iff, Prod.mk.injEq] at h
      obtain ⟨p, htake, rfl, rfl⟩ := h
      simp only [readForm, takeNat_extends more htake, Option.map]

theorem readLead_extends {bs rest : List UInt8} {l : Lead} (more : List UInt8)
    (h : readLead bs = some (l, rest)) : readLead (bs ++ more) = some (l, rest ++ more) := by
  cases bs with
  | nil => cases h
  | cons b bs =>
      simp only [readLead, Option.bind_eq_some_iff] at h
      obtain ⟨f, hform, hread⟩ := h
      simp only [List.cons_append, readLead, hform, Option.bind, readForm_extends more hread]

/-- A reader whose answer does not change when more input arrives. -/
def Extends {α : Type*} (read : List UInt8 → Option (α × List UInt8)) : Prop :=
  ∀ {bs rest : List UInt8} {a : α} (more : List UInt8), read bs = some (a, rest) →
    read (bs ++ more) = some (a, rest ++ more)

theorem readMany_extends {α : Type*} {read : List UInt8 → Option (α × List UInt8)} (h : Extends read) (n : Nat) :
    Extends (readMany read n) := by
  induction n with
  | zero =>
      intro bs rest as more hread
      obtain ⟨rfl, rfl⟩ := Prod.mk.inj (Option.some.inj hread)
      rfl
  | succ n ih =>
      intro bs rest as more hread
      simp only [readMany, bind, Option.bind_eq_some_iff, Option.some.injEq, Prod.mk.injEq] at hread
      obtain ⟨⟨a, mid⟩, hone, ⟨as', rest'⟩, hmany, rfl, rfl⟩ := hread
      simp only [readMany, h more hone, ih more hmany, bind, Option.bind]

theorem readPair_extends {α : Type*} {read : List UInt8 → Option (α × List UInt8)} (h : Extends read) :
    Extends (readPair read) := by
  intro bs rest p more hread
  simp only [readPair, bind, Option.bind_eq_some_iff, Option.some.injEq, Prod.mk.injEq] at hread
  obtain ⟨⟨k, mid⟩, hk, ⟨v, rest'⟩, hv, rfl, rfl⟩ := hread
  simp only [readPair, h more hk, h more hv, bind, Option.bind]

theorem read_extends (fuel : Nat) : Extends (read fuel) := by
  induction fuel with
  | zero => intro bs rest o more h; cases h
  | succ fuel ih =>
      intro bs rest o more h
      simp only [read] at h ⊢
      cases hlead : readLead bs with
      | none => rw [hlead] at h; cases h
      | some p =>
          obtain ⟨lead, mid⟩ := p
          rw [hlead] at h
          rw [readLead_extends more hlead]
          cases lead with
          | uint n | bool b => obtain ⟨rfl, rfl⟩ := Prod.mk.inj (Option.some.inj h); rfl
          | str len | bin len =>
              simp only [Option.map_eq_some_iff, Prod.mk.injEq] at h
              obtain ⟨p, htake, rfl, rfl⟩ := h
              simp only [takeBytes_extends more htake, Option.map]
          | array len =>
              simp only [Option.map_eq_some_iff, Prod.mk.injEq] at h
              obtain ⟨p, hmany, rfl, rfl⟩ := h
              simp only [readMany_extends ih len more hmany, Option.map]
          | map len =>
              simp only [Option.map_eq_some_iff, Prod.mk.injEq] at h
              obtain ⟨p, hmany, rfl, rfl⟩ := h
              simp only [readMany_extends (readPair_extends ih) len more hmany, Option.map]

theorem readMany_more_fuel {α : Type*} {read read' : List UInt8 → Option (α × List UInt8)}
    (h : ∀ bs p, read bs = some p → read' bs = some p) (n : Nat) (bs : List UInt8) (p : List α × List UInt8)
    (hmany : readMany read n bs = some p) : readMany read' n bs = some p := by
  induction n generalizing bs p with
  | zero => exact hmany
  | succ n ih =>
      simp only [readMany, bind, Option.bind_eq_some_iff] at hmany ⊢
      obtain ⟨q, hone, r, hrest, hp⟩ := hmany
      exact ⟨q, h _ _ hone, r, ih _ _ hrest, hp⟩

theorem readPair_more_fuel {α : Type*} {read read' : List UInt8 → Option (α × List UInt8)}
    (h : ∀ bs p, read bs = some p → read' bs = some p) (bs : List UInt8) (p : (α × α) × List UInt8)
    (hpair : readPair read bs = some p) : readPair read' bs = some p := by
  simp only [readPair, bind, Option.bind_eq_some_iff] at hpair ⊢
  obtain ⟨q, hk, r, hv, hp⟩ := hpair
  exact ⟨q, h _ _ hk, r, h _ _ hv, hp⟩

theorem read_more_fuel (fuel : Nat) (bs : List UInt8) (p : Obj × List UInt8) (h : read fuel bs = some p) :
    read (fuel + 1) bs = some p := by
  induction fuel generalizing bs p with
  | zero => cases h
  | succ fuel ih =>
      rw [read] at h ⊢
      cases hlead : readLead bs with
      | none => rw [hlead] at h; cases h
      | some q =>
          obtain ⟨lead, mid⟩ := q
          rw [hlead] at h
          cases lead with
          | uint n | bool b | str len | bin len => exact h
          | array len =>
              simp only [Option.map_eq_some_iff] at h ⊢
              obtain ⟨r, hmany, rfl⟩ := h
              exact ⟨r, readMany_more_fuel ih len mid r hmany, rfl⟩
          | map len =>
              simp only [Option.map_eq_some_iff] at h ⊢
              obtain ⟨r, hmany, rfl⟩ := h
              exact ⟨r, readMany_more_fuel (readPair_more_fuel ih) len mid r hmany, rfl⟩

theorem read_mono {fuel fuel' : Nat} (hle : fuel ≤ fuel') {bs : List UInt8} {p : Obj × List UInt8}
    (h : read fuel bs = some p) : read fuel' bs = some p := by
  induction hle with
  | refl => exact h
  | step _ ih => exact read_more_fuel _ _ _ ih

/-- A written value that is cut short cannot be read. -/
theorem unpack_take {o : Obj} (h : Fits o) {k : Nat} (hk : k < (pack o).length) :
    unpack ((pack o).take k) = none := by
  cases hread : read ((pack o).take k).length ((pack o).take k) with
  | none => rw [unpack, hread]; rfl
  | some p =>
      obtain ⟨o', rest⟩ := p
      have hmore := read_extends _ ((pack o).drop k) hread
      rw [List.take_append_drop] at hmore
      have hwhole := read_pack h (pack o).length (Nat.le_refl _) []
      rw [List.append_nil, read_mono (by rw [List.length_take]; omega) hmore] at hwhole
      have hempty := congrArg (fun p => p.2.length) (Option.some.inj hwhole)
      simp only [List.length_append, List.length_drop, List.length_nil] at hempty
      omega

end MessagePack
