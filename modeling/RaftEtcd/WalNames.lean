import Mathlib.Data.List.Chain
import Mathlib.Data.List.TakeWhile
import RaftEtcd.Snapshotter

/-! The names of the log files in `wal/wal.cpp`: a sequence number and an index in hexadecimal, by which the files
are listed, checked for gaps and searched. -/
namespace RaftEtcd

open Snapshotter (hexDigit hex16)

/-! ### The code -/

/-- `.wal`. -/
def walExtension : Bytes := [46, 119, 97, 108]

def walName (seq index : Nat) : Bytes := hex16 seq ++ [45] ++ hex16 index ++ walExtension

/-- `get_wal_names`: the names of the log files in a directory, in the order of strings. -/
def getWalNames (dir : List Bytes) : List Bytes :=
  (dir.filter fun name => walExtension.isSuffixOf name).insertionSort fun a b => ¬ b < a

def isSpace (c : UInt8) : Bool := c == 32 || (9 ≤ c && c ≤ 13)

def hexValue (c : UInt8) : Option Nat :=
  if 48 ≤ c ∧ c ≤ 57 then some (c.toNat - 48)
  else if 97 ≤ c ∧ c ≤ 102 then some (c.toNat - 87)
  else if 65 ≤ c ∧ c ≤ 70 then some (c.toNat - 55)
  else none

/-- A `uint64_t` from a stream in hexadecimal mode, as the standard library reads it: space, a sign and a prefix
are skipped, what is no digit ends the number, and one that is too large is cut to the largest. -/
def streamHex (str : Bytes) : Nat :=
  let str := str.dropWhile isSpace
  let negative := str.head? == some 45
  let str := if str.head? = some 45 ∨ str.head? = some 43 then str.tail else str
  let str := match str with
    | 48 :: c :: rest => if c = 120 ∨ c = 88 then rest else str
    | _ => str
  let n := Digits.value 16 ((str.takeWhile fun c => (hexValue c).isSome).filterMap hexValue)
  if n ≥ 2 ^ 64 then 2 ^ 64 - 1
  else if negative then (2 ^ 64 - n) % 2 ^ 64
  else n

/-- What is returned, and what is written to `seq` and `index`. -/
def parseWalName (name : Bytes) : Bool × Nat × Nat :=
  if walExtension.isSuffixOf name = false then (false, 0, 0)
  else
    let filename := name.take (name.length - 4)
    let seq := streamHex (filename.takeWhile (· != 45))
    match filename.dropWhile (· != 45) with
    | [] => (false, 0, 0)
    | [_] => (false, seq, 0)
    | _ :: str => (true, seq, streamHex str)

/-- The loop of `is_valid_seq`, with the number of the last file; 0 is what it starts with. -/
def isValidSeqFrom (lastSeq : Nat) : List Bytes → Result Bool
  | [] => .ok true
  | name :: names =>
      match parseWalName name with
      | (false, _) => .error "parse correct name should never fail %s"
      | (true, curSeq, _) =>
          if lastSeq ≠ 0 ∧ lastSeq ≠ (curSeq + (2 ^ 64 - 1)) % 2 ^ 64 then .ok false
          else isValidSeqFrom curSeq names

def isValidSeq (names : List Bytes) : Result Bool := isValidSeqFrom 0 names

/-- A round of the loop of `search_index`; `next` is the loop from the position below on. -/
def searchRound (names : List Bytes) (index i : Nat) (next : Result (Bool × Nat)) : Result (Bool × Nat) :=
  match names[i]? with
  | none => .error "names[i] out of range"
  | some name =>
      match parseWalName name with
      | (false, _) => .error "invalid wal name %s"
      | (true, _, curIndex) => if index ≥ curIndex then .ok (true, i) else next

def searchFrom (names : List Bytes) (index : Nat) : Nat → Result (Bool × Nat)
  | 0 => searchRound names index 0 (.ok (false, 2 ^ 64 - 1))
  | i + 1 => searchRound names index (i + 1) (searchFrom names index i)

/-- `search_index`: what is returned, and what is written to `name_index`. Without a name the position of the
last one is the largest `size_t`. -/
def searchIndex (names : List Bytes) (index : Nat) : Result (Bool × Nat) :=
  match names with
  | [] => .error "names[i] out of range"
  | _ => searchFrom names index (names.length - 1)

/-! ### Names -/

section Names
variable {seq index : Nat}

theorem hexDigit_char : ∀ d < 16, hexValue (hexDigit d) = some d ∧ isSpace (hexDigit d) = false ∧ hexDigit d ≠ 43 ∧
    hexDigit d ≠ 45 ∧ hexDigit d ≠ 88 ∧ hexDigit d ≠ 120 := by decide

/-- Digits alone are read to their end. -/
theorem streamHex_digits {ds : List Nat} (hds : ∀ d ∈ ds, d < 16) (hvalue : Digits.value 16 ds < 2 ^ 64) :
    streamHex (ds.map hexDigit) = Digits.value 16 ds := by
  have hspace : (ds.map hexDigit).dropWhile isSpace = ds.map hexDigit := by
    cases ds with
    | nil => rfl
    | cons d ds => rw [List.map_cons, List.dropWhile_cons_of_neg (by simp [hexDigit_char d (hds d List.mem_cons_self)])]
  have hsign : ∀ c, c = 43 ∨ c = 45 → (ds.map hexDigit).head? ≠ some c := by
    cases ds with
    | nil => simp
    | cons d ds =>
        obtain ⟨-, -, hplus, hminus, -⟩ := hexDigit_char d (hds d List.mem_cons_self)
        rintro c (rfl | rfl) <;> simpa
  have hmarker : ∀ c rest, ds.map hexDigit = 48 :: c :: rest → ¬ (c = 120 ∨ c = 88) := by
    intro c rest heq
    obtain ⟨d, hd, rfl⟩ := List.mem_map.mp (heq ▸ by simp : c ∈ ds.map hexDigit)
    obtain ⟨-, -, -, -, hupper, hlower⟩ := hexDigit_char d (hds d hd)
    exact not_or.mpr ⟨hlower, hupper⟩
  have hall : (ds.map hexDigit).takeWhile (fun c => (hexValue c).isSome) = ds.map hexDigit := by
    rw [List.takeWhile_eq_self_iff]
    intro c hc
    obtain ⟨d, hd, rfl⟩ := List.mem_map.mp hc
    rw [(hexDigit_char d (hds d hd)).1]
    rfl
  have hvalues : (ds.map hexDigit).filterMap hexValue = ds := by
    have hback : ∀ d ∈ ds, (hexValue ∘ hexDigit) d = some d := fun d hd => (hexDigit_char d (hds d hd)).1
    rw [List.filterMap_map, List.filterMap_congr hback, List.filterMap_some]
  rw [streamHex, hspace]
  have hplus := hsign 43 (Or.inl rfl)
  have hminus := hsign 45 (Or.inr rfl)
  simp only [hplus, hminus, or_self, if_false, beq_eq_false_iff_ne.mpr hminus]
  split
  · rename_i c rest heq
    rw [if_neg (hmarker c rest heq), hall, hvalues, if_neg (by omega)]
    rfl
  · rw [hall, hvalues, if_neg (by omega)]
    rfl

theorem streamHex_hex16 {n : Nat} (h : n < 2 ^ 64) : streamHex (hex16 n) = n := by
  have hpow : (2 : Nat) ^ 64 = 16 ^ 16 := by decide
  have hvalue : Digits.value 16 (Digits.fixed 16 16 n) = n := Digits.value_fixed (hpow ▸ h)
  rw [Snapshotter.hex16_eq, streamHex_digits (fun d hd => Digits.fixed_lt (by decide) hd) (by rwa [hvalue]), hvalue]

theorem hex16_ne_dash (n : Nat) : ∀ c ∈ hex16 n, c ≠ 45 := by
  intro c hc
  rw [Snapshotter.hex16_eq] at hc
  obtain ⟨d, hd, rfl⟩ := List.mem_map.mp hc
  exact (hexDigit_char d (Digits.fixed_lt (by decide) hd)).2.2.2.1

/-- `parse_wal_name` undoes `wal_name`. -/
theorem parseWalName_walName (hseq : seq < 2 ^ 64) (hindex : index < 2 ^ 64) :
    parseWalName (walName seq index) = (true, seq, index) := by
  have hsuffix : walExtension.isSuffixOf (walName seq index) = true :=
    List.isSuffixOf_iff_suffix.mpr (List.suffix_append _ _)
  have hfilename : (walName seq index).take ((walName seq index).length - 4) = hex16 seq ++ 45 :: hex16 index := by
    rw [walName, List.take_left' (by simp [walExtension]), List.append_assoc]
    rfl
  have htake : (hex16 seq ++ 45 :: hex16 index).takeWhile (· != 45) = hex16 seq := by
    rw [List.takeWhile_append_of_pos (by simpa using hex16_ne_dash seq)]
    simp
  have hdrop : (hex16 seq ++ 45 :: hex16 index).dropWhile (· != 45) = 45 :: hex16 index := by
    rw [List.dropWhile_append_of_pos (by simpa using hex16_ne_dash seq)]
    simp
  have hlength : hex16 index ≠ [] := List.ne_nil_of_length_pos (by simp)
  rw [parseWalName, hsuffix, if_neg (by decide)]
  dsimp only
  rw [hfilename, htake, hdrop, streamHex_hex16 hseq]
  cases heq : hex16 index with
  | nil => exact absurd heq hlength
  | cons c str => rw [← heq]; exact congrArg (fun i => (true, seq, i)) (streamHex_hex16 hindex)

end Names

/-! ### The order of the files -/

section Files
variable {files : List (Nat × Nat)}

/-- Numbers and indexes of 64 bits. -/
def WideFiles (files : List (Nat × Nat)) : Prop := ∀ f ∈ files, f.1 < 2 ^ 64 ∧ f.2 < 2 ^ 64

def walNames (files : List (Nat × Nat)) : List Bytes := files.map fun f => walName f.1 f.2

theorem WideFiles.perm {files' : List (Nat × Nat)} (h : WideFiles files) (hperm : files'.Perm files) :
    WideFiles files' :=
  fun f hf => h f (hperm.mem_iff.mp hf)

theorem WideFiles.parse (h : WideFiles files) {f : Nat × Nat} (hf : f ∈ files) :
    parseWalName (walName f.1 f.2) = (true, f.1, f.2) := parseWalName_walName (h f hf).1 (h f hf).2

/-- Names sort as their numbers. -/
theorem WideFiles.name_lt (h : WideFiles files) {f g : Nat × Nat} (hf : f ∈ files) (hg : g ∈ files) (hlt : f.1 < g.1) :
    walName f.1 f.2 < walName g.1 g.2 :=
  (Snapshotter.hexName_lt_iff (h f hf).1 (h g hg).1 (h f hf).2 (h g hg).2 walExtension).mpr (Or.inl hlt)

theorem getWalNames_pairwise (dir : List Bytes) : (getWalNames dir).Pairwise fun a b => ¬ b < a := by
  have htotal : Std.Total fun a b : Bytes => ¬ b < a := ⟨fun a b => List.le_total a b⟩
  have htrans : IsTrans Bytes fun a b => ¬ b < a := ⟨fun a b c hab hbc => List.le_trans (show a ≤ b from hab) hbc⟩
  exact List.pairwise_insertionSort _ _

/-- The names come in the order of the numbers. -/
theorem getWalNames_eq {sorted : List (Nat × Nat)} {dir : List Bytes} (hwide : WideFiles sorted)
    (hsorted : sorted.Pairwise fun f g => f.1 < g.1)
    (hdir : (dir.filter fun name => walExtension.isSuffixOf name).Perm (walNames sorted)) :
    getWalNames dir = walNames sorted := by
  have hnames : (walNames sorted).Pairwise fun a b => ¬ b < a := by
    rw [walNames, List.pairwise_map]
    exact hsorted.imp_of_mem fun hf hg hlt => List.lt_asymm (hwide.name_lt hf hg hlt)
  exact ((List.perm_insertionSort _ _).trans hdir).eq_of_pairwise
    (fun a b _ _ hab hba => List.le_antisymm (List.not_lt.mp hab) (List.not_lt.mp hba)) (getWalNames_pairwise dir) hnames

/-! ### The search -/

/-- The last position of a file whose index is at most the one looked for. -/
def LastWithin (files : List (Nat × Nat)) (index i : Nat) : Prop :=
  ∃ f, files[i]? = some f ∧ f.2 ≤ index ∧ ∀ j g, i < j → files[j]? = some g → index < g.2

theorem searchRound_walNames (h : WideFiles files) {index i : Nat} {next : Result (Bool × Nat)} {f : Nat × Nat}
    (hf : files[i]? = some f) :
    searchRound (walNames files) index i next = if f.2 ≤ index then .ok (true, i) else next := by
  have hname : (walNames files)[i]? = some (walName f.1 f.2) := by rw [walNames, List.getElem?_map, hf]; rfl
  rw [searchRound, hname]
  dsimp only
  rw [h.parse (List.mem_of_getElem? hf)]

/-- What the loop returns from position `n` on, when no file after it will do. -/
theorem searchFrom_spec (h : WideFiles files) {index n : Nat} (hn : n < files.length)
    (hafter : ∀ j g, n < j → files[j]? = some g → index < g.2) :
    (∃ i, LastWithin files index i ∧ searchFrom (walNames files) index n = .ok (true, i)) ∨
      (∀ f ∈ files, index < f.2) ∧ searchFrom (walNames files) index n = .ok (false, 2 ^ 64 - 1) := by
  induction n with
  | zero =>
      have hf := List.getElem?_eq_getElem hn
      rw [searchFrom, searchRound_walNames h hf]
      by_cases hle : files[0].2 ≤ index
      · rw [if_pos hle]
        exact Or.inl ⟨0, ⟨files[0], hf, hle, hafter⟩, rfl⟩
      · rw [if_neg hle]
        refine Or.inr ⟨fun g hg => ?_, rfl⟩
        obtain ⟨j, hj⟩ := List.mem_iff_getElem?.mp hg
        cases j with
        | zero => rw [hf] at hj; cases hj; omega
        | succ j => exact hafter _ g j.succ_pos hj
  | succ n ih =>
      have hf := List.getElem?_eq_getElem hn
      rw [searchFrom, searchRound_walNames h hf]
      by_cases hle : files[n + 1].2 ≤ index
      · rw [if_pos hle]
        exact Or.inl ⟨n + 1, ⟨files[n + 1], hf, hle, hafter⟩, rfl⟩
      · rw [if_neg hle]
        refine ih (by omega) fun j g hj hg => ?_
        rcases Nat.lt_or_eq_of_le (Nat.succ_le_of_lt hj) with hlt | rfl
        · exact hafter j g hlt hg
        · rw [hf] at hg; cases hg; omega

theorem LastWithin.unique {index i j : Nat} (hi : LastWithin files index i) (hj : LastWithin files index j) :
    i = j := by
  obtain ⟨f, hf, hfi, hafter⟩ := hi
  obtain ⟨g, hg, hgj, hafter'⟩ := hj
  rcases Nat.lt_trichotomy i j with hlt | heq | hgt
  · have := hafter j g hlt hg
    omega
  · exact heq
  · have := hafter' i f hgt hf
    omega

theorem LastWithin.not_above {index i : Nat} (h : LastWithin files index i) : ¬ ∀ f ∈ files, index < f.2 := by
  obtain ⟨f, hf, hle, -⟩ := h
  intro hall
  have := hall f (List.mem_of_getElem? hf)
  omega

/-- `search_index` finds the last file that will do, or says that there is none. -/
theorem searchIndex_spec (h : WideFiles files) (hne : files ≠ []) (index : Nat) :
    (∀ i, searchIndex (walNames files) index = .ok (true, i) ↔ LastWithin files index i) ∧
      (searchIndex (walNames files) index = .ok (false, 2 ^ 64 - 1) ↔ ∀ f ∈ files, index < f.2) := by
  have hpos := List.length_pos_of_ne_nil hne
  have hlength : (walNames files).length = files.length := List.length_map _
  have hsearch : searchIndex (walNames files) index = searchFrom (walNames files) index (files.length - 1) := by
    rw [searchIndex, hlength]
    intro hnil
    rw [hnil, List.length_nil] at hlength
    omega
  have hafter : ∀ j g, files.length - 1 < j → files[j]? = some g → index < g.2 := by
    intro j g hj hg
    have := (List.getElem?_eq_some_iff.mp hg).1
    omega
  rw [hsearch]
  rcases searchFrom_spec h (by omega) hafter with ⟨i, hlast, heq⟩ | ⟨hall, heq⟩
  · rw [heq]
    refine ⟨fun j => ⟨fun hj => ?_, fun hj => by rw [hlast.unique hj]⟩, nofun, fun hall => absurd hall hlast.not_above⟩
    cases hj
    exact hlast
  · rw [heq]
    exact ⟨fun j => ⟨nofun, fun hj => absurd hall hj.not_above⟩, fun _ => hall, fun _ => rfl⟩

/-- The files of a directory are listed by number, and the search finds the last that starts early enough. -/
theorem wal_files_selected {dir : List Bytes} (hne : files ≠ []) (hwide : WideFiles files)
    (hdistinct : (files.map Prod.fst).Nodup)
    (hdir : (dir.filter fun name => walExtension.isSuffixOf name).Perm (walNames files)) :
    (∀ f ∈ files, parseWalName (walName f.1 f.2) = (true, f.1, f.2)) ∧
      ∃ sorted : List (Nat × Nat), sorted.Perm files ∧ (sorted.Pairwise fun f g => f.1 < g.1) ∧
        getWalNames dir = walNames sorted ∧ ∀ index,
          (∀ i, searchIndex (getWalNames dir) index = .ok (true, i) ↔ LastWithin sorted index i) ∧
          (searchIndex (getWalNames dir) index = .ok (false, 2 ^ 64 - 1) ↔ ∀ f ∈ files, index < f.2) := by
  have hperm := List.perm_insertionSort (fun f g : Nat × Nat => f.1 ≤ g.1) files
  have hsorted : (files.insertionSort fun f g => f.1 ≤ g.1).Pairwise fun f g => f.1 < g.1 := by
    have htotal : Std.Total fun f g : Nat × Nat => f.1 ≤ g.1 := ⟨fun f g => Nat.le_total _ _⟩
    have htrans : IsTrans (Nat × Nat) fun f g => f.1 ≤ g.1 := ⟨fun _ _ _ => Nat.le_trans⟩
    have hne : (files.insertionSort fun f g => f.1 ≤ g.1).Pairwise fun f g => f.1 ≠ g.1 :=
      List.pairwise_map.mp ((hperm.map Prod.fst).nodup_iff.mpr hdistinct)
    exact ((List.pairwise_insertionSort _ _).and hne).imp fun h => Nat.lt_of_le_of_ne h.1 h.2
  have hnames := getWalNames_eq (hwide.perm hperm) hsorted (hdir.trans (hperm.symm.map _))
  refine ⟨fun f hf => hwide.parse hf, _, hperm, hsorted, hnames, fun index => ?_⟩
  have hsome : (files.insertionSort fun f g => f.1 ≤ g.1) ≠ [] := fun hnil => hne (List.nil_perm.mp (hnil ▸ hperm))
  obtain ⟨hfound, hnone⟩ := searchIndex_spec (hwide.perm hperm) hsome index
  rw [hnames]
  refine ⟨hfound, hnone.trans ?_⟩
  simp only [hperm.mem_iff]

/-- Three files in a directory with another one, listed in another order. -/
theorem wal_files_selected_three :
    (∀ f ∈ [(2, 30), (0, 0), (1, 10)], parseWalName (walName f.1 f.2) = (true, f.1, f.2)) ∧
      ∃ sorted : List (Nat × Nat), sorted.Perm [(2, 30), (0, 0), (1, 10)] ∧ (sorted.Pairwise fun f g => f.1 < g.1) ∧
        getWalNames [walName 2 30, [46, 98], walName 0 0, walName 1 10] = walNames sorted ∧ ∀ index,
          (∀ i, searchIndex (getWalNames [walName 2 30, [46, 98], walName 0 0, walName 1 10]) index = .ok (true, i) ↔
            LastWithin sorted index i) ∧
          (searchIndex (getWalNames [walName 2 30, [46, 98], walName 0 0, walName 1 10]) index =
            .ok (false, 2 ^ 64 - 1) ↔ ∀ f ∈ [(2, 30), (0, 0), (1, 10)], index < f.2) := by
  refine wal_files_selected (by decide) (by unfold WideFiles; decide) (by decide) ?_
  rw [show List.filter (fun name => walExtension.isSuffixOf name) [walName 2 30, [46, 98], walName 0 0, walName 1 10] =
      walNames [(2, 30), (0, 0), (1, 10)] by decide]

/-! ### Gaps -/

/-- What the loop lets pass: anything after 0, and 0 after the largest number. -/
def HiddenGap (a b : Nat) : Prop := a = 0 ∧ b ≠ 1 ∨ a = 2 ^ 64 - 1 ∧ b = 0

/-- `is_valid_seq` says whether each number is the successor of the one before. -/
def DetectsGaps (files : List (Nat × Nat)) : Prop :=
  ∃ valid, isValidSeq (walNames files) = .ok valid ∧ (valid = true ↔ (files.map Prod.fst).IsChain fun a b => b = a + 1)

/-- A round lets the next number pass if it is the successor or the gap is hidden. -/
theorem passes_iff {a b : Nat} (ha : a < 2 ^ 64) (hb : b < 2 ^ 64) :
    ¬ (a ≠ 0 ∧ a ≠ (b + (2 ^ 64 - 1)) % 2 ^ 64) ↔ b = a + 1 ∨ HiddenGap a b := by
  rw [HiddenGap]
  rcases Nat.eq_zero_or_pos b with rfl | hpos
  · omega
  · have hmod : (b + (2 ^ 64 - 1)) % 2 ^ 64 = b - 1 := by omega
    rw [hmod]
    omega

theorem isValidSeqFrom_spec (h : WideFiles files) {lastSeq : Nat} (hlast : lastSeq < 2 ^ 64) :
    ∃ valid, isValidSeqFrom lastSeq (walNames files) = .ok valid ∧
      (valid = true ↔ (lastSeq :: files.map Prod.fst).IsChain fun a b => b = a + 1 ∨ HiddenGap a b) := by
  induction files generalizing lastSeq with
  | nil => exact ⟨true, rfl, by simp⟩
  | cons f files ih =>
      have hf := h f List.mem_cons_self
      rw [walNames, List.map_cons, isValidSeqFrom, h.parse List.mem_cons_self, List.map_cons, List.isChain_cons_cons,
        ← passes_iff hlast hf.1]
      dsimp only
      by_cases hgap : lastSeq ≠ 0 ∧ lastSeq ≠ (f.1 + (2 ^ 64 - 1)) % 2 ^ 64
      · rw [if_pos hgap]
        exact ⟨false, rfl, nofun, fun hpass => absurd hgap hpass.1⟩
      · rw [if_neg hgap]
        obtain ⟨valid, hvalid, hiff⟩ := ih (fun g hg => h g (List.mem_cons_of_mem _ hg)) hf.1
        exact ⟨valid, hvalid, hiff.trans ⟨fun hchain => ⟨hgap, hchain⟩, And.right⟩⟩

/-- What is valid to the code is a sequence without a gap that shows. -/
theorem isValidSeq_spec (h : WideFiles files) : ∃ valid, isValidSeq (walNames files) = .ok valid ∧
    (valid = true ↔ (files.map Prod.fst).IsChain fun a b => b = a + 1 ∨ HiddenGap a b) := by
  obtain ⟨valid, hvalid, hiff⟩ := isValidSeqFrom_spec h (show 0 < 2 ^ 64 by decide)
  refine ⟨valid, hvalid, hiff.trans ?_⟩
  cases files with
  | nil => simp
  | cons f files =>
      rw [List.map_cons, List.isChain_cons_cons]
      refine ⟨And.right, fun hchain => ⟨?_, hchain⟩⟩
      unfold HiddenGap
      omega

/-- The gaps are found when none is hidden, or when another one shows. -/
theorem detectsGaps_iff (h : WideFiles files) : DetectsGaps files ↔
    ((files.map Prod.fst).IsChain fun a b => ¬ HiddenGap a b) ∨
      ∃ a b, [a, b] <:+: files.map Prod.fst ∧ b ≠ a + 1 ∧ ¬ HiddenGap a b := by
  obtain ⟨valid, hvalid, hiff⟩ := isValidSeq_spec h
  have hadjacent : ∀ R : Nat → Nat → Prop,
      (files.map Prod.fst).IsChain R ↔ ∀ a b, [a, b] <:+: files.map Prod.fst → R a b := by
    intro R
    rw [List.isChain_iff_forall_rel_of_append_cons_cons]
    constructor
    · rintro hall a b ⟨l, l', heq⟩
      exact hall (by rw [← heq, List.append_assoc]; rfl)
    · intro hall a b l l' heq
      exact hall a b ⟨l, l', by rw [heq, List.append_assoc]; rfl⟩
  have hdetects : DetectsGaps files ↔ ((files.map Prod.fst).IsChain (fun a b => b = a + 1 ∨ HiddenGap a b) ↔
      (files.map Prod.fst).IsChain fun a b => b = a + 1) := by
    rw [← hiff]
    constructor
    · rintro ⟨v, hv, hchain⟩
      rw [hvalid] at hv
      cases hv
      exact hchain
    · exact fun hchain => ⟨valid, hvalid, hchain⟩
  have hdisjoint : ∀ a, ¬ HiddenGap a (a + 1) := by
    intro a
    unfold HiddenGap
    omega
  rw [hdetects]
  simp only [hadjacent]
  constructor
  · intro hsame
    by_cases hshow : ∃ a b, [a, b] <:+: files.map Prod.fst ∧ b ≠ a + 1 ∧ ¬ HiddenGap a b
    · exact Or.inr hshow
    · refine Or.inl fun a b hab hhidden => ?_
      have hsucc := hsame.mp (fun c d hcd => ?_) a b hab
      · exact hdisjoint a (hsucc ▸ hhidden)
      · by_contra hneither
        rw [not_or] at hneither
        exact hshow ⟨c, d, hcd, hneither⟩
  · rintro (hnone | ⟨a, b, hab, hne, hshows⟩)
    · exact ⟨fun hall a b hab => (hall a b hab).resolve_right (hnone a b hab),
        fun hall a b hab => Or.inl (hall a b hab)⟩
    · exact ⟨fun hall => absurd (hall a b hab) (not_or.mpr ⟨hne, hshows⟩), fun hall => absurd (hall a b hab) hne⟩

/-- Files 1, 2 and 4 have a gap that shows. -/
theorem detectsGaps_iff_shown : DetectsGaps [(1, 0), (2, 8), (4, 9)] ↔
    ((List.map Prod.fst [(1, 0), (2, 8), (4, 9)]).IsChain fun a b => ¬ HiddenGap a b) ∨
      ∃ a b, [a, b] <:+: List.map Prod.fst [(1, 0), (2, 8), (4, 9)] ∧ b ≠ a + 1 ∧ ¬ HiddenGap a b :=
  detectsGaps_iff (by unfold WideFiles; decide)

/-- After the first file of a log, number 0, the files up to 5 may be missing. -/
theorem first_gap_missed : ¬ DetectsGaps [(0, 0), (5, 10)] := by
  rintro ⟨valid, hvalid, hiff⟩
  have hpass : isValidSeq (walNames [(0, 0), (5, 10)]) = .ok true := by decide
  rw [hpass] at hvalid
  cases hvalid
  exact absurd (hiff.mp rfl) (by decide)

end Files

end RaftEtcd
