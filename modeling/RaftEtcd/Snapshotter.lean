import RaftEtcd.Lib.AssocMap
import RaftEtcd.Lib.Digits
import RaftEtcd.Wal

/-! `snap/snapshotter.cpp`: one file for each snapshot, a header with the length and the checksum
of the packed snapshot and then its bytes. The directory is a map from names to contents. -/
namespace RaftEtcd

/-- `Snapshot::equal`. -/
def Snapshot.equal (s t : Snapshot) : Bool := s.data == t.data && s.metadata == t.metadata

theorem Snapshot.equal_iff (s t : Snapshot) : s.equal t = true ↔ s = t := by
  cases s
  cases t
  simp [Snapshot.equal]

/-- `SnapshotRecord`, the header of a file. -/
structure SnapshotRecord where
  dataLen : UInt32
  crc32 : UInt32

def SnapshotRecord.bytes (r : SnapshotRecord) : Bytes := uint32Bytes r.dataLen ++ uint32Bytes r.crc32

/-- `fread` of a header. -/
def SnapshotRecord.ofBytes : Bytes → Option (SnapshotRecord × Bytes)
  | d0 :: d1 :: d2 :: d3 :: c0 :: c1 :: c2 :: c3 :: rest =>
      some ({ dataLen := uint32OfBytes d0 d1 d2 d3, crc32 := uint32OfBytes c0 c1 c2 c3 }, rest)
  | _ => none

@[simp] theorem SnapshotRecord.ofBytes_bytes (r : SnapshotRecord) (rest : Bytes) :
    SnapshotRecord.ofBytes (r.bytes ++ rest) = some (r, rest) := by
  simp only [SnapshotRecord.bytes, uint32Bytes, List.cons_append, List.nil_append, SnapshotRecord.ofBytes,
    uint32OfBytes_bytes]

/-- The files of the directory by their names. -/
abbrev SnapDir := AssocMap Bytes Bytes

namespace Snapshotter

def hexDigit (d : Nat) : UInt8 := UInt8.ofNat (if d < 10 then 48 + d else 87 + d)

/-- `%016lx`. -/
def hex16 (n : Nat) : Bytes := (List.range 16).reverse.map fun i => hexDigit (n / 16 ^ i % 16)

theorem hex16_eq (n : Nat) : hex16 n = (Digits.fixed 16 16 n).map hexDigit := by
  rw [hex16, Digits.fixed, List.map_map]
  rfl

@[simp] theorem hex16_length (n : Nat) : (hex16 n).length = 16 := by simp [hex16]

theorem hexDigit_lt : ∀ a < 16, ∀ b < 16, a < b → hexDigit a < hexDigit b := by decide

/-- All 16 digits of a `uint64_t` are written, so the texts are ordered as the numbers. -/
theorem hex16_lt_iff {n m : Nat} (hn : n < 2 ^ 64) (hm : m < 2 ^ 64) : hex16 n < hex16 m ↔ n < m := by
  have hpow : (2 : Nat) ^ 64 = 16 ^ 16 := by decide
  rw [hpow] at hn hm
  have hdigits : ∀ {n d : Nat}, d ∈ Digits.fixed 16 16 n → d < 16 := fun hd => Digits.fixed_lt (by decide) hd
  rw [hex16_eq, hex16_eq, Digits.map_lt_map_iff (P := (· < 16)) (fun x y hx hy => hexDigit_lt x hx y hy)
    (fun _ => hdigits) (fun _ => hdigits), Digits.fixed_lt_fixed_iff (by decide) hn hm]

theorem hex16_inj {n m : Nat} (hn : n < 2 ^ 64) (hm : m < 2 ^ 64) : hex16 n = hex16 m ↔ n = m := by
  constructor
  · intro h
    have hlt := (hex16_lt_iff hn hm).not.mp (h ▸ List.lt_irrefl _)
    have hgt := (hex16_lt_iff hm hn).not.mp (h ▸ List.lt_irrefl _)
    omega
  · rintro rfl
    rfl

/-- Two numbers with a hyphen between them, and an extension. -/
theorem hexName_lt_iff {t u x y : Nat} (ht : t < 2 ^ 64) (hu : u < 2 ^ 64) (hx : x < 2 ^ 64) (hy : y < 2 ^ 64)
    (extension : Bytes) : hex16 t ++ [45] ++ hex16 x ++ extension < hex16 u ++ [45] ++ hex16 y ++ extension ↔
      t < u ∨ t = u ∧ x < y := by
  have hend : hex16 x ++ extension < hex16 y ++ extension ↔ x < y := by
    rw [Digits.append_lt_append_iff (by simp), hex16_lt_iff hx hy]
    simp
  rw [List.append_assoc _ (hex16 x), List.append_assoc _ (hex16 y), Digits.append_lt_append_iff (by simp), hend,
    Digits.append_lt_append_iff (by simp), hex16_lt_iff ht hu, List.append_left_inj, hex16_inj ht hu]
  simp

/-- `.snap`. -/
def snapExtension : Bytes := [46, 115, 110, 97, 112]

/-- `.broken`. -/
def brokenExtension : Bytes := [46, 98, 114, 111, 107, 101, 110]

def snapName (term index : Nat) : Bytes := hex16 term ++ [45] ++ hex16 index ++ snapExtension

variable (mp : Msgpack) (crc : Bytes → UInt32)

/-- What `save_snap` writes. The length goes through a `uint32_t`, and only so many bytes follow. -/
def snapFile (s : Snapshot) : Bytes :=
  let sbuf := mp.pack s.toObj
  let record : SnapshotRecord := { dataLen := UInt32.ofNat sbuf.length, crc32 := crc sbuf }
  record.bytes ++ sbuf.take record.dataLen.toNat

def saveSnap (dir : SnapDir) (s : Snapshot) : SnapDir :=
  dir.insert (snapName s.metadata.term s.metadata.index) (snapFile mp crc s)

/-- The checks of `load_snap` and the conversion into an existing snapshot; `none` is a jump to
`invalid_snap`. -/
def readSnap (old : Snapshot) (file : Bytes) : Option Snapshot :=
  match SnapshotRecord.ofBytes file with
  | none => none
  | some (hdr, rest) =>
      if hdr.dataLen = 0 ∨ hdr.crc32 = 0 then none
      else if rest.length < hdr.dataLen.toNat then none
      else if crc (rest.take hdr.dataLen.toNat) ≠ hdr.crc32 then none
      else (mp.unpack (rest.take hdr.dataLen.toNat)).bind old.convert

/-- A file that is not accepted is renamed. -/
def loadSnap (dir : SnapDir) (filename : Bytes) (old : Snapshot) : SnapDir × Option Snapshot :=
  match dir.lookup filename with
  | none => (dir, none)
  | some file =>
      match readSnap mp crc old file with
      | some s => (dir, some s)
      | none => ((dir.erase filename).insert (filename ++ brokenExtension) file, none)

/-- The names from the greatest on. -/
def getSnapNames (dir : SnapDir) : List Bytes :=
  (dir.keys.filter fun name => snapExtension.isSuffixOf name).insertionSort fun a b => ¬ a < b

def loadFirst (old : Snapshot) : SnapDir → List Bytes → SnapDir × Option Snapshot
  | dir, [] => (dir, none)
  | dir, filename :: names =>
      match loadSnap mp crc dir filename old with
      | (dir, some s) => (dir, some s)
      | (dir, none) => loadFirst old dir names

/-- `none` is the status `not_found`. -/
def load (dir : SnapDir) (old : Snapshot) : SnapDir × Option Snapshot :=
  loadFirst mp crc old dir (getSnapNames dir)

end Snapshotter

section RoundTrip
open Snapshotter
variable {mp : Msgpack} {crc : Bytes → UInt32}

/-- A snapshot whose length survives the cast comes back without its configuration, unless its
checksum looks like none. -/
theorem readSnap_short {s old : Snapshot} (h : mp.Delimits s.toObj) (hlen : (mp.pack s.toObj).length < 2 ^ 32) :
    readSnap mp crc old (snapFile mp crc s) =
      if crc (mp.pack s.toObj) = 0 then none
      else some { s with metadata := { s.metadata with confState := old.metadata.confState } } := by
  have hpos : (mp.pack s.toObj).length ≠ 0 := fun h0 => h.nonempty (List.length_eq_zero_iff.mp h0)
  have hnat : (UInt32.ofNat (mp.pack s.toObj).length).toNat = (mp.pack s.toObj).length := by
    rw [UInt32.toNat_ofNat', Nat.mod_eq_of_lt hlen]
  have hne : UInt32.ofNat (mp.pack s.toObj).length ≠ 0 := by
    intro h0
    rw [h0] at hnat
    exact hpos hnat.symm
  simp only [readSnap, snapFile, SnapshotRecord.ofBytes_bytes, hnat, List.take_length, hne, false_or,
    lt_self_iff_false, if_false, ne_eq, not_true_eq_false]
  split
  · rfl
  · rw [h.restores, Option.bind_some, Snapshot.convert_toObj]

/-- A longer one is cut, and is then no packed snapshot any more. -/
theorem readSnap_long {s old : Snapshot} (h : mp.Delimits s.toObj) (hlen : 2 ^ 32 ≤ (mp.pack s.toObj).length) :
    readSnap mp crc old (snapFile mp crc s) = none := by
  have hnat : (UInt32.ofNat (mp.pack s.toObj).length).toNat = (mp.pack s.toObj).length % 2 ^ 32 :=
    UInt32.toNat_ofNat'
  have hlt : (mp.pack s.toObj).length % 2 ^ 32 < (mp.pack s.toObj).length := by omega
  have hcut := h.cut _ hlt
  simp only [readSnap, snapFile, SnapshotRecord.ofBytes_bytes, hnat, List.take_take, min_self, hcut,
    Option.bind_none]
  split_ifs <;> rfl

theorem loadSnap_insert (dir : SnapDir) (name file : Bytes) (old : Snapshot) :
    (loadSnap mp crc (dir.insert name file) name old).2 = readSnap mp crc old file := by
  unfold loadSnap
  rw [AList.lookup_insert]
  dsimp only
  split
  · rename_i t ht
    exact ht.symm
  · rename_i ht
    exact ht.symm

/-- A saved snapshot is loaded again as it was exactly if it names no voters and learners, its
checksum is not 0 and its packed form is shorter than 4 GiB. -/
theorem snapshot_file_round_trip (mp : Msgpack) (crc : Bytes → UInt32) (dir : SnapDir) (s : Snapshot)
    (hlib : mp.Delimits s.toObj) :
    (∃ t, (loadSnap mp crc (saveSnap mp crc dir s) (snapName s.metadata.term s.metadata.index) {}).2 = some t ∧
        s.equal t = true) ↔
      s.metadata.confState = {} ∧ crc (mp.pack s.toObj) ≠ 0 ∧ (mp.pack s.toObj).length < 2 ^ 32 := by
  rw [saveSnap, loadSnap_insert]
  simp only [Snapshot.equal_iff]
  by_cases hlen : (mp.pack s.toObj).length < 2 ^ 32
  · rw [readSnap_short hlib hlen]
    constructor
    · rintro ⟨t, ht, rfl⟩
      split at ht
      · cases ht
      · rename_i hcrc
        have hconf := congrArg (fun t => t.metadata.confState) (Option.some.inj ht)
        exact ⟨hconf.symm, hcrc, hlen⟩
    · rintro ⟨hconf, hcrc, -⟩
      refine ⟨s, ?_, rfl⟩
      rw [if_neg hcrc, ← hconf]
  · rw [readSnap_long hlib (by omega)]
    constructor
    · rintro ⟨t, ht, -⟩
      cases ht
    · rintro ⟨-, -, hlt⟩
      exact absurd hlt hlen

theorem Snapshot.fits {s : Snapshot} (hdata : s.data.length < 2 ^ 32) (hindex : s.metadata.index < 2 ^ 64)
    (hterm : s.metadata.term < 2 ^ 64) : MessagePack.Fits s.toObj := by
  have hmeta : MessagePack.Fits s.metadata.toObj := by
    refine fits_array (by simp) ?_
    simp only [List.forall_mem_cons]
    exact ⟨.uint hindex, .uint hterm, by simp⟩
  refine fits_array (by simp) ?_
  simp only [List.forall_mem_cons]
  exact ⟨.bin hdata, hmeta, by simp⟩

/-- The snapshot of the test `SaveAndLoad`, with these voters. -/
def testSnap (nodes : List Nat) : Snapshot :=
  { data := [116, 101, 115, 116], metadata := { confState := { nodes := nodes }, index := 1, term := 1 } }

theorem testSnap_delimits (nodes : List Nat) : messagePack.Delimits (testSnap nodes).toObj :=
  messagePack_delimits (Snapshot.fits (by simp [testSnap]) (by simp [testSnap]) (by simp [testSnap]))

theorem snapshot_file_round_trip_test :
    ∃ t, (loadSnap messagePack crc32 (saveSnap messagePack crc32 ∅ (testSnap [])) (snapName 1 1) {}).2 = some t ∧
      (testSnap []).equal t = true :=
  (snapshot_file_round_trip messagePack crc32 ∅ (testSnap []) (testSnap_delimits [])).mpr
    ⟨rfl, by decide +kernel, by decide +kernel⟩

/-- A snapshot whose packed form has the checksum 0. -/
def zeroSnap : Snapshot := { data := [158, 106, 64, 125], metadata := { index := 1, term := 1 } }

/-- With the voters that the test gives it, the snapshot is loaded, but without them; and one that
has none is refused for its checksum. -/
theorem snapshot_file_not_restored :
    (∃ t, (loadSnap messagePack crc32 (saveSnap messagePack crc32 ∅ (testSnap [1, 2, 3])) (snapName 1 1) {}).2 =
        some t ∧ (testSnap [1, 2, 3]).equal t = false) ∧
      zeroSnap.isEmpty = false ∧
      (loadSnap messagePack crc32 (saveSnap messagePack crc32 ∅ zeroSnap) (snapName 1 1) {}).2 = none := by
  refine ⟨⟨testSnap [], ?_, by decide⟩, rfl, ?_⟩
  · decide +kernel
  · decide +kernel

end RoundTrip

end RaftEtcd
