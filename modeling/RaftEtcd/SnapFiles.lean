import RaftEtcd.Snapshotter

/-! Which snapshot `load` finds. The files are tried from the greatest name on, and one that cannot
be read is renamed, so a file that can be read shields everything with a smaller name. -/
namespace RaftEtcd

open Snapshotter

variable {mp : Msgpack} {crc : Bytes → UInt32}

/-! ### Names -/

/-- The extension is `.snap`. -/
def IsSnap (name : Bytes) : Prop := snapExtension.isSuffixOf name = true

theorem isSnap_snapName (term index : Nat) : IsSnap (snapName term index) :=
  List.isSuffixOf_iff_suffix.mpr (List.suffix_append _ _)

theorem not_isSnap_broken (name : Bytes) : ¬ IsSnap (name ++ brokenExtension) := by
  intro h
  have hshort : snapExtension.length ≤ brokenExtension.length := by decide
  have hin := List.suffix_of_suffix_length_le (List.isSuffixOf_iff_suffix.mp h) (List.suffix_append name _) hshort
  exact absurd (List.isSuffixOf_iff_suffix.mpr hin) (by decide)

/-- Names are ordered by the term and then by the index. -/
theorem snapName_lt_iff {t u x y : Nat} (ht : t < 2 ^ 64) (hu : u < 2 ^ 64) (hx : x < 2 ^ 64) (hy : y < 2 ^ 64) :
    snapName t x < snapName u y ↔ t < u ∨ t = u ∧ x < y := hexName_lt_iff ht hu hx hy snapExtension

theorem snapName_inj {t u x y : Nat} (hx : x < 2 ^ 64) (hy : y < 2 ^ 64) (h : snapName t x = snapName u y) : x = y := by
  have h1 := List.append_inj_left' h rfl
  exact (hex16_inj hx hy).mp (List.append_inj_right h1 (by simp))

/-! ### Files -/

/-- A loaded snapshot names no members. -/
theorem readSnap_confState {file : Bytes} {s : Snapshot} (h : readSnap mp crc {} file = some s) :
    s.metadata.confState = {} := by
  have hconv : ∀ o : MessagePack.Obj, Snapshot.convert {} o = some s → s.metadata.confState = {} := by
    intro o ho
    unfold Snapshot.convert at ho
    split at ho
    · rename_i os
      simp only [bind, Option.bind_eq_some_iff, Option.some.injEq] at ho
      obtain ⟨data, -, md, hmd, rfl⟩ := ho
      unfold member at hmd
      split at hmd
      · rw [← Option.some.inj hmd]
      · unfold SnapshotMetadata.convert at hmd
        split at hmd
        · simp only [bind, Option.bind_eq_some_iff, Option.some.injEq] at hmd
          obtain ⟨index, -, term, -, rfl⟩ := hmd
          rfl
        · cases hmd
    · cases ho
  unfold readSnap at h
  split at h
  · cases h
  split at h
  · cases h
  split at h
  · cases h
  split at h
  · cases h
  · obtain ⟨o, -, ho⟩ := Option.bind_eq_some_iff.mp h
    exact hconv o ho

/-- A file that is not all there is not read. -/
theorem readSnap_torn {s old : Snapshot} {file : Bytes} (h : file <+: snapFile mp crc s)
    (hlt : file.length < (snapFile mp crc s).length) : readSnap mp crc old file = none := by
  obtain ⟨record, hfile⟩ : ∃ record : SnapshotRecord,
      snapFile mp crc s = record.bytes ++ (mp.pack s.toObj).take record.dataLen.toNat := ⟨_, rfl⟩
  rw [hfile] at h hlt
  have hbytes : record.bytes.length = 8 := rfl
  rw [List.length_append, hbytes, List.length_take] at hlt
  rw [List.prefix_iff_eq_take.mp h, readSnap]
  by_cases h8 : file.length < 8
  · have hnone : SnapshotRecord.ofBytes ((record.bytes ++ (mp.pack s.toObj).take record.dataLen.toNat).take file.length) =
        none := by
      rw [List.take_append_of_le_length (by omega)]
      unfold SnapshotRecord.ofBytes
      split
      · rename_i heq
        have := congrArg List.length heq
        simp only [List.length_take, hbytes, List.length_cons] at this
        omega
      · rfl
    rw [hnone]
  · rw [List.take_append, List.take_of_length_le (by omega), SnapshotRecord.ofBytes_bytes]
    dsimp only
    split
    · rfl
    rw [if_pos (by rw [List.length_take, List.length_take]; omega)]

/-- What is read from a part of a saved snapshot is that snapshot, but for its configuration. -/
theorem readSnap_part {s y : Snapshot} {file : Bytes} (hs : mp.Delimits s.toObj) (h : file <+: snapFile mp crc s)
    (hy : readSnap mp crc {} file = some y) : y = { s with metadata := { s.metadata with confState := {} } } := by
  have hall : file = snapFile mp crc s := by
    refine h.eq_of_length_le (Nat.not_lt.mp fun hlt => ?_)
    cases (readSnap_torn h hlt).symm.trans hy
  rw [hall] at hy
  by_cases hlen : (mp.pack s.toObj).length < 2 ^ 32
  · rw [readSnap_short hs hlen] at hy
    split at hy
    · cases hy
    · exact (Option.some.inj hy).symm
  · cases (readSnap_long hs (by omega)).symm.trans hy

theorem readSnap_saved {s y : Snapshot} {file : Bytes} (hs : mp.Delimits s.toObj) (h : file <+: snapFile mp crc s)
    (hy : readSnap mp crc {} file = some y) : y.metadata.index = s.metadata.index ∧ y.metadata.term = s.metadata.term := by
  rw [readSnap_part hs h hy]
  exact ⟨rfl, rfl⟩

/-! ### The search -/

/-- No snapshot comes from the file of this name. -/
def Unread (mp : Msgpack) (crc : Bytes → UInt32) (dir : SnapDir) (name : Bytes) : Prop :=
  ∀ file, dir.lookup name = some file → readSnap mp crc {} file = none

theorem lookup_broken {dir : SnapDir} {name n file : Bytes} (hn : IsSnap n) :
    ((dir.erase name).insert (name ++ brokenExtension) file).lookup n = if n = name then none else dir.lookup n := by
  have hne : n ≠ name ++ brokenExtension := by
    rintro rfl
    exact not_isSnap_broken name hn
  rw [AList.lookup_insert_ne hne]
  split
  · rename_i heq
    rw [heq, AList.lookup_erase]
  · rename_i hother
    rw [AList.lookup_erase_ne hother]

/-- The files of these names have the extension of broken ones, and nothing else is changed. -/
structure Renames (dir dir' : SnapDir) (gone : Bytes → Prop) : Prop where
  moved : ∀ n, gone n → dir'.lookup n = none ∧ dir'.lookup (n ++ brokenExtension) = dir.lookup n
  kept : ∀ n, ¬ gone n → (∀ m, gone m → n ≠ m ++ brokenExtension) → dir'.lookup n = dir.lookup n

section Renames
variable {dir dir' : SnapDir} {gone gone' : Bytes → Prop} {name file : Bytes}

theorem Renames.none (h : ∀ n, ¬ gone n) : Renames dir dir gone := ⟨fun n hn => absurd hn (h n), fun _ _ _ => rfl⟩

theorem Renames.congr (h : Renames dir dir' gone) (hsame : ∀ n, gone n ↔ gone' n) : Renames dir dir' gone' :=
  ⟨fun n hn => h.moved n ((hsame n).mpr hn),
    fun n hn hm => h.kept n (fun hg => hn ((hsame n).mp hg)) fun m hg => hm m ((hsame m).mp hg)⟩

theorem Renames.lookup (h : Renames dir dir' gone) {n : Bytes} (hn : IsSnap n) :
    (gone n → dir'.lookup n = .none) ∧ (¬ gone n → dir'.lookup n = dir.lookup n) := by
  refine ⟨fun hg => (h.moved n hg).1, fun hg => h.kept n hg ?_⟩
  rintro m hm rfl
  exact not_isSnap_broken m hn

/-- One file is renamed, and then the others. -/
theorem Renames.cons (hfile : dir.lookup name = some file) (hname : IsSnap name) (hgone : ∀ n, gone n → IsSnap n)
    (hne : ∀ n, gone n → n ≠ name) (h : Renames ((dir.erase name).insert (name ++ brokenExtension) file) dir' gone) :
    Renames dir dir' fun n => n = name ∨ gone n := by
  have hlook : ∀ n, gone n → ((dir.erase name).insert (name ++ brokenExtension) file).lookup n = dir.lookup n := by
    intro n hn
    rw [lookup_broken (hgone n hn), if_neg (hne n hn)]
  have hself : ∀ m, gone m → name ++ brokenExtension ≠ m ++ brokenExtension := fun m hm heq =>
    hne m hm (List.append_cancel_right heq).symm
  have hnot : ¬ gone name := fun hg => hne name hg rfl
  constructor
  · rintro n (rfl | hn)
    · have hout : ∀ m, gone m → n ≠ m ++ brokenExtension := by
        rintro m - rfl
        exact not_isSnap_broken m hname
      rw [h.kept n hnot hout, lookup_broken hname, if_pos rfl,
        h.kept _ (fun hg => not_isSnap_broken n (hgone _ hg)) hself, AList.lookup_insert, hfile]
      exact ⟨rfl, rfl⟩
    · rw [← hlook n hn]
      exact h.moved n hn
  · intro n hn htarget
    rw [not_or] at hn
    rw [h.kept n hn.2 fun m hm => htarget m (Or.inr hm), AList.lookup_insert_ne (htarget name (Or.inl rfl)),
      AList.lookup_erase_ne hn.1]

end Renames

/-- The files in front of the first one that can be read are renamed. -/
theorem loadFirst_spec (mp : Msgpack) (crc : Bytes → UInt32) (old : Snapshot) (names : List Bytes) (dir : SnapDir)
    (hnames : ∀ n ∈ names, IsSnap n) :
    ∃ dir' r pre post, names = pre ++ post ∧ loadFirst mp crc old dir names = (dir', r) ∧
      (∀ n ∈ pre, ∀ file, dir.lookup n = some file → readSnap mp crc old file = none) ∧
      Renames dir dir' (fun n => n ∈ pre ∧ n ∈ dir.keys) ∧
      (r = none ∧ post = [] ∨ ∃ name post' file y, post = name :: post' ∧ dir.lookup name = some file ∧
        readSnap mp crc old file = some y ∧ r = some y) := by
  induction names generalizing dir with
  | nil => exact ⟨dir, none, [], [], rfl, rfl, nofun, .none (by simp), Or.inl ⟨rfl, rfl⟩⟩
  | cons name names ih =>
      have hname := hnames name List.mem_cons_self
      have hrest : ∀ n ∈ names, IsSnap n := fun n hn => hnames n (List.mem_cons_of_mem _ hn)
      cases hfile : dir.lookup name with
      | none =>
          have hload : loadSnap mp crc dir name old = (dir, none) := by rw [loadSnap, hfile]
          obtain ⟨dir', r, pre, post, rfl, hfirst, hun, hren, hend⟩ := ih dir hrest
          refine ⟨dir', r, name :: pre, post, rfl, by rw [loadFirst, hload]; exact hfirst, ?_, ?_, hend⟩
          · intro n hn file hf
            rcases List.mem_cons.mp hn with rfl | hn
            · cases hfile.symm.trans hf
            · exact hun n hn file hf
          · refine hren.congr fun n => ?_
            have hnot : n ∈ dir.keys → n ≠ name := by
              rintro hkey rfl
              exact AList.lookup_eq_none.mp hfile hkey
            rw [List.mem_cons]
            tauto
      | some file =>
          cases hread : readSnap mp crc old file with
          | some y =>
              have hload : loadSnap mp crc dir name old = (dir, some y) := by rw [loadSnap, hfile]; simp only [hread]
              refine ⟨dir, some y, [], name :: names, rfl, by rw [loadFirst, hload], nofun, .none (by simp),
                Or.inr ⟨name, names, file, y, rfl, hfile, hread, rfl⟩⟩
          | none =>
              have hload : loadSnap mp crc dir name old =
                  ((dir.erase name).insert (name ++ brokenExtension) file, none) := by
                rw [loadSnap, hfile]
                simp only [hread]
              obtain ⟨dir', r, pre, post, rfl, hfirst, hun, hren, hend⟩ :=
                ih ((dir.erase name).insert (name ++ brokenExtension) file) hrest
              have hkeys : ∀ n, IsSnap n → (n ∈ ((dir.erase name).insert (name ++ brokenExtension) file).keys ↔
                  n ∈ dir.keys ∧ n ≠ name) := by
                intro n hn
                rw [← AssocMap.lookup_isSome_iff, lookup_broken hn, ← AssocMap.lookup_isSome_iff]
                split <;> simp_all
              refine ⟨dir', r, name :: pre, post, rfl, by rw [loadFirst, hload]; exact hfirst, ?_, ?_, ?_⟩
              · intro n hn f hf
                by_cases heq : n = name
                · rw [heq, hfile] at hf
                  rw [← Option.some.inj hf, hread]
                · have hpre := (List.mem_cons.mp hn).resolve_left heq
                  refine hun n hpre f ?_
                  rw [lookup_broken (hrest n (List.mem_append_left _ hpre)), if_neg heq, hf]
              · have hsnap : ∀ n ∈ pre, IsSnap n := fun n hn => hrest n (List.mem_append_left _ hn)
                refine (hren.cons hfile hname (fun n hn => hsnap n hn.1)
                  fun n hn => ((hkeys n (hsnap n hn.1)).mp hn.2).2).congr fun n => ?_
                have hkey : name ∈ dir.keys := by
                  rw [← AssocMap.lookup_isSome_iff, hfile]
                  rfl
                rw [List.mem_cons]
                constructor
                · rintro (rfl | ⟨hpre, hn⟩)
                  · exact ⟨Or.inl rfl, hkey⟩
                  · exact ⟨Or.inr hpre, ((hkeys n (hsnap n hpre)).mp hn).1⟩
                · rintro ⟨hmem, hn⟩
                  by_cases heq : n = name
                  · exact Or.inl heq
                  · have hpre := hmem.resolve_left heq
                    exact Or.inr ⟨hpre, (hkeys n (hsnap n hpre)).mpr ⟨hn, heq⟩⟩
              · rcases hend with hend | ⟨n, post', f, y, rfl, hf, hy, rfl⟩
                · exact Or.inl hend
                · rw [lookup_broken (hrest n (by simp))] at hf
                  split at hf
                  · cases hf
                  · exact Or.inr ⟨n, post', f, y, rfl, hf, hy, rfl⟩

/-- The snapshot that is found has the greatest name of those that can be read, and the files with greater
names are renamed. -/
theorem load_reads (mp : Msgpack) (crc : Bytes → UInt32) (dir : SnapDir) (old : Snapshot) :
    ∃ dir', (load mp crc dir old = (dir', none) ∧
        (∀ n, IsSnap n → ∀ file, dir.lookup n = some file → readSnap mp crc old file = none) ∧
        Renames dir dir' (fun n => IsSnap n ∧ n ∈ dir.keys)) ∨
      ∃ name file y, load mp crc dir old = (dir', some y) ∧ dir.lookup name = some file ∧ IsSnap name ∧
        readSnap mp crc old file = some y ∧
        (∀ n, IsSnap n → name < n → ∀ file, dir.lookup n = some file → readSnap mp crc old file = none) ∧
        Renames dir dir' (fun n => (IsSnap n ∧ n ∈ dir.keys) ∧ name < n) := by
  have hmem : ∀ n, n ∈ getSnapNames dir ↔ IsSnap n ∧ n ∈ dir.keys := by
    intro n
    rw [getSnapNames, List.mem_insertionSort, List.mem_filter, and_comm]
    rfl
  have hsorted : (getSnapNames dir).Pairwise fun a b => ¬ a < b := by
    have htotal : Std.Total fun a b : Bytes => ¬ a < b := ⟨fun a b => List.le_total b a⟩
    have htrans : IsTrans Bytes fun a b => ¬ a < b := ⟨fun a b c hab hbc => List.le_trans (show c ≤ b from hbc) hab⟩
    exact List.pairwise_insertionSort _ _
  have hnodup : (getSnapNames dir).Nodup :=
    (List.perm_insertionSort _ _).nodup_iff.mpr (dir.nodupKeys.filter _)
  obtain ⟨dir', r, pre, post, hnames, hload, hun, hren, hend⟩ := loadFirst_spec mp crc old
    (getSnapNames dir) dir fun n hn => ((hmem n).mp hn).1
  have hlisted : ∀ {n file : Bytes}, IsSnap n → dir.lookup n = some file → n ∈ getSnapNames dir := by
    intro n file hn hf
    refine (hmem n).mpr ⟨hn, ?_⟩
    rw [← AssocMap.lookup_isSome_iff, hf]
    rfl
  refine ⟨dir', ?_⟩
  rcases hend with ⟨rfl, rfl⟩ | ⟨name, post', file, y, rfl, hfile, hread, rfl⟩
  · rw [List.append_nil] at hnames
    refine Or.inl ⟨hload, fun n hn f hf => hun n (hnames ▸ hlisted hn hf) f hf, hren.congr fun n => ?_⟩
    rw [← hnames, hmem]
    tauto
  · rw [hnames] at hsorted hnodup
    obtain ⟨-, hpost, hpre⟩ := List.pairwise_append.mp hsorted
    obtain ⟨-, -, hdisj⟩ := List.nodup_append.mp hnodup
    have hfront : ∀ n, n ∈ getSnapNames dir → (n ∈ pre ↔ name < n) := by
      intro n hn
      rw [hnames, List.mem_append, List.mem_cons] at hn
      constructor
      · intro hin
        by_contra hle
        exact hdisj n hin name List.mem_cons_self
          (List.le_antisymm (List.not_lt.mp hle) (List.not_lt.mp (hpre n hin name List.mem_cons_self)))
      · intro hlt
        rcases hn with hn | rfl | hn
        · exact hn
        · exact absurd hlt (List.lt_irrefl _)
        · exact absurd hlt ((List.pairwise_cons.mp hpost).1 n hn)
    refine Or.inr ⟨name, file, y, hload, hfile, ((hmem name).mp (hnames ▸ by simp)).1, hread, fun n hn hlt f hf => ?_,
      hren.congr fun n => ?_⟩
    · exact hun n ((hfront n (hlisted hn hf)).mpr hlt) f hf
    · constructor
      · rintro ⟨hin, -⟩
        have hn : n ∈ getSnapNames dir := hnames ▸ List.mem_append_left _ hin
        exact ⟨(hmem n).mp hn, (hfront n hn).mp hin⟩
      · rintro ⟨hn, hlt⟩
        exact ⟨(hfront n ((hmem n).mpr hn)).mpr hlt, hn.2⟩

/-- Seen from the names of snapshots: the files with greater names are gone, and the others are as they were. -/
theorem load_spec (mp : Msgpack) (crc : Bytes → UInt32) (dir : SnapDir) :
    ∃ dir', (load mp crc dir {} = (dir', none) ∧ ∀ n, IsSnap n → Unread mp crc dir n ∧ dir'.lookup n = none) ∨
      ∃ name file y, load mp crc dir {} = (dir', some y) ∧ dir.lookup name = some file ∧ IsSnap name ∧
        readSnap mp crc {} file = some y ∧
        ∀ n, IsSnap n → name < n ∧ Unread mp crc dir n ∧ dir'.lookup n = none ∨
          ¬ name < n ∧ dir'.lookup n = dir.lookup n := by
  obtain ⟨dir', ⟨hload, hun, hren⟩ | ⟨name, file, y, hload, hfile, hname, hread, hun, hren⟩⟩ := load_reads mp crc dir {}
  · refine ⟨dir', Or.inl ⟨hload, fun n hn => ⟨hun n hn, ?_⟩⟩⟩
    obtain ⟨hgone, hkept⟩ := hren.lookup hn
    by_cases hkey : n ∈ dir.keys
    · exact hgone ⟨hn, hkey⟩
    · rw [hkept fun hg => hkey hg.2]
      exact AList.lookup_eq_none.mpr hkey
  · refine ⟨dir', Or.inr ⟨name, file, y, hload, hfile, hname, hread, fun n hn => ?_⟩⟩
    obtain ⟨hgone, hkept⟩ := hren.lookup hn
    by_cases hlt : name < n
    · refine Or.inl ⟨hlt, hun n hn hlt, ?_⟩
      by_cases hkey : n ∈ dir.keys
      · exact hgone ⟨⟨hn, hkey⟩, hlt⟩
      · rw [hkept fun hg => hkey hg.1.2]
        exact AList.lookup_eq_none.mpr hkey
    · exact Or.inr ⟨hlt, hkept fun hg => hlt hg.2⟩

/-! ### The newest one -/

def Snapshot.fileName (s : Snapshot) : Bytes := snapName s.metadata.term s.metadata.index

/-- The header is not all there or says nothing, or the data is not all there or has another checksum. -/
def Damaged (crc : Bytes → UInt32) (file : Bytes) : Prop :=
  ∀ hdr rest, SnapshotRecord.ofBytes file = some (hdr, rest) → hdr.dataLen = 0 ∨ hdr.crc32 = 0 ∨
    rest.length < hdr.dataLen.toNat ∨ crc (rest.take hdr.dataLen.toNat) ≠ hdr.crc32

/-- These snapshots were saved into the directory, each with a term and an index of its own and a checksum that
is not 0, and every other file of a snapshot is damaged. -/
structure HoldsSaved (mp : Msgpack) (crc : Bytes → UInt32) (dir : SnapDir) (saved : List Snapshot) : Prop where
  distinct : ∀ s ∈ saved, ∀ t ∈ saved, s.metadata.term = t.metadata.term → s.metadata.index = t.metadata.index → s = t
  numbers : ∀ s ∈ saved, s.metadata.term < 2 ^ 64 ∧ s.metadata.index < 2 ^ 64
  checksums : ∀ s ∈ saved, crc (mp.pack s.toObj) ≠ 0
  delimits : ∀ s ∈ saved, mp.Delimits s.toObj
  files : ∀ s ∈ saved, dir.lookup s.fileName = some (snapFile mp crc s)
  others : ∀ n file, IsSnap n → dir.lookup n = some file → (∃ s ∈ saved, n = s.fileName) ∨ Damaged crc file

/-- No other one has a greater term, or the same term and a greater index. -/
def Newest (saved : List Snapshot) (s : Snapshot) : Prop :=
  s ∈ saved ∧ ∀ t ∈ saved, t.metadata.term < s.metadata.term ∨
    t.metadata.term = s.metadata.term ∧ t.metadata.index ≤ s.metadata.index

/-- The newest snapshot is loaded, nothing is found only if nothing was saved, and renamed are exactly the
files that sort above everything that was saved. -/
structure LoadsNewest (mp : Msgpack) (crc : Bytes → UInt32) (dir : SnapDir) (saved : List Snapshot)
    (old : Snapshot) : Prop where
  newest : ∀ s, Newest saved s → ∃ t, (load mp crc dir old).2 = some t ∧ s.equal t = true
  nothing : (load mp crc dir old).2 = none ↔ saved = []
  renames : Renames dir (load mp crc dir old).1
    fun n => (IsSnap n ∧ n ∈ dir.keys) ∧ ∀ s ∈ saved, s.fileName < n

section Newest
variable {dir : SnapDir} {saved : List Snapshot} {s t old : Snapshot} {file : Bytes}

theorem Damaged.unread (h : Damaged crc file) (old : Snapshot) : readSnap mp crc old file = none := by
  unfold readSnap
  split
  · rfl
  rename_i hdr rest hfile
  rcases h hdr rest hfile with hlen | hcrc | hshort | hdata
  · rw [if_pos (Or.inl hlen)]
  · rw [if_pos (Or.inr hcrc)]
  · rw [if_pos hshort, ite_self]
  · rw [if_pos hdata, ite_self, ite_self]

theorem exists_newest (hne : saved ≠ []) : ∃ s, Newest saved s := by
  induction saved with
  | nil => exact absurd rfl hne
  | cons s saved ih =>
      by_cases hlast : saved = []
      · exact ⟨s, List.mem_cons_self, by simp [hlast]⟩
      obtain ⟨t, ht, hmax⟩ := ih hlast
      by_cases hs : t.metadata.term < s.metadata.term ∨
          t.metadata.term = s.metadata.term ∧ t.metadata.index ≤ s.metadata.index
      · refine ⟨s, List.mem_cons_self, fun u hu => ?_⟩
        rcases List.mem_cons.mp hu with rfl | hu
        · exact Or.inr ⟨rfl, le_rfl⟩
        · have := hmax u hu
          omega
      · refine ⟨t, List.mem_cons_of_mem _ ht, fun u hu => ?_⟩
        rcases List.mem_cons.mp hu with rfl | hu
        · omega
        · exact hmax u hu

namespace HoldsSaved

/-- What is read is one of the saved snapshots, as far as its file holds it. -/
theorem read (h : HoldsSaved mp crc dir saved) {name : Bytes} {y : Snapshot} (hname : IsSnap name)
    (hfile : dir.lookup name = some file) (hread : readSnap mp crc old file = some y) :
    ∃ s ∈ saved, name = s.fileName ∧ (mp.pack s.toObj).length < 2 ^ 32 ∧
      y = { s with metadata := { s.metadata with confState := old.metadata.confState } } := by
  rcases h.others name file hname hfile with ⟨s, hs, rfl⟩ | hdamaged
  · obtain rfl := Option.some.inj (hfile.symm.trans (h.files s hs))
    by_cases hlen : (mp.pack s.toObj).length < 2 ^ 32
    · rw [readSnap_short (h.delimits s hs) hlen, if_neg (h.checksums s hs)] at hread
      exact ⟨s, hs, rfl, hlen, (Option.some.inj hread).symm⟩
    · cases (readSnap_long (h.delimits s hs) (Nat.not_lt.mp hlen)).symm.trans hread
  · cases (hdamaged.unread old).symm.trans hread

theorem name_lt (h : HoldsSaved mp crc dir saved) (hs : s ∈ saved) (ht : t ∈ saved) :
    s.fileName < t.fileName ↔ s.metadata.term < t.metadata.term ∨
      s.metadata.term = t.metadata.term ∧ s.metadata.index < t.metadata.index :=
  snapName_lt_iff (h.numbers s hs).1 (h.numbers t ht).1 (h.numbers s hs).2 (h.numbers t ht).2

/-- The newest has the greatest name. -/
theorem newest_name (h : HoldsSaved mp crc dir saved) (hs : Newest saved s) (ht : t ∈ saved) :
    t = s ∨ t.fileName < s.fileName := by
  rcases hs.2 t ht with hlt | ⟨hterm, hle⟩
  · exact Or.inr ((h.name_lt ht hs.1).mpr (Or.inl hlt))
  rcases hle.lt_or_eq with hlt | hindex
  · exact Or.inr ((h.name_lt ht hs.1).mpr (Or.inr ⟨hterm, hlt⟩))
  · exact Or.inl (h.distinct t ht s hs.1 hterm hindex)

end HoldsSaved

/-- A file that was saved is read, unless it was cut. -/
theorem HoldsSaved.readable (h : HoldsSaved mp crc dir saved) (hs : s ∈ saved) (hlen : (mp.pack s.toObj).length < 2 ^ 32)
    (old : Snapshot) : readSnap mp crc old (snapFile mp crc s) ≠ none := by
  rw [readSnap_short (h.delimits s hs) hlen, if_neg (h.checksums s hs)]
  exact nofun

/-- The newest snapshot that was saved is loaded, and what is above it renamed, exactly if the newest names
the members that the caller's snapshot has and its packed form is shorter than 4 GiB. -/
theorem load_newest_iff (h : HoldsSaved mp crc dir saved) (old : Snapshot) :
    LoadsNewest mp crc dir saved old ↔ ∀ s, Newest saved s →
      s.metadata.confState = old.metadata.confState ∧ (mp.pack s.toObj).length < 2 ^ 32 := by
  obtain ⟨dir', ⟨hload, hun, hren⟩ | ⟨name, file, y, hload, hfile, hname, hread, hun, hren⟩⟩ :=
    load_reads mp crc dir old
  · constructor
    · intro hloads s hs
      have hnil := hloads.nothing.mp (by rw [hload])
      rw [hnil] at hs
      cases hs.1
    · intro hnewest
      have hnil : saved = [] := by
        by_contra hne
        obtain ⟨s, hs⟩ := exists_newest hne
        exact h.readable hs.1 (hnewest s hs).2 old (hun _ (isSnap_snapName _ _) _ (h.files s hs.1))
      subst hnil
      rw [show dir' = (load mp crc dir old).1 by rw [hload]] at hren
      exact ⟨fun s hs => absurd hs.1 List.not_mem_nil, by simp [hload], hren.congr fun n => by simp⟩
  obtain ⟨t, ht, rfl, hlen, hy⟩ := h.read hname hfile hread
  constructor
  · intro hloads s hs
    obtain ⟨u, hu, hequal⟩ := hloads.newest s hs
    rw [hload] at hu
    obtain rfl := Option.some.inj hu
    have hsame := (Snapshot.equal_iff _ _).mp hequal
    obtain rfl := h.distinct s hs.1 t ht (by rw [hsame, hy]) (by rw [hsame, hy])
    exact ⟨by rw [hsame, hy], hlen⟩
  · intro hnewest
    have hfound : ∀ s, Newest saved s → t = s := by
      intro s hs
      refine (h.newest_name hs ht).resolve_right fun hlt => ?_
      exact h.readable hs.1 (hnewest s hs).2 old (hun _ (isSnap_snapName _ _) hlt _ (h.files s hs.1))
    obtain ⟨s, hs⟩ := exists_newest (List.ne_nil_of_mem ht)
    obtain rfl := hfound s hs
    have hwhole : y = t := by rw [hy, ← (hnewest t hs).1]
    rw [show dir' = (load mp crc dir old).1 by rw [hload]] at hren
    refine ⟨fun s' hs' => ⟨y, by rw [hload], ?_⟩, ?_, hren.congr fun n => and_congr_right fun _ => ?_⟩
    · rw [Snapshot.equal_iff, hwhole, hfound s' hs']
    · simp [hload, List.ne_nil_of_mem ht]
    · constructor
      · intro hlt u hu
        rcases h.newest_name hs hu with rfl | hbelow
        · exact hlt
        · exact List.lt_trans hbelow hlt
      · intro hall
        exact hall t ht

/-- The directory of the test `Failback`: a file of five bytes, and the snapshot with these voters. -/
def failbackDir (nodes : List Nat) : SnapDir :=
  saveSnap messagePack crc32 (AList.insert (snapName 0xFFFF 0xFFFF) [115, 111, 109, 101, 100] ∅) (testSnap nodes)

theorem failbackDir_holds (nodes : List Nat) : HoldsSaved messagePack crc32 (failbackDir nodes) [testSnap nodes] where
  distinct s hs t ht _ _ := (List.mem_singleton.mp hs).trans (List.mem_singleton.mp ht).symm
  numbers s hs := by
    rw [List.mem_singleton.mp hs]
    exact ⟨by simp [testSnap], by simp [testSnap]⟩
  checksums s hs := by
    rw [List.mem_singleton.mp hs]
    have hcrc : crc32 (messagePack.pack (testSnap []).toObj) ≠ 0 := by decide +kernel
    exact hcrc
  delimits s hs := by
    rw [List.mem_singleton.mp hs]
    exact testSnap_delimits nodes
  files s hs := by
    rw [List.mem_singleton.mp hs]
    exact AList.lookup_insert _
  others n file _ hfile := by
    by_cases hn : n = (testSnap nodes).fileName
    · exact Or.inl ⟨_, List.mem_singleton_self _, hn⟩
    refine Or.inr ?_
    have hrest : (AList.insert (snapName 0xFFFF 0xFFFF) ([115, 111, 109, 101, 100] : Bytes) (∅ : SnapDir)).lookup n =
        some file := (AList.lookup_insert_ne hn).symm.trans hfile
    by_cases hfirst : n = snapName 0xFFFF 0xFFFF
    · rw [hfirst, AList.lookup_insert] at hrest
      rw [← Option.some.inj hrest]
      exact fun _ _ h => by cases h
    · rw [AList.lookup_insert_ne hfirst] at hrest
      cases hrest

/-- Without voters the snapshot comes back, and the torn file is renamed. -/
theorem load_newest_iff_failback : LoadsNewest messagePack crc32 (failbackDir []) [testSnap []] {} :=
  (load_newest_iff (failbackDir_holds []) {}).mpr fun s hs => by
    rw [List.mem_singleton.mp hs.1]
    exact ⟨rfl, by decide +kernel⟩

/-- The three voters of the test are not loaded. -/
theorem failback_drops_voters : HoldsSaved messagePack crc32 (failbackDir [1, 2, 3]) [testSnap [1, 2, 3]] ∧
    ¬ LoadsNewest messagePack crc32 (failbackDir [1, 2, 3]) [testSnap [1, 2, 3]] {} := by
  refine ⟨failbackDir_holds [1, 2, 3], fun h => ?_⟩
  obtain ⟨t, hload, hequal⟩ := h.newest (testSnap [1, 2, 3]) ⟨by simp, fun t ht => by simp_all⟩
  have hfound : (load messagePack crc32 (failbackDir [1, 2, 3]) {}).2 = some (testSnap []) := by decide +kernel
  obtain rfl := Option.some.inj (hfound.symm.trans hload)
  revert hequal
  decide

end Newest

end RaftEtcd
