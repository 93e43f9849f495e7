import RaftEtcd.Evolve.Basic

/-! The three places of a log as one. A pending snapshot or the dummy entry of the storage is the
base, behind it come the stored entries below the offset and then the unstable ones. A log is
moved between the three while entries come in, are replaced, are stored, reported stable and
compacted; what it says changes with the first two only, and with compaction, which moves the
base. -/
namespace RaftEtcd

/-- A log from one base on. -/
structure LogicalLog where
  index : Nat
  term : Nat
  entries : List Entry

namespace LogicalLog

def firstIndex (g : LogicalLog) : Nat := g.index + 1

def lastIndex (g : LogicalLog) : Nat := g.index + g.entries.length

/-- The entry that carries an index. -/
def entry (g : LogicalLog) (i : Nat) : Option Entry := g.entries.find? (·.index == i)

/-- An index outside the log has term 0. -/
def termOf (g : LogicalLog) (i : Nat) : Nat :=
  if i < g.index then 0
  else if i = g.index then g.term
  else (g.entries[i - g.index - 1]?).elim 0 Entry.term

def matchTerm (g : LogicalLog) (i t : Nat) : Bool := t == g.termOf i

/-- Everything from the index of the first given entry on is replaced. -/
def append (g : LogicalLog) : List Entry → LogicalLog
  | [] => g
  | e :: es => { g with entries := g.entries.take (e.index - 1 - g.index) ++ e :: es }

/-- The entries that the log already holds are skipped. -/
def maybeAppend (g : LogicalLog) (index logTerm : Nat) (es : List Entry) : LogicalLog :=
  if g.matchTerm index logTerm then g.append (es.dropWhile fun e => g.matchTerm e.index e.term) else g

def restore (s : Snapshot) : LogicalLog := { index := s.metadata.index, term := s.metadata.term, entries := [] }

def compact (g : LogicalLog) (i : Nat) : LogicalLog :=
  if i ≤ g.index then g else { index := i, term := g.termOf i, entries := g.entries.drop (i - g.index) }

end LogicalLog

namespace RaftLog

/-- The log that the three places stand for. -/
def logical (l : RaftLog) : LogicalLog :=
  match l.unstable.snapshot with
  | some s =>
      { index := s.metadata.index, term := s.metadata.term, entries := l.log.filter (s.metadata.index < ·.index) }
  | none =>
      { index := l.storage.dummy.index, term := l.storage.dummy.term,
        entries := l.log.filter (l.storage.dummy.index < ·.index) }

/-- Storing what is unstable: the snapshot, then the entries. -/
def persist (l : RaftLog) : Result RaftLog := do
  let st := match l.unstable.snapshot with
    | some s => (l.storage.applySnapshot s).2
    | none => l.storage
  let st ← st.append l.unstable.entries
  .ok { l with storage := st }

/-- The unstable entries up to `i` are stored, and the storage ends with the last of them. -/
structure Persisted (l : RaftLog) (i : Nat) : Prop where
  entries : ∀ k, l.unstable.offset ≤ k → l.storage.dummy.index < k → k ≤ i →
    l.storage.ents[k - l.storage.dummy.index - 1]? = l.unstable.entries[k - l.unstable.offset]?
  ends : i + 1 = l.unstable.offset + l.unstable.entries.length → l.storage.lastIndex ≤ i

/-- The storage behind a log without a pending snapshot. Compaction may have passed the offset, but
not what is applied. -/
structure Joined (l : RaftLog) : Prop where
  offset_le : l.unstable.offset ≤ l.storage.lastIndex + 1
  offset_eq : l.unstable.entries = [] → l.unstable.offset = l.storage.lastIndex + 1
  compacted : l.unstable.offset ≤ l.storage.dummy.index → l.storage.dummy.index ≤ l.applied
  dummy_term : l.unstable.offset ≤ l.storage.dummy.index →
    (l.unstable.entries[l.storage.dummy.index - l.unstable.offset]?).map Entry.term = some l.storage.dummy.term
  applied : l.Persisted l.applied

/-- A pending snapshot that the storage does not know yet. -/
structure Unsaved (l : RaftLog) (s : Snapshot) : Prop where
  stored_lt : l.storage.snapshot.metadata.index < s.metadata.index
  dummy_lt : l.storage.dummy.index < s.metadata.index
  offset : l.unstable.offset = s.metadata.index + 1

/-- And one that it starts with. -/
structure Saved (l : RaftLog) (s : Snapshot) : Prop where
  stored : l.storage.snapshot.metadata.index = s.metadata.index
  dummy : l.storage.dummy.index = s.metadata.index
  dummy_term : l.storage.dummy.term = s.metadata.term
  offset_gt : s.metadata.index < l.unstable.offset
  offset_le : l.unstable.offset ≤ l.storage.lastIndex + 1
  empty : l.unstable.entries = [] → l.unstable.offset = s.metadata.index + 1 ∧ l.storage.ents = []

/-- How the three places fit together. -/
structure Coupled (l : RaftLog) : Prop where
  stored : IndexedFrom (l.storage.dummy.index + 1) l.storage.ents
  indexed : IndexedFrom l.unstable.offset l.unstable.entries
  base_le : l.logical.index ≤ l.committed
  committed_lt : l.committed < l.unstable.offset + l.unstable.entries.length
  applied_le : l.applied ≤ l.committed
  snapshot_le : l.storage.snapshot.metadata.index ≤ l.committed
  joined : l.unstable.snapshot = none → l.Joined
  pending : ∀ s, l.unstable.snapshot = some s → l.applied < s.metadata.index ∧ (l.Unsaved s ∨ l.Saved s)

variable {l l' : RaftLog} {s : Snapshot}

theorem logical_none (h : l.unstable.snapshot = none) :
    l.logical = { index := l.storage.dummy.index, term := l.storage.dummy.term,
                  entries := l.log.filter (l.storage.dummy.index < ·.index) } := by
  rw [logical, h]

theorem logical_some (h : l.unstable.snapshot = some s) :
    l.logical = { index := s.metadata.index, term := s.metadata.term,
                  entries := l.log.filter (s.metadata.index < ·.index) } := by
  rw [logical, h]

theorem logical_entries (l : RaftLog) : l.logical.entries = l.log.filter (l.logical.index < ·.index) := by
  cases hs : l.unstable.snapshot with
  | none => rw [logical_none hs]
  | some s => rw [logical_some hs]

/-- As much of `Coupled` as it takes to find an entry. -/
structure Aligned (l : RaftLog) : Prop where
  stored : IndexedFrom (l.storage.dummy.index + 1) l.storage.ents
  indexed : IndexedFrom l.unstable.offset l.unstable.entries
  dummy_le : l.storage.dummy.index ≤ l.logical.index
  reaches : l.unstable.offset ≤ l.logical.index + 1 ∨ l.unstable.offset ≤ l.storage.lastIndex + 1
  base_lt : l.logical.index < l.unstable.offset + l.unstable.entries.length

theorem Coupled.aligned (h : l.Coupled) : l.Aligned := by
  have hreach : l.storage.dummy.index ≤ l.logical.index ∧
      (l.unstable.offset ≤ l.logical.index + 1 ∨ l.unstable.offset ≤ l.storage.lastIndex + 1) := by
    cases hs : l.unstable.snapshot with
    | none =>
        rw [logical_none hs]
        exact ⟨le_rfl, Or.inr (h.joined hs).offset_le⟩
    | some s =>
        rw [logical_some hs]
        rcases (h.pending s hs).2 with hu | hv
        · exact ⟨hu.dummy_lt.le, Or.inl hu.offset.le⟩
        · exact ⟨hv.dummy.le, Or.inr hv.offset_le⟩
  exact ⟨h.stored, h.indexed, hreach.1, hreach.2, lt_of_le_of_lt h.base_le h.committed_lt⟩

namespace Aligned

theorem entries_get (h : l.Aligned) (k : Nat) :
    l.logical.entries[k]? = l.entryAt (l.logical.index + 1 + k) := by
  have hd := h.dummy_le
  have hoff := h.reaches
  rw [logical_entries, log, List.filter_append, (h.stored.take _).filter_gt, h.indexed.filter_gt, entryAt]
  rw [MemoryStorage.lastIndex] at hoff
  rw [MemoryStorage.firstIndex]
  generalize l.logical.index = b at *
  split
  · rename_i hlt
    rw [List.getElem?_append_left (by rw [List.length_drop, List.length_take]; omega), List.getElem?_drop,
      List.getElem?_take_of_lt (by omega)]
    congr 1
    omega
  · rename_i hge
    rw [List.getElem?_append_right (by rw [List.length_drop, List.length_take]; omega), List.getElem?_drop,
      List.length_drop, List.length_take]
    congr 1
    omega

theorem length_eq (h : l.Aligned) :
    l.logical.index + l.logical.entries.length + 1 = l.unstable.offset + l.unstable.entries.length := by
  have hd := h.dummy_le
  have hoff := h.reaches
  have hb := h.base_lt
  rw [logical_entries, log, List.filter_append, (h.stored.take _).filter_gt, h.indexed.filter_gt]
  rw [MemoryStorage.lastIndex] at hoff
  simp only [List.length_append, List.length_drop, List.length_take, MemoryStorage.firstIndex]
  omega

theorem entries_indexed (h : l.Aligned) : IndexedFrom (l.logical.index + 1) l.logical.entries := by
  have hd := h.dummy_le
  intro k e hk
  rw [h.entries_get, entryAt] at hk
  split at hk
  · have := h.stored _ e hk
    omega
  · have := h.indexed _ e hk
    omega

/-- Two logs with one base that look the same from there on. -/
theorem logical_eq (h : l.Aligned) (h' : l'.Aligned) (hi : l'.logical.index = l.logical.index)
    (ht : l'.logical.term = l.logical.term) (he : ∀ i, l.logical.index < i → l'.entryAt i = l.entryAt i) :
    l'.logical = l.logical := by
  have hentries : l'.logical.entries = l.logical.entries := by
    apply List.ext_getElem?
    intro k
    rw [h'.entries_get, h.entries_get, hi]
    exact he _ (by omega)
  cases hl : l.logical
  cases hl' : l'.logical
  simp only [hl, hl'] at hi ht hentries
  rw [hi, ht, hentries]

end Aligned

/-! ### What the code reads -/

theorem firstIndex_eq (l : RaftLog) : l.firstIndex = l.logical.firstIndex := by
  rw [firstIndex, Unstable.maybeFirstIndex, LogicalLog.firstIndex]
  cases hs : l.unstable.snapshot with
  | none =>
      rw [logical_none hs]
      rfl
  | some s =>
      rw [logical_some hs]
      rfl

/-- Above the offset the unstable entries answer, whatever the last index is taken to be. -/
theorem maybeTerm_unstable (u : Unstable) {i : Nat} (hi : u.offset ≤ i) :
    u.maybeTerm i = (u.entries[i - u.offset]?).map Entry.term := by
  rw [Unstable.maybeTerm, if_neg (by omega), Unstable.maybeLastIndex]
  by_cases he : u.entries = []
  · rw [if_neg (by simpa using he), he]
    cases hs : u.snapshot with
    | none => rfl
    | some s =>
        simp only [Option.map_some, List.getElem?_nil, Option.map_none, ite_self]
  · rw [if_pos he]
    simp only
    split
    · rw [List.getElem?_eq_none (by omega)]
      rfl
    · rfl

namespace Coupled

theorem lastIndex_eq (h : l.Coupled) : l.lastIndex = l.logical.lastIndex := by
  have hlen := h.aligned.length_eq
  rw [lastIndex, Unstable.maybeLastIndex, LogicalLog.lastIndex]
  by_cases he : l.unstable.entries = []
  · rw [if_neg (by simpa using he)]
    rw [he, List.length_nil] at hlen
    cases hs : l.unstable.snapshot with
    | none =>
        have := (h.joined hs).offset_eq he
        simp only [Option.map_none]
        omega
    | some s =>
        have hoff : l.unstable.offset = s.metadata.index + 1 := by
          rcases (h.pending s hs).2 with hu | hv
          · exact hu.offset
          · exact (hv.empty he).1
        simp only [Option.map_some]
        omega
  · rw [if_pos he]
    simp only
    omega

/-- The base of a log has the term that the code finds for it. -/
theorem base_term (h : l.Coupled) : l.unstable.maybeTerm l.logical.index = some l.logical.term ∨
    l.unstable.maybeTerm l.logical.index = none ∧ l.storage.term l.logical.index = .ok l.logical.term := by
  cases hs : l.unstable.snapshot with
  | none =>
      rw [logical_none hs]
      simp only
      by_cases hoff : l.unstable.offset ≤ l.storage.dummy.index
      · rw [maybeTerm_unstable _ hoff]
        exact Or.inl ((h.joined hs).dummy_term hoff)
      · refine Or.inr ⟨?_, ?_⟩
        · rw [Unstable.maybeTerm, if_pos (by omega), hs]
        · rw [MemoryStorage.term, if_neg (by omega), Nat.sub_self]
          rfl
  | some s =>
      rw [logical_some hs]
      have hoff : s.metadata.index < l.unstable.offset := by
        rcases (h.pending s hs).2 with hu | hv
        · have := hu.offset
          omega
        · exact hv.offset_gt
      refine Or.inl ?_
      rw [Unstable.maybeTerm, if_pos hoff, hs]
      exact if_pos rfl

theorem term_eq (h : l.Coupled) (i : Nat) : l.term i = .ok (l.logical.termOf i) := by
  have hlen := h.aligned.length_eq
  have hd := h.aligned.dummy_le
  have hreach := h.aligned.reaches
  rw [term, firstIndex_eq, h.lastIndex_eq, LogicalLog.firstIndex, LogicalLog.lastIndex, LogicalLog.termOf]
  by_cases hlow : i < l.logical.index
  · rw [if_pos (by omega), if_pos hlow]
  rw [if_neg hlow]
  by_cases hbase : i = l.logical.index
  · subst hbase
    rw [if_neg (by omega), if_pos rfl]
    rcases h.base_term with hu | ⟨hu, hst⟩
    · rw [hu]
    · rw [hu]
      exact hst
  rw [if_neg hbase, h.aligned.entries_get, show l.logical.index + 1 + (i - l.logical.index - 1) = i by omega, entryAt]
  by_cases hlast : i > l.logical.index + l.logical.entries.length
  · rw [if_pos (Or.inr hlast), if_neg (by omega), List.getElem?_eq_none (by omega)]
    rfl
  rw [if_neg (by omega)]
  by_cases hoff : i < l.unstable.offset
  · have hnone : l.unstable.maybeTerm i = none := by
      rw [Unstable.maybeTerm, if_pos hoff]
      cases hs : l.unstable.snapshot with
      | none => rfl
      | some s =>
          have hne : s.metadata.index ≠ i := by
            rw [logical_some hs] at hbase
            exact fun heq => hbase heq.symm
          exact if_neg hne
    have hk : i - l.storage.dummy.index - 1 < l.storage.ents.length := by
      rw [MemoryStorage.lastIndex] at hreach
      omega
    rw [hnone, if_pos hoff, MemoryStorage.term, if_neg (by omega), MemoryStorage.all]
    obtain ⟨k, hk'⟩ : ∃ k, i - l.storage.dummy.index = k + 1 := ⟨i - l.storage.dummy.index - 1, by omega⟩
    rw [hk', List.getElem?_cons_succ, Nat.add_sub_cancel, List.getElem?_eq_getElem (by omega)]
    rfl
  · rw [maybeTerm_unstable _ (by omega), if_neg hoff, List.getElem?_eq_getElem (by omega)]
    rfl

theorem matchTerm_eq (h : l.Coupled) (i t : Nat) : l.matchTerm i t = l.logical.matchTerm i t := by
  rw [matchTerm, h.term_eq]
  rfl

end Coupled

/-! ### Entries that come in -/

theorem Persisted.splice {u : Unstable} {i k : Nat} {es : List Entry} (h : l.Persisted k)
    (hs : Spliced l.unstable u i es) (hk : k < i) : ({ l with unstable := u } : RaftLog).Persisted k where
  entries j hj hd hle := by
    have hoff := (hs.offset_of_lt (by omega : j < i)).mp hj
    simp only
    rw [hs.below j hj (by omega)]
    exact h.entries j hoff hd hle
  ends hend := by
    have := hs.ends
    have := List.length_pos_of_ne_nil hs.given
    simp only at hend
    omega

theorem Joined.splice {u : Unstable} {i : Nat} {es : List Entry} (h : l.Joined) (hs : Spliced l.unstable u i es)
    (ha : l.applied < i) (hd : l.storage.dummy.index < i) : ({ l with unstable := u } : RaftLog).Joined where
  offset_le := by
    have := h.offset_le
    have := hs.offset
    simp only
    omega
  offset_eq he := absurd he hs.nonempty
  compacted hoff := h.compacted ((hs.offset_of_lt hd).mp hoff)
  dummy_term hoff := by
    simp only
    rw [hs.below _ hoff hd]
    exact h.dummy_term ((hs.offset_of_lt hd).mp hoff)
  applied := h.applied.splice hs ha

theorem Pending.splice {u : Unstable} {i : Nat} {es : List Entry} (h : l.Unsaved s ∨ l.Saved s)
    (hs : Spliced l.unstable u i es) (hi : s.metadata.index < i) :
    ({ l with unstable := u } : RaftLog).Unsaved s ∨ ({ l with unstable := u } : RaftLog).Saved s := by
  have hoff := hs.offset
  rcases h with h | h
  · have := h.offset
    exact Or.inl ⟨h.stored_lt, h.dummy_lt, by simp only; omega⟩
  · have h1 := h.offset_gt
    have h2 := h.offset_le
    exact Or.inr ⟨h.stored, h.dummy, h.dummy_term, by simp only; omega, by simp only; omega,
      fun he => absurd he hs.nonempty⟩

namespace Coupled

theorem append (h : l.Coupled) {i : Nat} {es : List Entry} (hi : 1 ≤ i) (hidx : IndexedFrom i es)
    (ha : l.append es = .ok l') : l'.Coupled ∧ l'.logical = l.logical.append es := by
  cases es with
  | nil =>
      obtain rfl := Except.ok.inj ha
      exact ⟨h, rfl⟩
  | cons e es =>
      have he : e.index = i := hidx.cons.1
      simp only [RaftLog.append, he] at ha
      split at ha
      · cases ha
      rename_i hcom
      obtain ⟨u, hu, ha⟩ := bind_ok ha
      obtain rfl := Except.ok.inj ha
      have hsp := truncateAndAppend_spliced he hu
      have hindex : IndexedFrom u.offset u.entries := (truncateAndAppend_spec hu).2 ⟨i, hidx⟩ h.indexed
      have hbase := h.base_le
      have happ := h.applied_le
      have hbi : ({ l with unstable := u } : RaftLog).logical.index = l.logical.index := by
        rw [logical, logical, hsp.snapshot]
        cases l.unstable.snapshot <;> rfl
      have hbt : ({ l with unstable := u } : RaftLog).logical.term = l.logical.term := by
        rw [logical, logical, hsp.snapshot]
        cases l.unstable.snapshot <;> rfl
      have hc : ({ l with unstable := u } : RaftLog).Coupled :=
        { stored := h.stored
          indexed := hindex
          base_le := by rw [hbi]; exact hbase
          committed_lt := by
            have := hsp.ends
            simp only [List.length_cons] at this ⊢
            omega
          applied_le := happ
          snapshot_le := h.snapshot_le
          joined := fun hn => by
            have hn' : l.unstable.snapshot = none := hsp.snapshot ▸ hn
            have hd := h.aligned.dummy_le
            exact (h.joined hn').splice hsp (by omega) (by omega)
          pending := fun s hs => by
            have hs' : l.unstable.snapshot = some s := hsp.snapshot ▸ hs
            obtain ⟨hlt, hp⟩ := h.pending s hs'
            rw [logical_some hs'] at hbase
            simp only at hbase
            exact ⟨hlt, Pending.splice hp hsp (by omega)⟩ }
      refine ⟨hc, ?_⟩
      have hentries : ({ l with unstable := u } : RaftLog).logical.entries =
          l.logical.entries.take (i - 1 - l.logical.index) ++ e :: es := by
        have hstart := hsp.start_le
        have hlen := h.aligned.length_eq
        apply List.ext_getElem?
        intro k
        rw [hc.aligned.entries_get, hbi]
        by_cases hk : l.logical.index + 1 + k < i
        · rw [List.getElem?_append_left (by rw [List.length_take]; omega), List.getElem?_take_of_lt (by omega),
            h.aligned.entries_get]
          exact hsp.entryAt hk
        · have hoff := hsp.offset
          rw [entryAt, if_neg (by simp only; omega), List.getElem?_append_right (by rw [List.length_take]; omega),
            List.length_take]
          simp only
          rw [hsp.above _ (by omega)]
          congr 1
          omega
      rw [LogicalLog.append, he]
      cases hl : ({ l with unstable := u } : RaftLog).logical
      rw [hl] at hbi hbt hentries
      simp only at hbi hbt hentries
      rw [hbi, hbt, hentries]

end Coupled

theorem Joined.moved {c a : Nat} (h : l.Joined) (ha : l.applied ≤ a) (hp : l.Persisted a) :
    ({ l with committed := c, applied := a } : RaftLog).Joined :=
  ⟨h.offset_le, h.offset_eq, fun hoff => (h.compacted hoff).trans ha, h.dummy_term, hp.entries, hp.ends⟩

theorem Unsaved.moved {c a : Nat} (h : l.Unsaved s) :
    ({ l with committed := c, applied := a } : RaftLog).Unsaved s :=
  ⟨h.stored_lt, h.dummy_lt, h.offset⟩

theorem Saved.moved {c a : Nat} (h : l.Saved s) : ({ l with committed := c, applied := a } : RaftLog).Saved s :=
  ⟨h.stored, h.dummy, h.dummy_term, h.offset_gt, h.offset_le, h.empty⟩

namespace Coupled

/-- The commit and the applied index move forward; what is applied is stored, or covered by the
pending snapshot. -/
theorem moved {c a : Nat} (h : l.Coupled) (hc : l.committed ≤ c)
    (hlt : c < l.unstable.offset + l.unstable.entries.length) (ha : l.applied ≤ a) (hac : a ≤ c)
    (hp : l.unstable.snapshot = none → l.Persisted a)
    (hs : ∀ s, l.unstable.snapshot = some s → a < s.metadata.index) :
    ({ l with committed := c, applied := a } : RaftLog).Coupled where
  stored := h.stored
  indexed := h.indexed
  base_le := h.base_le.trans hc
  committed_lt := hlt
  applied_le := hac
  snapshot_le := h.snapshot_le.trans hc
  joined hn := (h.joined hn).moved ha (hp hn)
  pending s hsome := by
    refine ⟨hs s hsome, ?_⟩
    rcases (h.pending s hsome).2 with hu | hv
    · exact Or.inl hu.moved
    · exact Or.inr hv.moved

theorem commitTo (h : l.Coupled) {c : Nat} (hc : l.commitTo c = .ok l') :
    l'.Coupled ∧ l'.logical = l.logical := by
  rw [RaftLog.commitTo] at hc
  split at hc
  · rename_i hlt
    split at hc
    · cases hc
    · rename_i hlast
      obtain rfl := Except.ok.inj hc
      have hlen := h.aligned.length_eq
      rw [h.lastIndex_eq, LogicalLog.lastIndex] at hlast
      exact ⟨h.moved hlt.le (by omega) le_rfl (h.applied_le.trans hlt.le) (fun hn => (h.joined hn).applied)
        (fun s hs => (h.pending s hs).1), rfl⟩
  · obtain rfl := Except.ok.inj hc
    exact ⟨h, rfl⟩

/-- The scan for a conflict finds the first entry that the log does not hold. -/
theorem findConflict (h : l.Coupled) {prev : Nat} {es : List Entry} (hidx : IndexedFrom (prev + 1) es) :
    l.findConflict es = 0 ∧ es.dropWhile (fun e => l.logical.matchTerm e.index e.term) = [] ∨
      prev < l.findConflict es ∧
        es.dropWhile (fun e => l.logical.matchTerm e.index e.term) = es.drop (l.findConflict es - (prev + 1)) := by
  induction es generalizing prev with
  | nil => exact Or.inl ⟨rfl, rfl⟩
  | cons e es ih =>
      obtain ⟨he, hes⟩ := hidx.cons
      rw [RaftLog.findConflict, h.matchTerm_eq, List.dropWhile_cons]
      cases hm : l.logical.matchTerm e.index e.term with
      | false =>
          simp only [Bool.not_false, if_true, Bool.false_eq_true, if_false, he, Nat.sub_self, List.drop_zero]
          exact Or.inr ⟨by omega, trivial⟩
      | true =>
          simp only [Bool.not_true, Bool.false_eq_true, if_false, if_true]
          rcases ih hes with hnone | ⟨hlt, hdrop⟩
          · exact Or.inl hnone
          · refine Or.inr ⟨by omega, ?_⟩
            rw [hdrop, show l.findConflict es - (prev + 1) = l.findConflict es - (prev + 1 + 1) + 1 by omega,
              List.drop_succ_cons]

theorem maybeAppend (h : l.Coupled) {index logTerm committed : Nat} {es : List Entry} {ok : Option Nat}
    (hidx : IndexedFrom (index + 1) es) (ha : l.maybeAppend index logTerm committed es = .ok (l', ok)) :
    l'.Coupled ∧ l'.logical = l.logical.maybeAppend index logTerm es := by
  unfold RaftLog.maybeAppend at ha
  rw [LogicalLog.maybeAppend, ← h.matchTerm_eq]
  split at ha
  · rename_i hm
    rw [if_pos hm]
    -- the end of each branch: the commit index follows
    have hend : ∀ {l₁ : RaftLog} {c : Nat}, l₁.Coupled →
        (do let l₂ ← l₁.commitTo c; Except.ok (l₂, some (index + es.length)) : Result _) = .ok (l', ok) →
        l'.Coupled ∧ l'.logical = l₁.logical := by
      intro l₁ c hc₁ h
      obtain ⟨l₂, h₂, h⟩ := bind_ok h
      rw [← (Prod.mk.inj (Except.ok.inj h)).1]
      exact hc₁.commitTo h₂
    have hconf := h.findConflict hidx
    simp only at ha
    split at ha
    · rename_i hzero
      have hnone : es.dropWhile (fun e => l.logical.matchTerm e.index e.term) = [] := by
        rcases hconf with hn | hn
        · exact hn.2
        · omega
      rw [hnone]
      exact hend h ha
    split at ha
    · cases ha
    · rename_i hne _
      have hdrop : es.dropWhile (fun e => l.logical.matchTerm e.index e.term) =
          es.drop (l.findConflict es - (index + 1)) := by
        rcases hconf with hn | hn
        · exact absurd hn.1 hne
        · exact hn.2
      obtain ⟨l₁, h₁, ha⟩ := bind_ok ha
      obtain ⟨hc₁, hl₁⟩ := h.append (by omega) (hidx.drop _) h₁
      rw [hdrop, ← hl₁]
      exact hend hc₁ ha
  · rename_i hm
    rw [if_neg hm, ← (Prod.mk.inj (Except.ok.inj ha)).1]
    exact ⟨h, rfl⟩

theorem restore (h : l.Coupled) (hlt : l.committed < s.metadata.index) :
    (l.restore s).Coupled ∧ (l.restore s).logical = LogicalLog.restore s := by
  have hd := h.aligned.dummy_le
  have hb := h.base_le
  have ha := h.applied_le
  have hs := h.snapshot_le
  have hentries : (l.restore s).log.filter (s.metadata.index < ·.index) = [] := by
    rw [RaftLog.restore, Unstable.restore, log, List.append_nil, (h.stored.take _).filter_gt,
      List.drop_eq_nil_of_le]
    simp only [List.length_take, MemoryStorage.firstIndex]
    omega
  refine ⟨⟨h.stored, .nil _, le_rfl, Nat.lt_succ_self _, (by omega : l.applied ≤ s.metadata.index),
    (by omega : l.storage.snapshot.metadata.index ≤ s.metadata.index), fun h => (by cases h), fun s' hs' => ?_⟩, ?_⟩
  · obtain rfl := Option.some.inj hs'
    exact ⟨(by omega : l.applied < s.metadata.index), Or.inl ⟨(by omega : l.storage.snapshot.metadata.index < _),
      (by omega : l.storage.dummy.index < _), rfl⟩⟩
  · rw [logical_some rfl, hentries]
    rfl

end Coupled

end RaftLog

end RaftEtcd
