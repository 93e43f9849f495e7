import RaftEtcd.Slicing

/-! `MemoryStorage` as a log from one index on: what its calls do to the vector, with the indexes counted from a
first element that is no entry, is what they are meant to do to the log. -/
namespace RaftEtcd

/-- The calls that change what is stored. -/
inductive StorageOp where
  | append (entries : List Entry)
  | compact (index : Nat)
  | applySnapshot (snapshot : Snapshot)

/-- What the storage stands for: the index of its snapshot and a log. -/
structure StoredLog where
  snapshot : Nat := 0
  log : LogicalLog := { index := 0, term := 0, entries := [] }

namespace StorageOp

def run (st : MemoryStorage) : StorageOp → Result (Status × MemoryStorage)
  | append entries => do
      let st ← st.append entries
      .ok (.ok, st)
  | compact index => st.compact index
  | applySnapshot snapshot => .ok (st.applySnapshot snapshot)

/-- Entries below the compacted part are skipped; the others replace the log from the first of them on. A
compaction forgets everything up to its index but the term of it, and a newer snapshot everything. -/
def act (g : StoredLog) : StorageOp → StoredLog
  | append entries => { g with log := g.log.append (entries.filter (g.log.index < ·.index)) }
  | compact index => { g with log := g.log.compact index }
  | applySnapshot s => if s.metadata.index ≤ g.snapshot then g else { snapshot := s.metadata.index, log := .restore s }

/-- Entries come without a gap, and nothing is compacted that is not there. -/
def Allowed (g : StoredLog) : StorageOp → Prop
  | append entries => ∃ i, IndexedFrom i entries ∧ i ≤ g.log.lastIndex + 1
  | compact index => index ≤ g.log.lastIndex
  | applySnapshot _ => True

/-- A sequence of such calls. -/
def AllAllowed (g : StoredLog) : List StorageOp → Prop
  | [] => True
  | op :: ops => op.Allowed g ∧ AllAllowed (op.act g) ops

end StorageOp

namespace MemoryStorage
variable {st st' : MemoryStorage} {g : StoredLog}

/-- The log that the vector stands for. -/
def suffix (st : MemoryStorage) : LogicalLog :=
  { index := st.dummy.index, term := st.dummy.term, entries := st.ents }

/-- The storage stands for the log, and its elements have consecutive indexes. -/
structure Represents (st : MemoryStorage) (g : StoredLog) : Prop where
  snapshot : st.snapshot.metadata.index = g.snapshot
  log : st.suffix = g.log
  indexed : IndexedFrom (st.dummy.index + 1) st.ents

/-- What can be observed of a log. -/
structure Shows (st : MemoryStorage) (g : LogicalLog) : Prop where
  firstIndex : st.firstIndex = g.firstIndex
  lastIndex : st.lastIndex = g.lastIndex
  term : ∀ i, g.index ≤ i → i ≤ g.lastIndex → st.term i = .ok (g.termOf i)
  outside : ∀ i, i < g.index ∨ g.lastIndex < i → ∃ status, st.term i = .error status
  entries : ∀ low high maxSize, g.firstIndex ≤ low → low < high → high ≤ g.lastIndex + 1 →
    ∃ es, st.entries low high maxSize [] = .ok (.ok, es) ∧ Limit.Longest Entry.serializeSize maxSize (g.slice low high) es

namespace Represents

theorem all_indexed (h : st.Represents g) : IndexedFrom st.dummy.index st.all := by
  intro k e hk
  cases k with
  | zero =>
      obtain rfl := Option.some.inj hk
      rfl
  | succ k =>
      have := h.indexed k e hk
      omega

theorem shows (h : st.Represents g) : st.Shows g.log where
  firstIndex := by
    rw [← h.log]
    rfl
  lastIndex := by
    rw [← h.log]
    rfl
  term i hlow hhigh := by
    rw [← h.log] at hlow hhigh ⊢
    change st.dummy.index ≤ i at hlow
    change i ≤ st.dummy.index + st.ents.length at hhigh
    rw [MemoryStorage.term, if_neg (by omega), LogicalLog.termOf, if_neg (show ¬ i < st.suffix.index from Nat.not_lt.mpr hlow)]
    by_cases hbase : i = st.dummy.index
    · rw [if_pos (show i = st.suffix.index from hbase), hbase, Nat.sub_self]
      rfl
    · obtain ⟨k, rfl⟩ : ∃ k, i = st.dummy.index + 1 + k := ⟨i - st.dummy.index - 1, by omega⟩
      have hk : k < st.ents.length := by omega
      rw [if_neg (show ¬ _ = st.suffix.index from hbase), show st.dummy.index + 1 + k - st.dummy.index = k + 1 by omega,
        all, List.getElem?_cons_succ, List.getElem?_eq_getElem hk]
      change _ = Except.ok ((st.ents[st.dummy.index + 1 + k - st.dummy.index - 1]?).elim 0 Entry.term)
      rw [show st.dummy.index + 1 + k - st.dummy.index - 1 = k by omega, List.getElem?_eq_getElem hk]
      rfl
  outside i hi := by
    rw [← h.log] at hi
    change i < st.dummy.index ∨ st.dummy.index + st.ents.length < i at hi
    unfold MemoryStorage.term
    split
    · exact ⟨_, rfl⟩
    · rw [List.getElem?_eq_none (by rw [all, List.length_cons]; omega)]
      exact ⟨_, rfl⟩
  entries low high maxSize hlow hlt hhigh := by
    rw [← h.log] at hlow hhigh ⊢
    change st.dummy.index + 1 ≤ low at hlow
    change high ≤ st.dummy.index + st.ents.length + 1 at hhigh
    have hents : st.ents ≠ [] := by
      intro hnil
      rw [hnil, List.length_nil] at hhigh
      omega
    have hslice : (st.all.drop (low - st.dummy.index)).take (high - st.dummy.index - (low - st.dummy.index)) =
        st.suffix.slice low high := by
      obtain ⟨k, rfl⟩ : ∃ k, low = st.dummy.index + 1 + k := ⟨low - st.dummy.index - 1, by omega⟩
      unfold LogicalLog.slice LogicalLog.firstIndex suffix
      simp only
      rw [show st.dummy.index + 1 + k - st.dummy.index = k + 1 by omega, all, List.drop_succ_cons,
        show st.dummy.index + 1 + k - (st.dummy.index + 1) = k by omega]
      congr 1
      omega
    refine ⟨_, ?_, entryLimitSize_longest _ _⟩
    unfold MemoryStorage.entries
    rw [if_neg (by omega), if_neg (by omega), if_neg (by rw [MemoryStorage.lastIndex]; omega), if_neg hents]
    simp only [List.nil_append, hslice]

/-- A call that refuses changes nothing. -/
theorem refused {op : StorageOp} {status : Status} (hrun : op.run st = .ok (status, st')) (hno : status.isOk = false) :
    st' = st := by
  cases op with
  | append entries =>
      obtain ⟨st₁, -, hrun⟩ := bind_ok hrun
      obtain ⟨rfl, -⟩ := Prod.mk.inj (Except.ok.inj hrun)
      cases hno
  | compact index =>
      change st.compact index = _ at hrun
      unfold compact at hrun
      split at hrun
      · exact (Prod.mk.inj (Except.ok.inj hrun)).2.symm
      split at hrun
      · cases hrun
      simp only at hrun
      split at hrun
      · cases hrun
      · obtain ⟨rfl, -⟩ := Prod.mk.inj (Except.ok.inj hrun)
        cases hno
  | applySnapshot snapshot =>
      have hrun := Except.ok.inj hrun
      unfold MemoryStorage.applySnapshot at hrun
      split at hrun
      · exact (Prod.mk.inj hrun).2.symm
      · obtain ⟨rfl, -⟩ := Prod.mk.inj hrun
        cases hno

theorem append (h : st.Represents g) {i : Nat} {es : List Entry} (hes : IndexedFrom i es) (hi : i ≤ g.log.lastIndex + 1) :
    ∃ st', st.append es = .ok st' ∧ st'.Represents (StorageOp.act g (.append es)) := by
  have hlog : st.suffix.append (es.filter (st.dummy.index < ·.index)) =
      g.log.append (es.filter (g.log.index < ·.index)) := by
    rw [← h.log]
    rfl
  rw [← h.log] at hi
  change i ≤ st.dummy.index + st.ents.length + 1 at hi
  -- nothing changes when no entry lies above the compacted part
  have hstay : es.drop (st.dummy.index + 1 - i) = [] → st.Represents (StorageOp.act g (.append es)) := by
    intro hnil
    refine ⟨h.snapshot, ?_, h.indexed⟩
    change st.suffix = g.log.append (es.filter (g.log.index < ·.index))
    rw [← hlog, hes.filter_gt, hnil]
    rfl
  cases es with
  | nil => exact ⟨st, rfl, hstay (List.drop_nil)⟩
  | cons e es =>
      have he : e.index = i := hes.cons.1
      unfold MemoryStorage.append
      simp only [he, MemoryStorage.firstIndex]
      split
      · rename_i hlow
        exact ⟨st, rfl, hstay (List.drop_eq_nil_of_le (by omega))⟩
      rename_i hlow
      have hrest := hes.drop (st.dummy.index + 1 - i)
      cases hdrop : (e :: es).drop (st.dummy.index + 1 - i) with
      | nil =>
          have hlen := congrArg List.length hdrop
          simp only [List.length_drop, List.length_nil, List.length_cons] at hlen hlow
          omega
      | cons e' es' =>
          rw [hdrop] at hrest
          have he' : e'.index = i + (st.dummy.index + 1 - i) := hrest.cons.1
          simp only
          rw [if_pos (by omega)]
          refine ⟨_, rfl, h.snapshot, ?_, ?_⟩
          · change ({ st with ents := _ } : MemoryStorage).suffix = g.log.append ((e :: es).filter (g.log.index < ·.index))
            rw [← hlog, hes.filter_gt, hdrop]
            unfold suffix LogicalLog.append
            simp only
            rw [show e'.index - 1 - st.dummy.index = e'.index - st.dummy.index - 1 by omega]
          · refine (h.indexed.take _).append ?_
            rw [List.length_take, show st.dummy.index + 1 + min (e'.index - st.dummy.index - 1) st.ents.length = e'.index by omega,
              he']
            exact hrest

theorem compact (h : st.Represents g) {i : Nat} (hi : i ≤ g.log.lastIndex) :
    ∃ status st', st.compact i = .ok (status, st') ∧ st'.Represents (StorageOp.act g (.compact i)) := by
  have hshows := h.shows
  have hok : ∃ status st', st.compact i = .ok (status, st') := by
    unfold MemoryStorage.compact
    split
    · exact ⟨_, _, rfl⟩
    rename_i hlow
    rw [if_neg (by rw [hshows.lastIndex]; omega)]
    have hlast := hshows.lastIndex
    rw [MemoryStorage.lastIndex] at hlast
    simp only
    rw [List.getElem?_eq_getElem (by rw [all, List.length_cons]; omega)]
    exact ⟨_, _, rfl⟩
  obtain ⟨status, st', hst⟩ := hok
  refine ⟨status, st', hst, ?_⟩
  change st'.Represents { g with log := g.log.compact i }
  rcases RaftLog.compact_cases h.indexed hst with ⟨hle, rfl⟩ | ⟨e, hlt, he, rfl⟩
  · refine ⟨h.snapshot, ?_, h.indexed⟩
    change st'.suffix = g.log.compact i
    rw [← h.log, LogicalLog.compact, if_pos (show i ≤ st'.suffix.index from hle)]
  · refine ⟨h.snapshot, ?_, ?_⟩
    · have hterm : st.suffix.termOf i = e.term := by
        rw [LogicalLog.termOf, if_neg (show ¬ i < st.suffix.index from Nat.not_lt.mpr hlt.le),
          if_neg (show ¬ i = st.suffix.index from Nat.ne_of_gt hlt)]
        change (st.ents[i - st.dummy.index - 1]?).elim 0 Entry.term = e.term
        rw [he]
        rfl
      change _ = g.log.compact i
      rw [← h.log, LogicalLog.compact, if_neg (show ¬ i ≤ st.suffix.index from Nat.not_le.mpr hlt), hterm]
      rfl
    · have hdrop := h.indexed.drop (i - st.dummy.index)
      rwa [show st.dummy.index + 1 + (i - st.dummy.index) = i + 1 by omega] at hdrop

theorem applySnapshot (h : st.Represents g) (s : Snapshot) :
    (st.applySnapshot s).2.Represents (StorageOp.act g (.applySnapshot s)) := by
  have hsnap := h.snapshot
  unfold MemoryStorage.applySnapshot StorageOp.act
  simp only
  by_cases hold : s.metadata.index ≤ g.snapshot
  · rw [if_pos (by omega), if_pos hold]
    exact h
  · rw [if_neg (by omega), if_neg hold]
    exact ⟨rfl, rfl, .nil _⟩

/-- Each call does to the log what it is meant to do. -/
theorem step (h : st.Represents g) {op : StorageOp} (hop : op.Allowed g) :
    ∃ status st', op.run st = .ok (status, st') ∧ st'.Represents (op.act g) ∧ (status.isOk = false → st' = st) := by
  have hrun : ∃ status st', op.run st = .ok (status, st') ∧ st'.Represents (op.act g) := by
    cases op with
    | append entries =>
        obtain ⟨i, hes, hi⟩ := hop
        obtain ⟨st', happend, hst'⟩ := h.append hes hi
        refine ⟨.ok, st', ?_, hst'⟩
        rw [StorageOp.run, happend]
        rfl
    | compact index => exact h.compact hop
    | applySnapshot snapshot => exact ⟨_, _, rfl, h.applySnapshot snapshot⟩
  obtain ⟨status, st', hop, hst'⟩ := hrun
  exact ⟨status, st', hop, hst', refused hop⟩

end Represents

end MemoryStorage

/-- The calls one after the other, whatever their statuses. -/
def StorageOp.runAll (st : MemoryStorage) (ops : List StorageOp) : Result MemoryStorage :=
  ops.foldlM (fun st op => Prod.snd <$> op.run st) st

theorem MemoryStorage.Represents.runAll {st : MemoryStorage} {g : StoredLog} (h : st.Represents g) {ops : List StorageOp}
    (hops : StorageOp.AllAllowed g ops) :
    ∃ st', StorageOp.runAll st ops = .ok st' ∧ st'.Represents (ops.foldl StorageOp.act g) := by
  induction ops generalizing st g with
  | nil => exact ⟨st, rfl, h⟩
  | cons op ops ih =>
      obtain ⟨hop, hops⟩ := hops
      obtain ⟨status, st₁, hrun, hst₁, -⟩ := h.step hop
      obtain ⟨st', hrest, hst'⟩ := ih hst₁ hops
      refine ⟨st', ?_, hst'⟩
      rw [StorageOp.runAll, List.foldlM_cons, hrun]
      exact hrest

namespace StorageOp
variable {st st' : MemoryStorage} {g : StoredLog}

/-- The entries come without a gap. -/
def Numbered : StorageOp → Prop
  | append entries => ∃ i, IndexedFrom i entries
  | _ => True

/-- A call that returns had a place in the log for what it was given. -/
theorem allowed_of_ok (h : st.Represents g) {op : StorageOp} (hnum : op.Numbered) {status : Status}
    (hrun : op.run st = .ok (status, st')) : op.Allowed g := by
  have hlast := h.shows.lastIndex
  cases op with
  | append entries =>
      obtain ⟨i, hes⟩ := hnum
      obtain ⟨st₁, happend, -⟩ := bind_ok hrun
      cases entries with
      | nil => exact ⟨0, .nil _, Nat.zero_le _⟩
      | cons e es =>
          refine ⟨i, hes, ?_⟩
          by_contra hgap
          have he : e.index = i := hes.cons.1
          rw [MemoryStorage.lastIndex] at hlast
          have hwhole : (e :: es).drop (st.firstIndex - e.index) = e :: es := by
            rw [MemoryStorage.firstIndex, show st.dummy.index + 1 - e.index = 0 by omega]
            rfl
          unfold MemoryStorage.append at happend
          simp only at happend
          split at happend
          · rename_i hlow
            rw [MemoryStorage.firstIndex, List.length_cons] at hlow
            omega
          rw [hwhole] at happend
          simp only at happend
          split at happend
          · omega
          · cases happend
  | compact index =>
      change st.compact index = _ at hrun
      change index ≤ g.log.lastIndex
      rw [← hlast]
      unfold MemoryStorage.compact at hrun
      split at hrun
      · rename_i hlow
        rw [MemoryStorage.lastIndex]
        omega
      split at hrun
      · cases hrun
      · rename_i hhigh
        exact Nat.not_lt.mp hhigh
  | applySnapshot snapshot => trivial

end StorageOp

/-- A storage that some calls have made, with the log that these calls make. A call that does not return ends
the process. -/
inductive Reached : MemoryStorage → StoredLog → Prop
  | fresh : Reached {} {}
  | call {st st' : MemoryStorage} {g : StoredLog} {op : StorageOp} {status : Status} :
      Reached st g → op.Numbered → op.run st = .ok (status, st') → Reached st' (op.act g)
  | createSnapshot {st st' : MemoryStorage} {g : StoredLog} {index : Nat} {cs : Option ConfState} {data : Bytes}
      {status : Status} {snap : Snapshot} :
      Reached st g → st.createSnapshot index cs data = .ok (status, snap, st') →
        Reached st' { g with snapshot := max g.snapshot index }

/-- The snapshot is refused and the storage stays as it is, or it is taken with the term of the log there. -/
def TakesSnapshot (st : MemoryStorage) (g : StoredLog) (index : Nat) (cs : Option ConfState) (data : Bytes) : Prop :=
  ∃ status snap st', st.createSnapshot index cs data = .ok (status, snap, st') ∧
    (status.isOk = false ∧ st' = st ∨
      status = .ok ∧ st' = { st with snapshot := snap } ∧ snap.data = data ∧ snap.metadata.index = index ∧
        snap.metadata.term = g.log.termOf index)

section Snapshots
variable {st : MemoryStorage} {g : StoredLog} {index : Nat}

theorem Reached.represents (h : Reached st g) : st.Represents g := by
  induction h with
  | fresh => exact ⟨rfl, rfl, .nil _⟩
  | call _ hnum hrun ih =>
      obtain ⟨status, st', hrun', hst', -⟩ := ih.step (StorageOp.allowed_of_ok ih hnum hrun)
      obtain ⟨-, rfl⟩ := Prod.mk.inj (Except.ok.inj (hrun'.symm.trans hrun))
      exact hst'
  | @createSnapshot st st' g index cs data _ _ _ hcreate ih =>
      have hsnap := ih.snapshot
      rcases st.createSnapshot_cases index cs data with
        ⟨hle, _, -, hold⟩ | ⟨-, -, _, herror⟩ | ⟨hlt, -, -, _, snap, -, hindex, -, -, hnew⟩
      · obtain ⟨-, rfl⟩ := Prod.mk.inj (Prod.mk.inj (Except.ok.inj (hold.symm.trans hcreate))).2
        exact ⟨by simp only; omega, ih.log, ih.indexed⟩
      · cases herror.symm.trans hcreate
      · obtain ⟨-, rfl⟩ := Prod.mk.inj (Prod.mk.inj (Except.ok.inj (hnew.symm.trans hcreate))).2
        exact ⟨by simp only; omega, ih.log, ih.indexed⟩

/-- In every storage that can be reached, and up to the end of its log, a snapshot is refused or taken with the
right term, exactly if its index is one that the guard refuses or not behind the compacted part. -/
theorem create_snapshot_iff (h : Reached st g) (hlast : index ≤ st.lastIndex) :
    (∀ cs data, TakesSnapshot st g index cs data) ↔
      index ≤ st.snapshot.metadata.index ∨ st.dummy.index ≤ index := by
  have hshows := h.represents.shows
  constructor
  · intro htakes
    by_contra hbehind
    obtain ⟨status, snap, st', hcreate, -⟩ := htakes none []
    rcases st.createSnapshot_cases index none [] with ⟨hle, -⟩ | ⟨-, -, _, herror⟩ | ⟨-, hlow, -⟩
    · exact hbehind (Or.inl hle)
    · cases herror.symm.trans hcreate
    · exact hbehind (Or.inr hlow)
  · intro hplace cs data
    rcases st.createSnapshot_cases index cs data with
      ⟨-, status, hno, hold⟩ | ⟨hlt, hout, -⟩ | ⟨-, hlow, -, e, snap, he, hindex, hterm, hdata, hnew⟩
    · exact ⟨status, {}, st, hold, Or.inl ⟨hno, rfl⟩⟩
    · omega
    · refine ⟨.ok, snap, _, hnew, Or.inr ⟨rfl, rfl, hdata, hindex, ?_⟩⟩
      have hlog := h.represents.log
      have hterm' : st.term index = .ok e.term := by
        rw [MemoryStorage.term, if_neg (Nat.not_lt.mpr hlow), he]
      have hshown := hshows.term index (by rw [← hlog]; exact hlow) (by rw [← hshows.lastIndex]; exact hlast)
      rw [hterm, Except.ok.inj (hterm'.symm.trans hshown)]

/-- Three entries of two terms, of which the first two are compacted. -/
def compactedThree : MemoryStorage :=
  { dummy := { term := 1, index := 2 }, ents := [{ term := 2, index := 3 }] }

theorem compactedThree_reached : ∃ g, Reached compactedThree g ∧ g.log.termOf 3 = 2 := by
  have hthree : Reached { ents := [{ term := 1, index := 1 }, { term := 1, index := 2 }, { term := 2, index := 3 }] }
      (StorageOp.act {} (.append [{ term := 1, index := 1 }, { term := 1, index := 2 }, { term := 2, index := 3 }])) :=
    .call .fresh ⟨1, indexedFrom_of_all rfl⟩ rfl
  have hcompacted : Reached compactedThree (StorageOp.act _ (.compact 2)) := .call hthree trivial rfl
  exact ⟨_, hcompacted, rfl⟩

theorem create_snapshot_iff_three : ∃ g, Reached compactedThree g ∧ TakesSnapshot compactedThree g 3 none [] := by
  obtain ⟨g, hreached, -⟩ := compactedThree_reached
  exact ⟨g, hreached, (create_snapshot_iff hreached (by decide)).mpr (Or.inr (by decide)) none []⟩

/-- The first entry is compacted but no snapshot covers it: the guard lets its index pass, and the place in the
vector is computed below zero. -/
theorem create_snapshot_below_log : ∃ g, Reached compactedThree g ∧ 1 ≤ compactedThree.lastIndex ∧
    ¬ TakesSnapshot compactedThree g 1 none [] ∧
      compactedThree.createSnapshot 1 none [] = .error "entries_[index - offset] out of range" := by
  obtain ⟨g, hreached, -⟩ := compactedThree_reached
  refine ⟨g, hreached, by decide, ?_, rfl⟩
  rintro ⟨status, snap, st', hcreate, -⟩
  cases hcreate

end Snapshots

end RaftEtcd
