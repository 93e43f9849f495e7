import RaftEtcd.Reshape

/-! The entries between the applied and the commit index. A node that is to campaign looks through
them for a change of the configuration, and takes the slice that starts right behind the applied index,
wherever the log starts. -/
namespace RaftEtcd

/-! ### The storage -/

namespace MemoryStorage
variable {st st' : MemoryStorage} {bound : Nat}

/-- Upkeep of the storage: it is compacted and snapshots of it are taken, up to a bound. -/
inductive Tidied (bound : Nat) (st : MemoryStorage) : MemoryStorage → Prop
  | refl : Tidied bound st st
  | compact {st₁ st' : MemoryStorage} {i : Nat} {status : Status} :
      Tidied bound st st₁ → i ≤ bound → st₁.compact i = .ok (status, st') → Tidied bound st st'
  | createSnapshot {st₁ st' : MemoryStorage} {i : Nat} {cs : Option ConfState} {data : Bytes} {status : Status}
      {snap : Snapshot} : Tidied bound st st₁ → i ≤ bound → st₁.createSnapshot i cs data = .ok (status, snap, st') →
      Tidied bound st st'

/-- The storage after some upkeep. -/
structure Upkeep (bound : Nat) (st st' : MemoryStorage) : Prop where
  indexed : IndexedFrom (st'.dummy.index + 1) st'.ents
  dummy_ge : st.dummy.index ≤ st'.dummy.index
  dummy_le : st'.dummy.index ≤ max st.dummy.index bound
  lastIndex : st'.lastIndex = st.lastIndex
  snapshot_ge : st.snapshot.metadata.index ≤ st'.snapshot.metadata.index
  snapshot_le : st'.snapshot.metadata.index ≤ max st.snapshot.metadata.index bound

theorem createSnapshot_index {i : Nat} {cs : Option ConfState} {data : Bytes} {status : Status} {snap : Snapshot}
    (h : st.createSnapshot i cs data = .ok (status, snap, st')) :
    st' = st ∨ st.snapshot.metadata.index < i ∧ st'.snapshot.metadata.index = i := by
  rcases st.createSnapshot_cases i cs data with
    ⟨-, _, -, hold⟩ | ⟨-, -, _, herror⟩ | ⟨hlt, -, -, _, snap₁, -, hindex, -, -, hnew⟩
  · exact Or.inl (Prod.mk.inj (Prod.mk.inj (Except.ok.inj (hold.symm.trans h))).2).2.symm
  · cases herror.symm.trans h
  · obtain ⟨-, hst⟩ := Prod.mk.inj (Prod.mk.inj (Except.ok.inj (hnew.symm.trans h))).2
    rw [← hst]
    exact Or.inr ⟨hlt, hindex⟩

theorem Tidied.upkeep (hst : IndexedFrom (st.dummy.index + 1) st.ents) (h : Tidied bound st st') : Upkeep bound st st' := by
  induction h with
  | refl => exact ⟨hst, le_rfl, by omega, rfl, le_rfl, by omega⟩
  | @compact st₁ st' i status _ hi hcompact ih =>
      rcases RaftLog.compact_cases ih.indexed hcompact with ⟨-, rfl⟩ | ⟨e, hlt, he, rfl⟩
      · exact ih
      · have hdrop := ih.indexed.drop (i - st₁.dummy.index)
        rw [show st₁.dummy.index + 1 + (i - st₁.dummy.index) = i + 1 by omega] at hdrop
        obtain ⟨hlen, -⟩ := List.getElem?_eq_some_iff.mp he
        have hge := ih.dummy_ge
        have hle := ih.dummy_le
        have hlast := ih.lastIndex
        refine ⟨hdrop, ?_, ?_, ?_, ih.snapshot_ge, ih.snapshot_le⟩
        · simp only
          omega
        · simp only
          omega
        · rw [← hlast]
          simp only [MemoryStorage.lastIndex, List.length_drop]
          omega
  | @createSnapshot st₁ st' i cs data status snap _ hi hcreate ih =>
      obtain ⟨hdummy, hents⟩ := createSnapshot_keeps hcreate
      have hge := ih.snapshot_ge
      have hle := ih.snapshot_le
      have hindex : st₁.snapshot.metadata.index ≤ st'.snapshot.metadata.index ∧
          st'.snapshot.metadata.index ≤ max st₁.snapshot.metadata.index bound := by
        rcases createSnapshot_index hcreate with rfl | ⟨hlt, hsnap⟩
        · omega
        · omega
      refine ⟨by rw [hdummy, hents]; exact ih.indexed, by rw [hdummy]; exact ih.dummy_ge, by rw [hdummy]; exact ih.dummy_le,
        ?_, by omega, by omega⟩
      rw [← ih.lastIndex, MemoryStorage.lastIndex, MemoryStorage.lastIndex, hdummy, hents]

/-- Appended entries end the storage, unless it starts behind them. -/
theorem append_ends {i : Nat} {es : List Entry} (hes : IndexedFrom i es) (hne : es ≠ [])
    (hend : st.dummy.index + 1 < i + es.length) (h : st.append es = .ok st') :
    st'.lastIndex + 1 = i + es.length := by
  rcases append_cases hes h with ⟨hnil | hlow, -⟩ | ⟨-, hroom, rfl⟩
  · exact absurd hnil hne
  · omega
  · simp only [MemoryStorage.lastIndex, List.length_append, List.length_take, List.length_drop]
    omega

theorem append_snapshot {es : List Entry} (h : st.append es = .ok st') : st'.snapshot = st.snapshot := by
  obtain ⟨ents, rfl⟩ := append_frame h
  rfl

end MemoryStorage

/-- What storing a `Ready` leaves: its snapshot, then its entries. -/
theorem persist_stores {st st' : MemoryStorage} {rd : Ready} {i : Nat} (hes : IndexedFrom i rd.entries)
    (h : persist st rd = .ok st') :
    st'.snapshot = (st.withSnapshot rd.snapshot).snapshot ∧
      (rd.entries = [] → st'.lastIndex = (st.withSnapshot rd.snapshot).lastIndex) ∧
      (rd.entries ≠ [] → (st.withSnapshot rd.snapshot).dummy.index + 1 < i + rd.entries.length →
        st'.lastIndex + 1 = i + rd.entries.length) := by
  obtain ⟨st₁, hsnapshot, hdummy, hents, h⟩ := persist_appends h
  refine ⟨(MemoryStorage.append_snapshot h).trans hsnapshot, fun hnil => ?_, fun hne hend => ?_⟩
  · rw [hnil] at h
    rw [← Except.ok.inj h, MemoryStorage.lastIndex, MemoryStorage.lastIndex, hdummy, hents]
  · rw [← hdummy] at hend
    exact MemoryStorage.append_ends hes hne hend h

/-! ### Runs -/

namespace Driver

/-- No entries of the `Ready` are reported stable behind a snapshot that came in after it. -/
def MayAdvance (s : Driver) (rd : Ready) : Prop :=
  ∀ snap e, s.log.unstable.snapshot = some snap → snap.metadata.index ≠ rd.snapshot.metadata.index →
    rd.entries.getLast? = some e → ¬ s.log.Takes e.index e.term

/-- The operations of a node in any order. Only applied entries are compacted; the entries of a `Ready`
count as applied from the moment in which it is advanced. -/
inductive Move : Driver → Driver → Prop
  | call {s : Driver} {a : NodeAction} {n : RawNode} :
      a.IsCall → s.node.run a = .ok n → Move s { s with node := n }
  | ready {s : Driver} {rd : Ready} {n : RawNode} :
      s.outstanding = none → s.node.ready = .ok (rd, n) →
        Move s { node := n, outstanding := some (rd, false), handed := s.handed ++ [(s.log, rd)] }
  | persist {s : Driver} {rd : Ready} {st : MemoryStorage} :
      s.outstanding = some (rd, false) → persist s.log.storage rd = .ok st →
        Move s { s.setStorage st with outstanding := some (rd, true) }
  | tidy {s : Driver} {st : MemoryStorage} : s.log.storage.Tidied s.log.applied st → Move s (s.setStorage st)
  | advance {s : Driver} {rd : Ready} {st : MemoryStorage} :
      s.outstanding = some (rd, true) → s.MayAdvance rd → s.log.storage.Tidied (max s.log.applied rd.appliedCursor) st →
        Move s { s.setStorage st with node := (s.setStorage st).node.advance rd, outstanding := none }

def Moves : Driver → Driver → Prop := Relation.ReflTransGen Move

end Driver

/-- A snapshot is pending that is ahead of everything delivered. -/
def RaftLog.Newer (l : RaftLog) (d : Nat) : Prop := ∃ s, l.unstable.snapshot = some s ∧ d < s.metadata.index

/-- The unstable part since it was `u`: the same, or longer than everything delivered, or replaced. -/
def RaftLog.Since (l : RaftLog) (u : Unstable) (d : Nat) : Prop :=
  l.unstable = u ∨
    l.unstable.entries ≠ [] ∧ l.unstable.offset ≤ u.offset ∧ d + 1 < l.unstable.offset + l.unstable.entries.length ∧
      l.unstable.snapshot = u.snapshot ∨
    l.Newer d

/-- The `Ready` that is out, made when the unstable part was `u`. -/
structure HandedOut (l : RaftLog) (rd : Ready) (stored : Bool) (u : Unstable) (d : Nat) : Prop where
  entries : rd.entries = u.entries
  snapshot : rd.snapshot = u.snapshot.getD {}
  indexed : IndexedFrom u.offset u.entries
  reach : d < u.offset + u.entries.length
  pending : ∀ snap, u.snapshot = some snap → u.offset = snap.metadata.index + 1 ∧ snap.metadata.index ≤ d ∧
    0 < snap.metadata.index
  since : l.Since u d
  ahead : stored = false → u.entries ≠ [] → max l.applied l.storage.dummy.index + 1 < u.offset + u.entries.length
  unsaved : ∀ snap, l.unstable.snapshot = some snap → stored = false ∨ d < snap.metadata.index →
    l.storage.snapshot.metadata.index < snap.metadata.index
  ends : stored = true → ¬ l.Newer d → u.entries ≠ [] ∨ u.snapshot ≠ none →
    l.storage.lastIndex + 1 = u.offset + u.entries.length

/-- How the storage and the unstable part fit together along a run. -/
structure Anchored (s : Driver) (d : Nat) : Prop where
  delivered : Delivered s d
  tail : s.log.Tail 0
  base : s.log.unstable.snapshot = none → s.log.storage.dummy.index ≤ s.log.applied
  saved : s.log.storage.snapshot.metadata.index ≤ s.log.committed
  fresh : s.outstanding = none → s.log.unstable.entries = [] ∨
    d + 1 < s.log.unstable.offset + s.log.unstable.entries.length ∨ s.log.Newer d
  unsaved : s.outstanding = none → ∀ snap, s.log.unstable.snapshot = some snap →
    s.log.storage.snapshot.metadata.index < snap.metadata.index
  handedOut : ∀ rd stored, s.outstanding = some (rd, stored) → ∃ u, HandedOut s.log rd stored u d

section Steps
variable {s s' : Driver} {d : Nat} {l l' : RaftLog} {u : Unstable}

theorem RaftLog.Newer.grows (h : l.Newer d) (hg : l.Grows True l') (hd : d ≤ l.committed) : l'.Newer d := by
  rcases hg.snapshot with heq | ⟨snap, hsnap, hlt, -⟩
  · obtain ⟨snap, hsnap, hlt⟩ := h
    exact ⟨snap, heq.trans hsnap, hlt⟩
  · exact ⟨snap, hsnap, by omega⟩

theorem RaftLog.Since.reshapes (h : l.Since u d) (hr : l.Reshapes l') (hg : l.Grows True l') (hd : d ≤ l.committed) :
    l'.Since u d := by
  rcases hr with unstable | ⟨nonempty, offset, beyond, snapshot⟩ | ⟨snap, snapshot, ahead⟩
  · rcases h with heq | ⟨h1, h2, h3, h4⟩ | hnewer
    · exact Or.inl (unstable.trans heq)
    · rw [← unstable] at h1 h2 h3 h4
      exact Or.inr (Or.inl ⟨h1, h2, h3, h4⟩)
    · exact Or.inr (Or.inr (hnewer.grows hg hd))
  · rcases h with heq | ⟨-, hoffset, -, hsnap⟩ | hnewer
    · rw [heq] at offset snapshot
      exact Or.inr (Or.inl ⟨nonempty, offset, by omega, snapshot⟩)
    · exact Or.inr (Or.inl ⟨nonempty, offset.trans hoffset, by omega, snapshot.trans hsnap⟩)
    · exact Or.inr (Or.inr (hnewer.grows hg hd))
  · exact Or.inr (Or.inr ⟨snap, snapshot, by omega⟩)

/-- A snapshot that comes in is ahead of the one in the storage. -/
theorem pending_unsaved (hg : l.Grows True l') (hsaved : l.storage.snapshot.metadata.index ≤ l.committed) {snap : Snapshot}
    (hsnap : l'.unstable.snapshot = some snap)
    (hold : l.unstable.snapshot = some snap → l.storage.snapshot.metadata.index < snap.metadata.index) :
    l'.storage.snapshot.metadata.index < snap.metadata.index := by
  rw [hg.storage]
  rcases hg.snapshot with heq | ⟨snap', hsnap', hlt, -⟩
  · exact hold (heq.symm.trans hsnap)
  · obtain rfl := Option.some.inj (hsnap.symm.trans hsnap')
    omega

theorem HandedOut.grows {rd : Ready} {stored : Bool} (h : HandedOut l rd stored u d) (hr : l.Reshapes l')
    (hg : l.Grows True l') (hd : d ≤ l.committed) (hsaved : l.storage.snapshot.metadata.index ≤ l.committed) :
    HandedOut l' rd stored u d where
  entries := h.entries
  snapshot := h.snapshot
  indexed := h.indexed
  reach := h.reach
  pending := h.pending
  since := h.since.reshapes hr hg hd
  ahead hst hne := by
    rw [hg.applied, hg.storage]
    exact h.ahead hst hne
  unsaved snap hsnap hcase := pending_unsaved hg hsaved hsnap fun hold => h.unsaved snap hold hcase
  ends hst hnot hcase := by
    rw [hg.storage]
    exact h.ends hst (fun hnewer => hnot (hnewer.grows hg hd)) hcase

/-- Only the log and what is out matter. -/
theorem Anchored.of_log (h : Anchored s d) (hlog : s'.log = s.log) (hout : s'.outstanding = s.outstanding) :
    Anchored s' d := by
  refine ⟨⟨?_, ?_, ?_, ?_, ?_, ?_, ?_⟩, ?_, ?_, ?_, ?_, ?_, ?_⟩
  all_goals rw [hlog]
  · exact h.delivered.stored
  · exact h.delivered.unstable
  · exact h.delivered.applied_le
  · exact h.delivered.dummy_le
  · exact h.delivered.le_committed
  · exact fun hnone => h.delivered.waiting (hout.symm.trans hnone)
  · exact fun rd stored hsome => h.delivered.handing rd stored (hout.symm.trans hsome)
  · exact h.tail
  · exact h.base
  · exact h.saved
  · exact fun hnone => h.fresh (hout.symm.trans hnone)
  · exact fun hnone => h.unsaved (hout.symm.trans hnone)
  · exact fun rd stored hsome => h.handedOut rd stored (hout.symm.trans hsome)

theorem Anchored.call (h : Anchored s d) {a : NodeAction} {n : RawNode} (ha : a.IsCall) (hrun : s.node.run a = .ok n) :
    Anchored { s with node := n } d := by
  have hg := call_grows ha hrun
  have hr : s.log.Reshapes n.raft.raftLog := call_reshapes ha hrun
  have hd := h.delivered.le_committed
  refine ⟨h.delivered.grows hg, hg.tail trivial 0 (Nat.zero_le _) h.tail, fun hnone => ?_, ?_, fun hout => ?_,
    fun hout snap hsnap => pending_unsaved hg h.saved hsnap (h.unsaved hout snap), fun rd stored hout => ?_⟩
  · rw [Driver.log, hg.storage, hg.applied]
    rcases hg.snapshot with heq | ⟨snap, hsnap, -⟩
    · exact h.base (heq.symm.trans hnone)
    · cases hsnap.symm.trans hnone
  · rw [Driver.log, hg.storage]
    exact h.saved.trans hg.committed
  · rcases hr with unstable | ⟨-, -, beyond, -⟩ | ⟨snap, snapshot, ahead⟩
    · have hsame : ({ s with node := n } : Driver).log.unstable = s.log.unstable := unstable
      rw [hsame]
      exact (h.fresh hout).imp_right (Or.imp_right (·.grows hg hd))
    · refine Or.inr (Or.inl ?_)
      simp only [Driver.log] at beyond hd ⊢
      omega
    · exact Or.inr (Or.inr ⟨snap, snapshot, by omega⟩)
  · obtain ⟨u, hu⟩ := h.handedOut rd stored hout
    exact ⟨u, hu.grows hr hg hd h.saved⟩

/-- With a snapshot pending, the unstable entries go on right behind it. -/
theorem RaftLog.Tail.offset_pending (h : l.Tail 0) {snap : Snapshot} (hs : l.unstable.snapshot = some snap) :
    l.unstable.offset = snap.metadata.index + 1 := by
  have hlt := (h.pending snap hs).2
  have hle := h.offset_le
  rw [RaftLog.base, hs] at hle
  simp only [Option.map_some, Option.getD_some] at hle
  omega

theorem Anchored.ready (h : Anchored s d) {rd : Ready} {n : RawNode} (hout : s.outstanding = none)
    (hrd : s.node.ready = .ok (rd, n)) :
    Anchored { node := n, outstanding := some (rd, false), handed := s.handed ++ [(s.log, rd)] } (rd.reaches d) := by
  have hdel := (h.delivered.ready hout hrd).2.2
  obtain ⟨-, hents, hsnap, hlog⟩ := ready_spec hrd
  have hsame : ({ node := n, outstanding := some (rd, false), handed := s.handed ++ [(s.log, rd)] } : Driver).log = s.log :=
    hlog
  have happ := h.delivered.applied_le
  have hdummy := h.delivered.dummy_le
  have hpending := (h.delivered.waiting hout).pending
  have hreach := hdel.le_committed
  have hsnapLe := (hdel.handing rd false rfl).snapshot_le
  refine ⟨hdel, by rw [hsame]; exact h.tail, by rw [hsame]; exact h.base, by rw [hsame]; exact h.saved, nofun, nofun, ?_⟩
  rintro rd' stored hrd'
  obtain ⟨rfl, rfl⟩ := Prod.mk.inj (Option.some.inj hrd')
  rw [hsame] at hreach ⊢
  have hlast := h.tail.committed_lt
  refine ⟨s.log.unstable, hents, hsnap, h.delivered.unstable, by omega, fun snap hs => ?_, Or.inl rfl, fun _ hne => ?_,
    fun snap hs _ => h.unsaved hout snap hs, nofun⟩
  · have hrdsnap : rd.snapshot = snap := by
      rw [hsnap]
      exact congrArg (fun o => o.getD {}) hs
    have hlt := (hpending snap hs).1
    exact ⟨h.tail.offset_pending hs, by rw [← hrdsnap]; exact hsnapLe, by omega⟩
  · -- what is unstable reaches beyond everything delivered before
    have hbeyond : d + 1 < s.log.unstable.offset + s.log.unstable.entries.length := by
      rcases h.fresh hout with hnil | hlt | ⟨snap, hs, hlt⟩
      · exact absurd hnil hne
      · exact hlt
      · have hoffset := h.tail.offset_pending hs
        have hpos := List.length_pos_of_ne_nil hne
        omega
    omega

/-- Upkeep of the storage up to the applied index. -/
theorem Anchored.tidy (h : Anchored s d) {st : MemoryStorage} (hst : s.log.storage.Tidied s.log.applied st) :
    Anchored (s.setStorage st) d := by
  have hu := hst.upkeep h.delivered.stored
  have happ := h.delivered.applied_le
  have hdummy := h.delivered.dummy_le
  have hcom := h.delivered.le_committed
  have hle := hu.dummy_le
  have hsnaple := hu.snapshot_le
  have hsaved := h.saved
  -- a pending snapshot is ahead of the applied index
  have hahead : ∀ snap, s.log.unstable.snapshot = some snap → s.log.applied < snap.metadata.index := by
    intro snap hs
    cases hout : s.outstanding with
    | none =>
        have := ((h.delivered.waiting hout).pending snap hs).1
        omega
    | some p => exact ((h.delivered.handing p.1 p.2 hout).pending snap hs).1
  have hkept : ∀ snap, s.log.unstable.snapshot = some snap →
      s.log.storage.snapshot.metadata.index < snap.metadata.index → st.snapshot.metadata.index < snap.metadata.index := by
    intro snap hs hlt
    have := hahead snap hs
    omega
  refine ⟨h.delivered.setStorage hu.indexed (by omega) (Or.inl hu.dummy_ge) rfl, ?_, fun hnone => ?_, ?_, h.fresh,
    fun hout snap hs => hkept snap hs (h.unsaved hout snap hs), fun rd stored hout => ?_⟩
  · have hbase : (s.setStorage st).log.base = s.log.base := by
      unfold RaftLog.base
      exact congrArg _ hu.lastIndex
    obtain ⟨h1, h2, h3, h4, h5⟩ := h.tail
    rw [← hbase] at h2 h3
    exact ⟨h1, h2, h3, h4, h5⟩
  · have := h.base hnone
    change st.dummy.index ≤ s.log.applied
    omega
  · change st.snapshot.metadata.index ≤ s.log.committed
    omega
  · obtain ⟨u, hh⟩ := h.handedOut rd stored hout
    refine ⟨u, hh.entries, hh.snapshot, hh.indexed, hh.reach, hh.pending, hh.since, fun hst hne => ?_,
      fun snap hs hcase => hkept snap hs (hh.unsaved snap hs hcase), fun hst hnot hcase => ?_⟩
    · have := hh.ahead hst hne
      change max s.log.applied st.dummy.index + 1 < u.offset + u.entries.length
      omega
    · change st.lastIndex + 1 = u.offset + u.entries.length
      rw [hu.lastIndex]
      exact hh.ends hst hnot hcase

/-- The snapshot of the `Ready` is still the pending one unless a newer one replaced it. -/
theorem HandedOut.same_snapshot {rd : Ready} {stored : Bool} (h : HandedOut l rd stored u d) (hnot : ¬ l.Newer d) :
    l.unstable.snapshot = u.snapshot := by
  rcases h.since with heq | ⟨-, -, -, hsnap⟩ | hnewer
  · rw [heq]
  · exact hsnap
  · exact absurd hnewer hnot

/-- Where the storage ends once the `Ready` is stored. -/
theorem HandedOut.stored_ends {rd : Ready} (h : HandedOut l rd false u d) {st : MemoryStorage}
    (hst : persist l.storage rd = .ok st) (hnot : ¬ l.Newer d) :
    (u.entries ≠ [] ∨ u.snapshot ≠ none → st.lastIndex + 1 = u.offset + u.entries.length) ∧
      (u.entries = [] → u.snapshot = none → st.lastIndex = l.storage.lastIndex) := by
  obtain ⟨-, hnil, hcons⟩ := persist_stores (h.entries ▸ h.indexed) hst
  rw [h.entries] at hnil hcons
  cases hu : u.snapshot with
  | none =>
      have hstay : l.storage.withSnapshot rd.snapshot = l.storage := by
        rw [h.snapshot, hu]
        rfl
      rw [hstay] at hnil hcons
      refine ⟨fun hcase => ?_, fun hempty _ => hnil hempty⟩
      have hne : u.entries ≠ [] := hcase.resolve_right fun hsome => hsome rfl
      have hahead := h.ahead rfl hne
      exact hcons hne (by omega)
  | some snap =>
      refine ⟨fun _ => ?_, fun _ hnone => by cases hnone⟩
      obtain ⟨hoffset, -, hpos⟩ := h.pending snap hu
      have hrd : rd.snapshot = snap := by
        rw [h.snapshot, hu]
        rfl
      have hunsaved := h.unsaved snap ((h.same_snapshot hnot).trans hu) (Or.inl rfl)
      rw [hrd] at hnil hcons
      -- the storage starts anew behind the snapshot
      rcases withSnapshot_cases l.storage snap with ⟨hempty, -⟩ | ⟨-, ⟨hold, -⟩ | ⟨-, -, hdummy, hents⟩⟩
      · rw [Snapshot.isEmpty, beq_iff_eq] at hempty
        omega
      · omega
      · by_cases hne : u.entries = []
        · rw [hnil hne, MemoryStorage.lastIndex, hdummy, hents, hne, hoffset]
          rfl
        · have := List.length_pos_of_ne_nil hne
          exact hcons hne (by omega)

theorem Anchored.persist (h : Anchored s d) {rd : Ready} {st : MemoryStorage} (hout : s.outstanding = some (rd, false))
    (hst : RaftEtcd.persist s.log.storage rd = .ok st) :
    Anchored { s.setStorage st with outstanding := some (rd, true) } d := by
  obtain ⟨u, hh⟩ := h.handedOut rd false hout
  have hcom := h.delivered.le_committed
  have hsaved := h.saved
  obtain ⟨hsnapshot, -, -⟩ := persist_stores (hh.entries ▸ hh.indexed) hst
  obtain ⟨-, hdummy⟩ := persist_numbered h.delivered.stored (hh.entries ▸ hh.indexed) hst
  have hrdle := (h.delivered.handing rd false hout).snapshot_le
  -- the snapshot that the storage has now
  have hindex : st.snapshot.metadata.index = s.log.storage.snapshot.metadata.index ∨ st.snapshot.metadata.index ≤ d := by
    rw [hsnapshot]
    rcases withSnapshot_cases s.log.storage rd.snapshot with ⟨-, heq⟩ | ⟨-, ⟨-, heq⟩ | ⟨-, heq, -⟩⟩
    · exact Or.inl (by rw [heq])
    · exact Or.inl (by rw [heq])
    · exact Or.inr (by rw [heq]; exact hrdle)
  -- with nothing pending the `Ready` carries no snapshot
  have hnone : s.log.unstable.snapshot = none → ¬ s.log.Newer d ∧ u.snapshot = none := by
    intro hnone
    have hnot : ¬ s.log.Newer d := by
      rintro ⟨snap, hs, -⟩
      cases hnone.symm.trans hs
    exact ⟨hnot, (hh.same_snapshot hnot).symm.trans hnone⟩
  refine ⟨h.delivered.persist hout hst, ?_, fun hn => ?_, ?_, nofun, nofun, ?_⟩
  · obtain ⟨h1, h2, h3, h4, h5⟩ := h.tail
    cases hpend : s.log.unstable.snapshot with
    | some snap =>
        have hbase : ({ s.setStorage st with outstanding := some (rd, true) } : Driver).log.base = s.log.base := by
          unfold RaftLog.base
          change (s.log.unstable.snapshot.map _).getD _ = (s.log.unstable.snapshot.map _).getD _
          rw [hpend]
          rfl
        rw [← hbase] at h2 h3
        exact ⟨h1, h2, h3, h4, h5⟩
    | none =>
        obtain ⟨hnot, hu⟩ := hnone hpend
        obtain ⟨hends, hkeeps⟩ := hh.stored_ends hst hnot
        have hbase : ({ s.setStorage st with outstanding := some (rd, true) } : Driver).log.base = st.lastIndex := by
          unfold RaftLog.base
          change (s.log.unstable.snapshot.map _).getD st.lastIndex = _
          rw [hpend]
          rfl
        have hold : s.log.base = s.log.storage.lastIndex := by
          unfold RaftLog.base
          rw [hpend]
          rfl
        refine ⟨h1, ?_, fun hnil => ?_, h4, h5⟩
        · rw [hbase]
          change s.log.unstable.offset ≤ st.lastIndex + 1
          by_cases hne : u.entries = []
          · rw [hkeeps hne hu, ← hold]
            exact h2
          · rw [hends (Or.inl hne)]
            rcases hh.since with heq | ⟨-, hle, -, -⟩ | hnewer
            · rw [heq]
              omega
            · omega
            · exact absurd hnewer hnot
        · rw [hbase]
          change s.log.unstable.offset = st.lastIndex + 1
          have hempty : u.entries = [] := by
            rcases hh.since with heq | ⟨hne, -⟩ | hnewer
            · rw [← heq]
              exact hnil
            · exact absurd hnil hne
            · exact absurd hnewer hnot
          rw [hkeeps hempty hu, ← hold]
          exact h3 hnil
  · change st.dummy.index ≤ s.log.applied
    have hbase := h.base hn
    rcases hdummy with heq | ⟨-, hempty⟩
    · omega
    · rw [hh.snapshot, (hnone hn).2] at hempty
      cases hempty
  · change st.snapshot.metadata.index ≤ s.log.committed
    omega
  · rintro rd' stored hrd'
    obtain ⟨rfl, rfl⟩ := Prod.mk.inj (Option.some.inj hrd')
    refine ⟨u, hh.entries, hh.snapshot, hh.indexed, hh.reach, hh.pending, hh.since, nofun, fun snap hs hcase => ?_,
      fun _ hnot => (hh.stored_ends hst hnot).1⟩
    change st.snapshot.metadata.index < snap.metadata.index
    have hold := hh.unsaved snap hs (Or.inl rfl)
    have hlt := hcase.resolve_left nofun
    omega

/-- The unstable part after `advance`: entries that are found there are dropped. -/
theorem advanceLog_unstable (rd : Ready) (hs : ∀ snap, l.unstable.snapshot = some snap → snap.metadata.index ≠ 0) :
    (RawNode.advanceLog l rd).unstable = rd.entries.getLast?.elim (l.unstable.stableSnapTo rd.snapshot.metadata.index)
      fun e => (l.unstable.stableSnapTo rd.snapshot.metadata.index).stableTo e.index e.term := by
  rw [RaftLog.advanceLog_eq rd hs]
  have happlied : (if rd.appliedCursor > 0 then (l.stableSnapTo rd.snapshot.metadata.index).appliedTo rd.appliedCursor
      else l.stableSnapTo rd.snapshot.metadata.index).unstable = l.unstable.stableSnapTo rd.snapshot.metadata.index := by
    split
    · unfold RaftLog.appliedTo
      split <;> rfl
    · rfl
  simp only
  cases rd.entries.getLast? with
  | none => exact happlied
  | some e =>
      simp only [RaftLog.stableTo, Option.elim_some]
      rw [happlied]

/-- What `advance` leaves of the unstable part, with the snapshot reported. -/
structure Settled (l : RaftLog) (u : Unstable) (v : Unstable) (d : Nat) : Prop where
  fresh : v.entries = [] ∨ d + 1 < v.offset + v.entries.length
  reach : v.offset + v.entries.length = l.unstable.offset + l.unstable.entries.length
  offset : v.offset = l.unstable.offset ∧ v.entries = l.unstable.entries ∨
    u.entries ≠ [] ∧ v.offset = u.offset + u.entries.length

/-- Unless a newer snapshot came in, everything of the `Ready` that is still there is dropped. -/
theorem HandedOut.settled {rd : Ready} {stored : Bool} (h : HandedOut l rd stored u d) (hnot : ¬ l.Newer d) {v : Unstable}
    (hoff : v.offset = l.unstable.offset) (hents : v.entries = l.unstable.entries) :
    Settled l u (rd.entries.getLast?.elim v fun e => v.stableTo e.index e.term) d := by
  rw [h.entries]
  -- when nothing is dropped, the unstable part is empty or has grown
  have hstay : (l.unstable = u → u.entries = []) → Settled l u v d := by
    intro hsame
    refine ⟨?_, by rw [hoff, hents], Or.inl ⟨hoff, hents⟩⟩
    rw [hoff, hents]
    rcases h.since with heq | ⟨-, -, hlt, -⟩ | hnewer
    · rw [heq]
      exact Or.inl (hsame heq)
    · exact Or.inr hlt
    · exact absurd hnewer hnot
  cases hlast : u.entries.getLast? with
  | none => exact hstay fun _ => List.getLast?_eq_none_iff.mp hlast
  | some e =>
      have hne : u.entries ≠ [] := by
        rintro hnil
        rw [hnil] at hlast
        cases hlast
      have hpos := List.length_pos_of_ne_nil hne
      rw [List.getLast?_eq_getElem?] at hlast
      have hindex := h.indexed _ e hlast
      have hreach := h.reach
      rw [Option.elim_some, RaftLog.stableTo_eq]
      split
      · rename_i htakes
        obtain ⟨hge, hterm⟩ := htakes
        obtain ⟨e', he', -⟩ := Option.map_eq_some_iff.mp hterm
        obtain ⟨hlt, -⟩ := List.getElem?_eq_some_iff.mp he'
        rw [hoff] at hge
        rw [hents, hoff] at hlt
        refine ⟨?_, ?_, Or.inr ⟨hne, by simp only; omega⟩⟩
        · simp only [hents, hoff, List.length_drop]
          by_cases hempty : l.unstable.entries.drop (e.index + 1 - l.unstable.offset) = []
          · exact Or.inl hempty
          · have hleft := List.length_pos_of_ne_nil hempty
            rw [List.length_drop] at hleft
            exact Or.inr (by omega)
        · simp only [hents, hoff, List.length_drop]
          omega
      · rename_i hmiss
        refine hstay fun heq => absurd ⟨?_, ?_⟩ hmiss
        · rw [hoff, heq]
          omega
        · rw [hents, hoff, heq, show e.index - u.offset = u.entries.length - 1 by omega, hlast]
          rfl

theorem stableSnapTo_parts (u : Unstable) (i : Nat) :
    (u.stableSnapTo i).offset = u.offset ∧ (u.stableSnapTo i).entries = u.entries := by
  unfold Unstable.stableSnapTo
  split
  · exact ⟨rfl, rfl⟩
  · split <;> exact ⟨rfl, rfl⟩

theorem stableTo_snapshot (u : Unstable) (i t : Nat) : (u.stableTo i t).snapshot = u.snapshot := by
  rw [RaftLog.stableTo_eq]
  split <;> rfl

theorem Anchored.advance (h : Anchored s d) {rd : Ready} {st : MemoryStorage} (hout : s.outstanding = some (rd, true))
    (hmay : s.MayAdvance rd) (hst : s.log.storage.Tidied (max s.log.applied rd.appliedCursor) st) :
    Anchored { s.setStorage st with node := (s.setStorage st).node.advance rd, outstanding := none } d := by
  obtain ⟨u, hh⟩ := h.handedOut rd true hout
  have hhand := h.delivered.handing rd true hout
  have hup := hst.upkeep h.delivered.stored
  have happ := h.delivered.applied_le
  have hdummy := h.delivered.dummy_le
  have hcom := h.delivered.le_committed
  have hsaved := h.saved
  have hbound : max s.log.applied rd.appliedCursor ≤ d := by
    have := hhand.cursor
    omega
  have hdummy' := hup.dummy_le
  have hsnaple := hup.snapshot_le
  have hne : ∀ snap, (s.setStorage st).log.unstable.snapshot = some snap → snap.metadata.index ≠ 0 := by
    intro snap hs
    have := (hhand.pending snap hs).1
    omega
  have hdel : Delivered (s.setStorage st) d := h.delivered.setStorage hup.indexed (by omega) (Or.inl hup.dummy_ge) rfl
  have hunstable := advanceLog_unstable rd hne
  obtain ⟨hstorage, happlied, -, -⟩ := advanceLog_leaves rd hne
  have hcommitted := advanceLog_committed (s.setStorage st).log rd
  obtain ⟨hoff, hents⟩ := stableSnapTo_parts s.log.unstable rd.snapshot.metadata.index
  obtain ⟨h1, h2, h3, h4, h5⟩ := h.tail
  -- the log that `advance` leaves
  generalize hl' : RawNode.advanceLog (s.setStorage st).log rd = l' at hunstable hstorage happlied hcommitted
  have hlog : ({ s.setStorage st with node := (s.setStorage st).node.advance rd, outstanding := none } : Driver).log = l' :=
    hl'
  have hunstable' : l'.unstable = rd.entries.getLast?.elim (s.log.unstable.stableSnapTo rd.snapshot.metadata.index)
      fun e => (s.log.unstable.stableSnapTo rd.snapshot.metadata.index).stableTo e.index e.term := hunstable
  have hstorage' : l'.storage = st := hstorage
  have hcommitted' : l'.committed = s.log.committed := hcommitted
  have happlied' : l'.applied = if rd.appliedCursor > 0 then rd.appliedCursor else s.log.applied := happlied
  have hsnap' : l'.unstable.snapshot = (s.log.unstable.stableSnapTo rd.snapshot.metadata.index).snapshot := by
    rw [hunstable']
    cases rd.entries.getLast? with
    | none => rfl
    | some e => exact stableTo_snapshot _ _ _
  -- a newer snapshot stays, and with it the whole unstable part
  have hkept : ∀ snap, s.log.unstable.snapshot = some snap → snap.metadata.index ≠ rd.snapshot.metadata.index →
      l'.unstable = s.log.unstable ∧ d < snap.metadata.index := by
    intro snap hs hdiff
    have hstay : s.log.unstable.stableSnapTo rd.snapshot.metadata.index = s.log.unstable := by
      rw [Unstable.stableSnapTo, hs]
      simp only
      rw [if_neg hdiff]
    refine ⟨?_, (hhand.pending snap hs).2.2.resolve_left hdiff⟩
    rw [hunstable', hstay]
    cases hlast : rd.entries.getLast? with
    | none => rfl
    | some e =>
        rw [Option.elim_some, RaftLog.stableTo_eq]
        exact if_neg (hmay snap e hs hdiff hlast)
  -- otherwise nothing is pending any more
  have hsettled : (∀ snap, s.log.unstable.snapshot = some snap → snap.metadata.index = rd.snapshot.metadata.index) →
      l'.unstable.snapshot = none ∧ ¬ s.log.Newer d ∧ Settled s.log u l'.unstable d := by
    intro hsame
    have hnot : ¬ s.log.Newer d := by
      rintro ⟨snap, hs, hlt⟩
      have hle := hhand.snapshot_le
      rw [← hsame snap hs] at hle
      omega
    refine ⟨?_, hnot, ?_⟩
    · rw [hsnap', Unstable.stableSnapTo]
      cases hs : s.log.unstable.snapshot with
      | none =>
          simp only
          exact hs
      | some snap =>
          simp only
          rw [if_pos (hsame snap hs)]
    · rw [hunstable']
      exact hh.settled hnot hoff hents
  have hcases : (∃ snap, s.log.unstable.snapshot = some snap ∧ snap.metadata.index ≠ rd.snapshot.metadata.index) ∨
      ∀ snap, s.log.unstable.snapshot = some snap → snap.metadata.index = rd.snapshot.metadata.index := by
    by_cases hall : ∀ snap, s.log.unstable.snapshot = some snap → snap.metadata.index = rd.snapshot.metadata.index
    · exact Or.inr hall
    · push Not at hall
      exact Or.inl hall
  refine ⟨hdel.advance hout, ?_, ?_, ?_, fun _ => ?_, fun _ snap hs => ?_, fun _ _ hout => by cases hout⟩ <;> rw [hlog] at *
  · rcases hcases with ⟨snap, hs, hdiff⟩ | hsame
    · obtain ⟨hsameU, -⟩ := hkept snap hs hdiff
      have hbase : l'.base = s.log.base := by
        unfold RaftLog.base
        rw [hsameU, hs]
        rfl
      exact ⟨by rw [hsameU]; exact h1, by rw [hsameU, hbase]; exact h2, by rw [hsameU, hbase]; exact h3,
        by rw [hsameU, hcommitted']; exact h4, by rw [hsameU, hcommitted']; exact h5⟩
    · obtain ⟨hgone, hnot, hset⟩ := hsettled hsame
      have hbase : l'.base = s.log.storage.lastIndex := by
        unfold RaftLog.base
        rw [hgone, hstorage', hup.lastIndex]
        rfl
      -- the entries go on at the end of the storage, or below it
      have hplace : l'.unstable.offset ≤ l'.base + 1 ∧ (l'.unstable.entries = [] → l'.unstable.offset = l'.base + 1) := by
        rw [hbase]
        have hends := hh.ends rfl hnot
        rcases hset.offset with ⟨hoff', hents'⟩ | ⟨hne', hoff'⟩
        · rw [hoff', hents']
          cases hs : s.log.unstable.snapshot with
          | none =>
              have hold : s.log.base = s.log.storage.lastIndex := by
                unfold RaftLog.base
                rw [hs]
                rfl
              rw [← hold]
              exact ⟨h2, h3⟩
          | some snap =>
              have husnap : u.snapshot = some snap := (hh.same_snapshot hnot).symm.trans hs
              have hend := hends (Or.inr (by rw [husnap]; exact Option.some_ne_none snap))
              have hu := (hh.pending snap husnap).1
              have hl := h.tail.offset_pending hs
              refine ⟨by omega, fun hnil => ?_⟩
              rcases hh.since with heq | ⟨hne', -⟩ | hnewer
              · rw [heq] at hnil
                rw [hnil, List.length_nil] at hend
                omega
              · exact absurd hnil hne'
              · exact absurd hnewer hnot
        · have hend := hends (Or.inl hne')
          exact ⟨by omega, fun _ => by omega⟩
      refine ⟨fun hne' => ?_, hplace.1, hplace.2, ?_, fun snap hs => by cases hgone.symm.trans hs⟩
      · rcases hset.offset with ⟨hoff', hents'⟩ | ⟨hne'', hoff'⟩
        · rw [hoff']
          exact h1 (hents' ▸ hne')
        · have := List.length_pos_of_ne_nil hne''
          omega
      · rw [hcommitted', hset.reach]
        exact h4
  · intro hnone
    rw [hstorage', happlied']
    split
    · have := hhand.cursor
      omega
    · rename_i hzero
      have hempty := (hhand.nothing (by omega)).2
      rw [Snapshot.isEmpty, beq_iff_eq] at hempty
      have hbefore : s.log.unstable.snapshot = none := by
        cases hs : s.log.unstable.snapshot with
        | none => rfl
        | some snap =>
            have hdiff : snap.metadata.index ≠ rd.snapshot.metadata.index := by
              rw [hempty]
              exact hne snap hs
            rw [(hkept snap hs hdiff).1, hs] at hnone
            cases hnone
      have := h.base hbefore
      omega
  · rw [hstorage', hcommitted']
    omega
  · rcases hcases with ⟨snap, hs, hdiff⟩ | hsame
    · obtain ⟨hsameU, hlt⟩ := hkept snap hs hdiff
      exact Or.inr (Or.inr ⟨snap, by rw [hsameU]; exact hs, hlt⟩)
    · exact (hsettled hsame).2.2.fresh.imp_right Or.inl
  · rcases hcases with ⟨snap', hs', hdiff⟩ | hsame
    · obtain ⟨hsameU, hlt⟩ := hkept snap' hs' hdiff
      rw [hsameU, hs'] at hs
      obtain rfl := Option.some.inj hs
      have hold := hh.unsaved snap' hs' (Or.inr hlt)
      rw [hstorage']
      omega
    · rw [(hsettled hsame).1] at hs
      cases hs

theorem Anchored.move (h : Anchored s d) (hs : Driver.Move s s') : ∃ d', Anchored s' d' := by
  cases hs with
  | call ha hrun => exact ⟨d, h.call ha hrun⟩
  | @ready rd n hout hrd => exact ⟨rd.reaches d, h.ready hout hrd⟩
  | persist hout hst => exact ⟨d, h.persist hout hst⟩
  | tidy hst => exact ⟨d, h.tidy hst⟩
  | advance hout hmay hst => exact ⟨d, h.advance hout hmay hst⟩

theorem Anchored.moves (h : Anchored s d) (hs : Driver.Moves s s') : ∃ d', Anchored s' d' := by
  induction hs with
  | refl => exact ⟨d, h⟩
  | tail _ hstep ih =>
      obtain ⟨d', h'⟩ := ih
      exact h'.move hstep

end Steps

/-! ### Slices -/

section Slices
variable {l : RaftLog} {low high : Nat}

/-- Every slice from the first index of the log on is there. -/
theorem RaftLog.Tail.slice_ok (h : l.Tail 0) (hfirst : l.firstIndex ≤ low) (hle : low ≤ high)
    (hhigh : high ≤ l.lastIndex + 1) (maxSize : Nat) : ∃ es, l.slice low high maxSize [] = .ok (.ok, es) := by
  have hlast := h.lastIndex
  have hunstable : ∀ out, low < high → ∃ es, l.sliceUnstable low high maxSize out = .ok (.ok, es) := by
    intro out hlt
    unfold RaftLog.sliceUnstable
    split
    · rename_i hgt
      have hslice : l.unstable.slice (max low l.unstable.offset) high =
          .ok ((l.unstable.entries.drop (max low l.unstable.offset - l.unstable.offset)).take
            (high - max low l.unstable.offset)) := by
        unfold Unstable.slice
        rw [if_neg (by omega), if_neg (by omega)]
      rw [hslice]
      exact ⟨_, rfl⟩
    · exact ⟨_, rfl⟩
  have hcheck : l.mustCheckOutOfBounds low high = .ok .ok := by
    unfold RaftLog.mustCheckOutOfBounds
    rw [if_neg (by omega), if_neg (by omega), if_neg (by omega)]
  unfold RaftLog.slice
  rw [hcheck]
  change ∃ es, (if low = high then Except.ok (Status.ok, []) else
    if low < l.unstable.offset then _ else l.sliceUnstable low high maxSize []) = _
  split
  · exact ⟨_, rfl⟩
  rename_i hne
  split
  · rename_i hlow
    -- below the unstable entries the storage has everything, and no snapshot is pending
    have hnone : l.unstable.snapshot = none := by
      cases hs : l.unstable.snapshot with
      | none => rfl
      | some snap =>
          have := (h.offset_pending hs).symm
          simp only [RaftLog.firstIndex, Unstable.maybeFirstIndex, hs, Option.map_some] at hfirst
          omega
    have hoffset := h.offset_le
    simp only [RaftLog.base, hnone, Option.map_none, Option.getD_none] at hoffset
    simp only [RaftLog.firstIndex, Unstable.maybeFirstIndex, hnone, Option.map_none, MemoryStorage.firstIndex] at hfirst
    have hents : l.storage.ents ≠ [] := by
      rintro hnil
      rw [MemoryStorage.lastIndex, hnil, List.length_nil] at hoffset
      omega
    have hstored : ∃ out, l.storage.entries low (min high l.unstable.offset) maxSize [] = .ok (.ok, out) := by
      unfold MemoryStorage.entries
      rw [if_neg (by omega), if_neg (by omega), if_neg (by omega), if_neg hents]
      exact ⟨_, rfl⟩
    obtain ⟨out, hout⟩ := hstored
    rw [hout]
    change ∃ es, (if out.length < min high l.unstable.offset - low then Except.ok (Status.ok, out)
      else l.sliceUnstable low high maxSize out) = _
    split
    · exact ⟨_, rfl⟩
    · exact hunstable out (by omega)
  · exact hunstable [] (by omega)

/-- A slice from below the first index is refused. -/
theorem slice_compacted (hlow : low < l.firstIndex) (hle : low ≤ high) (maxSize : Nat) :
    ∃ msg, l.slice low high maxSize [] = .ok (.invalidArgument msg, []) := by
  have hcheck : l.mustCheckOutOfBounds low high = .ok (.invalidArgument "requested index is unavailable due to compaction") := by
    unfold RaftLog.mustCheckOutOfBounds
    rw [if_neg (by omega), if_pos hlow]
  unfold RaftLog.slice
  rw [hcheck]
  exact ⟨_, rfl⟩

end Slices

/-! ### The start -/

/-- A configuration as a node starts from it: a numbered storage whose snapshot is committed, and an
applied index, if it is given, between the two ends of what is committed. -/
structure Config.Sound (c : Config) : Prop where
  stored : IndexedFrom (c.storage.dummy.index + 1) c.storage.ents
  snapshot_le : c.storage.snapshot.metadata.index ≤ max c.storage.hardState.commit c.storage.dummy.index
  applied_ge : c.applied = 0 ∨ c.storage.dummy.index ≤ c.applied
  applied_le : c.applied ≤ max c.storage.hardState.commit c.storage.dummy.index

section Start
variable {c : Config} {r : Raft} {n : RawNode}

theorem new_committed_le (h : Raft.new c = .ok r) : r.raftLog.committed ≤ c.storage.lastIndex := by
  unfold Raft.new at h
  obtain ⟨⟨peers, learners⟩, -, h⟩ := bind_ok h
  obtain ⟨r₁, h₁, h⟩ := bind_ok h
  obtain ⟨r₂, h₂, h⟩ := bind_ok h
  obtain rfl := Except.ok.inj h
  obtain ⟨lprs, lr, rfl, -⟩ := addLearners_spec _ h₁
  have hr₂ : r₂.raftLog.committed ≤ c.storage.lastIndex := by
    split at h₂
    · unfold Raft.loadState at h₂
      split at h₂
      · cases h₂
      · rename_i hrange
        rw [← Except.ok.inj h₂]
        simp only [RaftLog.new, MemoryStorage.firstIndex, RaftLog.lastIndex, Unstable.maybeLastIndex, ne_eq,
          not_true_eq_false, if_false, Option.map_none] at hrange
        simp only
        omega
    · rw [← Except.ok.inj h₂]
      simp only [RaftLog.new, MemoryStorage.firstIndex, MemoryStorage.lastIndex]
      omega
  simp only [Raft.becomeFollower, Raft.reset_raftLog]
  split
  · simp only [RaftLog.appliedTo]
    split <;> exact hr₂
  · exact hr₂

/-- A node that starts without unstable entries but those of the bootstrap. -/
theorem anchored_of_log {d : Nat} (hdel : Delivered { node := n } d) (htail : n.raft.raftLog.Tail 0)
    (hstore : n.raft.raftLog.storage = c.storage) (hsnap : n.raft.raftLog.unstable.snapshot = none)
    (hbase : c.storage.dummy.index ≤ n.raft.raftLog.applied)
    (hsaved : c.storage.snapshot.metadata.index ≤ n.raft.raftLog.committed)
    (hfresh : n.raft.raftLog.unstable.entries = [] ∨
      d + 1 < n.raft.raftLog.unstable.offset + n.raft.raftLog.unstable.entries.length) :
    Anchored { node := n } d where
  delivered := hdel
  tail := htail
  base _ := by
    rw [Driver.log, hstore]
    exact hbase
  saved := by
    rw [Driver.log, hstore]
    exact hsaved
  fresh _ := hfresh.imp_right Or.inl
  unsaved _ snap hs := by cases hsnap.symm.trans hs
  handedOut := nofun

theorem started_anchored (hc : c.Sound)
    (hn : RawNode.restartNode c = .ok n ∨ ∃ serialize peers, RawNode.startNode serialize c peers = .ok n) :
    ∃ d, Anchored { node := n } d := by
  have happ := hc.applied_ge
  have hsnaple := hc.snapshot_le
  -- a log without unstable entries, as the constructor leaves it
  have hplain : ∀ {r : Raft}, Raft.new c = .ok r → ∀ hdel : Delivered { node := RawNode.ofRaft r c.storage.lastIndex }
      (max c.applied c.storage.dummy.index),
      ∃ d, Anchored { node := RawNode.ofRaft r c.storage.lastIndex } d := by
    intro r hr hdel
    obtain ⟨hstore, hun, happlied, hcom, -⟩ := new_log hr
    have hle := new_committed_le hr
    refine ⟨_, anchored_of_log hdel ?_ hstore ?_ ?_ ?_ (Or.inl ?_)⟩
    · change r.raftLog.Tail 0
      have hbase : r.raftLog.base = c.storage.lastIndex := by
        unfold RaftLog.base
        rw [hun, hstore]
        rfl
      refine ⟨fun hne => ?_, ?_, fun _ => ?_, ?_, fun s hs => ?_⟩
      · rw [hun] at hne
        exact absurd rfl hne
      · rw [hbase, hun]
      · rw [hbase, hun]
      · rw [hun]
        simp only [List.length_nil]
        omega
      · rw [hun] at hs
        cases hs
    · rw [RawNode.ofRaft, hun]
    · change c.storage.dummy.index ≤ r.raftLog.applied
      rw [happlied]
      split <;> omega
    · change _ ≤ r.raftLog.committed
      omega
    · rw [RawNode.ofRaft, hun]
  have hdel : Delivered { node := n } (max c.applied c.storage.dummy.index) :=
    (started_delivery hc.stored hc.applied_le hn).delivered
  rcases hn with hn | ⟨serialize, peers, hn⟩
  · obtain ⟨r, hr, hn⟩ := bind_ok hn
    obtain rfl := Except.ok.inj hn
    exact hplain hr hdel
  · by_cases hzero : c.storage.lastIndex = 0
    · obtain ⟨r, hr, -⟩ := bind_ok hn
      obtain ⟨hstore, hun, happlied, hcom, -⟩ := new_log hr
      have hle := new_committed_le hr
      rw [hzero] at hun
      have hdummy : c.storage.dummy.index = 0 := by
        rw [MemoryStorage.lastIndex] at hzero
        omega
      have hlog := (startNode_log hr hzero hun (by omega) hn).1
      have happle := hc.applied_le
      have hlen : (RawNode.bootstrapEntries serialize peers).length = peers.length := by simp [RawNode.bootstrapEntries]
      refine ⟨_, anchored_of_log (c := c) hdel ?_ ?_ ?_ ?_ ?_ ?_⟩ <;> rw [hlog]
      · refine ⟨fun _ => Nat.one_pos, ?_, fun hnil => ?_, ?_, fun s hs => by cases hs⟩
        · simp only [RaftLog.base, Option.map_none, Option.getD_none, hstore, hzero, le_refl]
        · simp only [RaftLog.base, Option.map_none, Option.getD_none, hstore, hzero]
        · simp only [hlen]
          omega
      · exact hstore
      · rw [hdummy]
        exact Nat.zero_le _
      · simp only
        omega
      · simp only [hlen]
        by_cases hnil : peers = []
        · exact Or.inl (by rw [hnil]; rfl)
        · have := List.length_pos_of_ne_nil hnil
          exact Or.inr (by omega)
    · obtain ⟨r, hr, hn⟩ := bind_ok hn
      simp only [hzero, if_false] at hn
      obtain rfl := Except.ok.inj hn
      exact hplain hr hdel

end Start

/-! ### Campaigning -/

/-- A node that is told to campaign gets the entries that it has not applied yet. -/
def Raft.Fetches (r : Raft) : Prop :=
  r.state = .leader ∨
    ∃ es, r.raftLog.slice (r.raftLog.applied + 1) (r.raftLog.committed + 1) unlimited [] = .ok (.ok, es)

theorem Anchored.fetches {s : Driver} {d : Nat} (h : Anchored s d) (hnone : s.log.unstable.snapshot = none) :
    s.node.raft.Fetches := by
  have happ := h.delivered.applied_le
  have hcom := h.delivered.le_committed
  have hbase := h.base hnone
  have hlast := h.tail.lastIndex
  have hlt := h.tail.committed_lt
  refine Or.inr (h.tail.slice_ok ?_ (by simp only [Driver.log] at *; omega) (by simp only [Driver.log] at *; omega) _)
  simp only [RaftLog.firstIndex, Unstable.maybeFirstIndex, hnone, Option.map_none, MemoryStorage.firstIndex]
  simp only [Driver.log] at *
  omega

theorem Anchored.not_fetches {s : Driver} {d : Nat} (h : Anchored s d) {snap : Snapshot}
    (hs : s.log.unstable.snapshot = some snap) (hl : s.node.raft.state ≠ .leader) : ¬ s.node.raft.Fetches := by
  have happ := h.delivered.applied_le
  have hcom := h.delivered.le_committed
  have hahead : s.log.applied < snap.metadata.index := by
    cases hout : s.outstanding with
    | none =>
        have := ((h.delivered.waiting hout).pending snap hs).1
        omega
    | some p => exact ((h.delivered.handing p.1 p.2 hout).pending snap hs).1
  have hfirst : s.log.firstIndex = snap.metadata.index + 1 := by
    simp only [RaftLog.firstIndex, Unstable.maybeFirstIndex, hs, Option.map_some]
  have hcompacted : ∃ msg, s.log.slice (s.log.applied + 1) (s.log.committed + 1) unlimited [] =
      .ok (.invalidArgument msg, []) := slice_compacted (by omega) (by omega) _
  rintro (hleader | ⟨es, hes⟩)
  · exact hl hleader
  · obtain ⟨msg, hmsg⟩ := hcompacted
    cases hmsg.symm.trans hes

theorem hup_fetches_iff {c : Config} {n₀ : RawNode} {s : Driver} (hc : c.Sound)
    (hstart : RawNode.restartNode c = .ok n₀ ∨ ∃ serialize peers, RawNode.startNode serialize c peers = .ok n₀)
    (hs : Driver.Moves { node := n₀ } s) :
    s.node.raft.Fetches ↔ s.node.raft.state = .leader ∨ s.log.unstable.snapshot = none := by
  obtain ⟨d₀, h₀⟩ := started_anchored hc hstart
  obtain ⟨d, h⟩ := h₀.moves hs
  constructor
  · intro hfetches
    by_cases hl : s.node.raft.state = .leader
    · exact Or.inl hl
    · refine Or.inr ?_
      cases hsnap : s.log.unstable.snapshot with
      | none => rfl
      | some snap => exact absurd hfetches (h.not_fetches hsnap hl)
  · rintro (hl | hnone)
    · exact Or.inl hl
    · exact h.fetches hnone

/-- The first of three voters on an empty storage. -/
def firstOfTrio : Config := (trio false).config 1 {} 0 fun _ => 0

theorem firstOfTrio_sound : firstOfTrio.Sound where
  stored := .nil _
  snapshot_le := le_rfl
  applied_ge := Or.inl rfl
  applied_le := Nat.zero_le _

/-- The snapshot with which the second voter catches the first one up. -/
def catchUpSnapshot : Message :=
  { type := .msgSnap, from_ := 2, to_ := 1, term := 1,
    snapshot := { metadata := { index := 5, term := 1, confState := { nodes := [1, 2, 3] } } } }

theorem catchUpSnapshot_isCall : (NodeAction.step catchUpSnapshot).IsCall := ⟨fun _ => by decide, by rintro ⟨⟩⟩

/-- The snapshot comes in, is handed out, stored and advanced. -/
def installSnapshot (n : RawNode) : Result (Ready × Driver) := do
  let n ← n.run (.step catchUpSnapshot)
  let log := n.raft.raftLog
  let (rd, n) ← n.ready
  let s : Driver := { node := n, outstanding := some (rd, false), handed := [(log, rd)] }
  let st ← persist s.log.storage rd
  let s := { s.setStorage st with outstanding := some (rd, true) }
  .ok (rd, { s.setStorage s.log.storage with node := (s.setStorage s.log.storage).node.advance rd, outstanding := none })

theorem hup_fetches_iff_installed : ∃ n s, RawNode.restartNode firstOfTrio = .ok n ∧ Driver.Moves { node := n } s ∧
    s.log.committed = 5 ∧ s.node.raft.state = .follower ∧ s.node.raft.Fetches := by
  obtain ⟨⟨rd, s⟩, hrun, hcheck⟩ : ∃ p, (RawNode.restartNode firstOfTrio >>= installSnapshot) = .ok p ∧
      decide (p.1.entries.isEmpty ∧ p.2.log.committed = 5 ∧ p.2.node.raft.state = .follower ∧
        p.2.log.unstable.snapshot.isNone) = true := exists_ok_of_any (by decide +kernel)
  obtain ⟨n, hn, hrun⟩ := bind_ok hrun
  obtain ⟨n₁, h₁, hrun⟩ := bind_ok hrun
  obtain ⟨⟨rd', n₂⟩, h₂, hrun⟩ := bind_ok hrun
  obtain ⟨st, h₃, hrun⟩ := bind_ok hrun
  obtain ⟨hrd, hs⟩ := Prod.mk.inj (Except.ok.inj hrun)
  obtain ⟨hempty, hcom, hstate, hnone⟩ := of_decide_eq_true hcheck
  have hruns : Driver.Moves { node := n } s := by
    rw [← hs]
    refine .head (.call catchUpSnapshot_isCall h₁) (.head (.ready rfl h₂) (.head (.persist rfl h₃)
      (.head (.advance rfl (fun snap e _ _ hlast => ?_) .refl) .refl)))
    rw [hrd, List.isEmpty_iff.mp hempty] at hlast
    cases hlast
  exact ⟨n, s, hn, hruns, hcom, hstate,
    (hup_fetches_iff firstOfTrio_sound (Or.inl hn) hruns).mpr (Or.inr (Option.isNone_iff_eq_none.mp hnone))⟩

/-- As long as the snapshot is not advanced, a node that is told to campaign stops. -/
theorem campaign_stops_on_pending_snapshot : ∃ n s, RawNode.restartNode firstOfTrio = .ok n ∧
    Driver.Moves { node := n } s ∧ ¬ s.node.raft.Fetches ∧
    s.node.run .campaign = .error "unexpected error getting unapplied entries (%s)" := by
  obtain ⟨n₁, hrun, hcheck⟩ : ∃ n₁, (RawNode.restartNode firstOfTrio >>= fun n => n.run (.step catchUpSnapshot)) = .ok n₁ ∧
      decide (n₁.raft.state ≠ .leader ∧ ((n₁.raft.raftLog.slice (n₁.raft.raftLog.applied + 1) (n₁.raft.raftLog.committed + 1)
        unlimited []).toOption.any (·.1.isOk)) = false ∧
        failsWith "unexpected error getting unapplied entries (%s)" (n₁.run .campaign) = true) = true :=
    exists_ok_of_any (by decide +kernel)
  obtain ⟨n, hn, h₁⟩ := bind_ok hrun
  obtain ⟨hl, hslice, herror⟩ := of_decide_eq_true hcheck
  refine ⟨n, { node := n₁ }, hn, .head (.call catchUpSnapshot_isCall h₁) .refl, ?_, eq_error_of_failsWith herror⟩
  rintro (hleader | ⟨es, hes⟩)
  · exact hl hleader
  · simp only at hes
    rw [hes] at hslice
    cases hslice

end RaftEtcd
