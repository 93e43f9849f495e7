import RaftEtcd.Healthy
import RaftEtcd.SnapTrigger

/-! Crashes and restarts of a server. A round ends with a process that is as sound as the one that
began it, and a crash at any byte of it leaves a disk to start from, except between the records of a
leader's snapshot and its file. -/
namespace RaftEtcd

open Snapshotter
open Journal (Prog Safe)

variable {mp : Msgpack} {crc : Bytes → UInt32} {κ : Type} {x t : Nat} {vs buf : List WalItem} {s s' : RaftNode κ}
  {rd : Ready}

/-! ### The entries of a round -/

/-- The entries of the `Ready` are in the storage, too. -/
structure Working (mp : Msgpack) (crc : Bytes → UInt32) (rd : Ready) (x t : Nat) (vs buf : List WalItem)
    (s : RaftNode κ) : Prop extends Running mp crc x t vs buf s where
  entries : s.log.unstable.entries = rd.entries
  snapshot : rd.snapshot = s.log.unstable.snapshot.getD {}
  nonzero : ∀ snap, s.log.unstable.snapshot = some snap → snap.metadata.index ≠ 0
  tail : s.log.Tail 0
  reach : s.storage.lastIndex + 1 = s.log.unstable.reach
  handed : (∀ e ∈ rd.committedEntries, e.index ≤ itemCommit (vs ++ buf)) ∧ rd.appliedCursor ≤ itemCommit (vs ++ buf)
  state : rd.hardState.isEmptyState = false → rd.hardState.commit ≤ itemCommit (vs ++ buf)

/-- Entries that begin above the dummy replace what is stored from their first index on. -/
theorem MemoryStorage.append_above {st st' : MemoryStorage} {off : Nat} {es : List Entry} (hes : IndexedFrom off es)
    (hne : es ≠ []) (hlow : st.dummy.index < off) (h : st.append es = .ok st') :
    st' = { st with ents := st.ents.take (off - st.dummy.index - 1) ++ es } := by
  have hlen := List.length_pos_of_ne_nil hne
  rcases MemoryStorage.append_cases hes h with ⟨hnil | hbelow, -⟩ | ⟨-, -, heq⟩
  · exact absurd hnil hne
  · omega
  · rw [heq, show st.dummy.index + 1 - off = 0 by omega, List.drop_zero, Nat.sub_sub]

/-- Behind a place that the entries do not reach, they are appended to what is there. -/
theorem view_append_drop {d off : Nat} {es es' : List Entry} (hx : x ≤ d) (hd : d < off) (hlen : d ≤ viewEnd x es)
    (hidx : IndexedFrom off es') (hne : es' ≠ []) :
    (view x (es ++ es')).drop (d - x) = ((view x es).drop (d - x)).take (off - d - 1) ++ es' := by
  rw [viewEnd] at hlen
  rw [view_append (by omega) hidx, if_neg hne,
    List.drop_append_of_le_length (by rw [List.length_take]; omega), List.drop_take,
    show off - x - 1 - (d - x) = off - d - 1 by omega]

/-- And below it nothing changes. -/
theorem view_append_get {i off : Nat} {es es' : List Entry} (hx : x < i) (hi : i < off) (hlen : i ≤ viewEnd x es)
    (hidx : IndexedFrom off es') : (view x (es ++ es'))[i - x - 1]? = (view x es)[i - x - 1]? := by
  rw [viewEnd] at hlen
  rw [view_append (by omega) hidx]
  split
  · rfl
  · rw [List.getElem?_append_left (by rw [List.length_take]; omega), List.getElem?_take_of_lt (by omega)]

theorem Held.setStorage (h : Held mp crc x t vs buf s) (st : MemoryStorage) : Held mp crc x t vs buf (s.setStorage st) :=
  ⟨h.id, h.stored, h.sound, h.files, h.prev, h.applied⟩

/-- The storage with the entries of the `Ready` in it. -/
theorem Staged.kept (h : Staged mp crc rd x t vs buf s) {st : MemoryStorage}
    (happ : s.storage.append rd.entries = .ok st) :
    st.lastIndex + 1 = s.log.unstable.reach ∧ Kept x t (vs ++ buf) { s.log with storage := st } := by
  obtain ⟨old, hkept, hold, hitems, hcom, habove, hle, heq⟩ := h.log
  have hcommitted := h.committed
  rw [Unstable.reach, h.entries]
  by_cases hnil : rd.entries = []
  · rw [hnil] at happ
    obtain rfl := Except.ok.inj happ
    rw [hnil, List.append_nil] at hitems
    rw [hnil, List.length_nil]
    refine ⟨(heq hnil).symm, hkept.dummy_ge, hkept.dummy_le.trans hcom, ?_, ?_, hkept.snapshot_ge,
      hkept.snapshot_le.trans hcom, hkept.indexed, hcommitted.le, hkept.applied_le⟩
    · rw [hitems]
      exact hkept.dummy_term
    · rw [hitems]
      exact hkept.ents
  · have hidx := hkept.indexed
    rw [h.entries] at hidx
    have hlow := lt_of_le_of_lt hkept.dummy_le (habove hnil)
    have hend := hkept.dummy_le.trans hold.le
    obtain rfl := MemoryStorage.append_above hidx hnil hlow happ
    have hroom : s.log.unstable.offset - s.log.storage.dummy.index - 1 ≤ s.log.storage.ents.length := by
      rw [RaftNode.storage, MemoryStorage.lastIndex] at hle
      omega
    refine ⟨?_, hkept.dummy_ge, hkept.dummy_le.trans hcom, ?_, ?_, hkept.snapshot_ge, hkept.snapshot_le.trans hcom,
      hkept.indexed, hcommitted.le, hkept.applied_le⟩
    · simp only [MemoryStorage.lastIndex, List.length_append, List.length_take]
      omega
    · rcases hkept.dummy_term with hbase | ⟨hlt, hterm⟩
      · exact Or.inl hbase
      · refine Or.inr ⟨hlt, ?_⟩
        rw [hitems, view_append_get hlt hlow hend hidx]
        exact hterm
    · have htake := List.prefix_iff_eq_take.mp hkept.ents
      have hpart : s.log.storage.ents.take (s.log.unstable.offset - s.log.storage.dummy.index - 1) =
          ((view x (itemEntries old)).drop (s.log.storage.dummy.index - x)).take
            (s.log.unstable.offset - s.log.storage.dummy.index - 1) := by
        conv_lhs => rw [htake]
        rw [List.take_take, min_eq_left hroom]
      rw [hitems, view_append_drop hkept.dummy_ge hlow hend hidx hnil]
      simp only [hpart]
      exact List.prefix_refl _

theorem Staged.append (h : Staged mp crc rd x t vs buf s) {st : MemoryStorage}
    (happ : s.storage.append rd.entries = .ok st) : Working mp crc rd x t vs buf (s.setStorage st) := by
  obtain ⟨hreach, hkept⟩ := h.kept happ
  have htail : (s.setStorage st).log.Tail 0 := by
    refine ⟨h.tail.above, ?_, fun hnil => ?_, h.tail.committed_lt, h.tail.pending⟩
    · have hold := h.tail.offset_le
      change s.log.unstable.offset ≤ (s.log.unstable.snapshot.map _).getD st.lastIndex + 1
      rw [RaftLog.base] at hold
      cases hs : s.log.unstable.snapshot with
      | none =>
          simp only [Option.map_none, Option.getD_none]
          rw [hreach, Unstable.reach]
          exact Nat.le_add_right _ _
      | some snap =>
          rw [hs] at hold
          exact hold
    · have hold := h.tail.offset_eq hnil
      change s.log.unstable.offset = (s.log.unstable.snapshot.map _).getD st.lastIndex + 1
      rw [RaftLog.base] at hold
      cases hs : s.log.unstable.snapshot with
      | none =>
          simp only [Option.map_none, Option.getD_none]
          rw [hreach, Unstable.reach, show s.log.unstable.entries = [] from hnil]
          rfl
      | some snap =>
          rw [hs] at hold
          exact hold
  exact ⟨⟨h.toHeld.setStorage st, hkept⟩, h.entries, h.snapshot, h.nonzero, htail, hreach, h.handed, h.state⟩

/-- Publishing keeps that. -/
theorem Working.published (h : Working mp crc rd x t vs buf s) (hp : Publishes (itemCommit (vs ++ buf)) s s') :
    Working mp crc rd x t vs buf s' := by
  obtain ⟨c, hc, hlog⟩ := hp.log
  have hheld : Held mp crc x t vs buf s' := by
    refine ⟨?_, ?_, h.sound, ?_, ?_, hp.applied h.applied⟩
    · rw [hp.id]
      exact h.id
    · rw [hp.wal]
      exact h.stored
    · rw [hp.snaps]
      exact h.files
    · rw [hp.prev]
      exact h.prev
  refine ⟨⟨hheld, ?_⟩, ?_, ?_, ?_, hp.tail h.tail, ?_, h.handed, h.state⟩
  · rw [hlog]
    exact ⟨h.log.dummy_ge, h.log.dummy_le, h.log.dummy_term, h.log.ents, h.log.snapshot_ge, h.log.snapshot_le,
      h.log.indexed, h.log.committed_ge.trans hc, h.log.applied_le.trans hc⟩
  · rw [hlog]
    exact h.entries
  · rw [hlog]
    exact h.snapshot
  · rw [hlog]
    exact h.nonzero
  · rw [RaftNode.storage, hlog]
    exact h.reach

/-! ### A snapshot that the server takes -/

theorem mem_itemEntries {e : Entry} (h : e ∈ itemEntries vs) : .entry e ∈ vs := by
  obtain ⟨v, hv, he⟩ := List.mem_flatMap.mp h
  cases v with
  | entry e' => rwa [List.mem_singleton.mp he]
  | state hs => cases he
  | snapshot s => cases he

theorem Entry.bounds {e : Entry} (h : MessagePack.Fits e.toObj) : e.index < 2 ^ 64 ∧ e.term < 2 ^ 64 := by
  obtain - | - | - | - | ⟨-, hall⟩ := h
  have hterm := hall (.uint e.term) (by simp)
  have hindex := hall (.uint e.index) (by simp)
  cases hterm
  cases hindex
  exact ⟨by assumption, by assumption⟩

/-- What the storage says of an index behind the start is what the records say. -/
theorem Kept.entry {l : RaftLog} (h : Kept x t vs l) (hs : Replayable mp x t vs) {i : Nat} {e : Entry} (hx : x < i)
    (hd : l.storage.dummy.index ≤ i) (he : l.storage.all[i - l.storage.dummy.index]? = some e) :
    i < 2 ^ 64 ∧ e.term < 2 ^ 64 ∧ ∃ e', (view x (itemEntries vs))[i - x - 1]? = some e' ∧ e'.term = e.term := by
  have hge := h.dummy_ge
  have hfound : ∃ e', (view x (itemEntries vs))[i - x - 1]? = some e' ∧ e'.term = e.term := by
    rcases Nat.eq_or_lt_of_le hd with heq | hlt
    · rw [heq, Nat.sub_self] at he
      obtain rfl := Option.some.inj he
      rcases h.dummy_term with ⟨hsame, -⟩ | ⟨-, hterm⟩
      · omega
      · rw [heq] at hterm
        exact hterm
    · obtain ⟨k, hk⟩ : ∃ k, i - l.storage.dummy.index = k + 1 := ⟨i - l.storage.dummy.index - 1, by omega⟩
      rw [hk, MemoryStorage.all, List.getElem?_cons_succ] at he
      obtain ⟨rest, hrest⟩ := h.ents
      have hview : ((view x (itemEntries vs)).drop (l.storage.dummy.index - x))[k]? = some e := by
        rw [← hrest, List.getElem?_append_left (List.getElem?_eq_some_iff.mp he).1]
        exact he
      rw [List.getElem?_drop, show l.storage.dummy.index - x + k = i - x - 1 by omega] at hview
      exact ⟨e, hview, rfl⟩
  obtain ⟨e', he', hterm⟩ := hfound
  obtain ⟨hindex, hbound⟩ := Entry.bounds (hs.fits _ (mem_itemEntries (view_mem (List.mem_of_getElem? he')))).1
  have hat := view_indexed hs.fills _ e' he'
  exact ⟨by omega, hterm ▸ hbound, e', he', hterm⟩

/-- A snapshot is taken behind the last one, of an entry that is stored. -/
theorem createSnapshot_made {st st' : MemoryStorage} {i : Nat} {cs : ConfState} {data : Bytes} {status : Status}
    {snap : Snapshot} (h : st.createSnapshot i (some cs) data = .ok (status, snap, st')) (hok : status.isOk = true) :
    st.snapshot.metadata.index < i ∧ st.dummy.index ≤ i ∧ snap.metadata.index = i ∧ snap.data = data ∧
      st' = { st with snapshot := snap } ∧ ∃ e, st.all[i - st.dummy.index]? = some e ∧ e.term = snap.metadata.term := by
  rcases st.createSnapshot_cases i (some cs) data with
    ⟨-, status₁, hrefused, hold⟩ | ⟨-, -, _, herror⟩ | ⟨hlt, hlow, -, e, snap₁, he, hindex, hterm, hdata, hnew⟩
  · obtain ⟨rfl, -⟩ := Prod.mk.inj (Except.ok.inj (hold.symm.trans h))
    cases hrefused.symm.trans hok
  · cases herror.symm.trans h
  · obtain ⟨rfl, rfl⟩ := Prod.mk.inj (Prod.mk.inj (Except.ok.inj (hnew.symm.trans h))).2
    exact ⟨hlt, hlow, hindex, hdata, rfl, e, he, hterm.symm⟩

/-- Only the entries and the last hard state of the records count. -/
theorem Kept.congr {l : RaftLog} {vs' : List WalItem} (h : Kept x t vs l) (hents : itemEntries vs' = itemEntries vs)
    (hcom : itemCommit vs' = itemCommit vs) : Kept x t vs' l where
  dummy_ge := h.dummy_ge
  dummy_le := by
    rw [hcom]
    exact h.dummy_le
  dummy_term := by
    rw [hents]
    exact h.dummy_term
  ents := by
    rw [hents]
    exact h.ents
  snapshot_ge := h.snapshot_ge
  snapshot_le := by
    rw [hcom]
    exact h.snapshot_le
  indexed := h.indexed
  committed_ge := by
    rw [hcom]
    exact h.committed_ge
  applied_le := h.applied_le

theorem Working.restored (h : Working mp crc rd x t vs buf s) {st : MemoryStorage}
    (hlast : st.lastIndex = s.storage.lastIndex) (hkept : Kept x t (vs ++ buf) { s.log with storage := st }) : Working mp crc rd x t vs buf (s.setStorage st) := by
  have hbase : (s.setStorage st).log.base = s.log.base := by
    change (s.log.unstable.snapshot.map _).getD st.lastIndex = _
    rw [hlast]
    rfl
  refine ⟨⟨h.toHeld.setStorage st, hkept⟩, h.entries, h.snapshot, h.nonzero, ?_, hlast ▸ h.reach, h.handed, h.state⟩
  refine ⟨h.tail.above, ?_, fun hnil => ?_, h.tail.committed_lt, h.tail.pending⟩
  · rw [hbase]
    exact h.tail.offset_le
  · rw [hbase]
    exact h.tail.offset_eq hnil

/-- The storage may be compacted up to what is committed. -/
theorem Working.compacted (h : Working mp crc rd x t vs buf s) {i : Nat} {status : Status} {st : MemoryStorage}
    (hi : i ≤ itemCommit (vs ++ buf)) (hc : s.storage.compact i = .ok (status, st)) :
    Working mp crc rd x t vs buf (s.setStorage st) := by
  rcases RaftLog.compact_cases (h.log.stored h.all) hc with ⟨-, rfl⟩ | ⟨e, hlt, he, rfl⟩
  · exact h.restored rfl h.log
  · have hge := h.log.dummy_ge
    change s.log.storage.dummy.index < i at hlt
    have hall : s.log.storage.all[i - s.log.storage.dummy.index]? = some e := by
      obtain ⟨k, hk⟩ : ∃ k, i - s.log.storage.dummy.index = k + 1 := ⟨i - s.log.storage.dummy.index - 1, by omega⟩
      have hat : s.log.storage.ents[i - s.log.storage.dummy.index - 1]? = some e := he
      rw [hk, Nat.add_sub_cancel] at hat
      rw [hk, MemoryStorage.all, List.getElem?_cons_succ]
      exact hat
    obtain ⟨-, -, hview⟩ := h.log.entry h.all (lt_of_le_of_lt hge hlt) hlt.le hall
    have hlen := (List.getElem?_eq_some_iff.mp he).1
    refine h.restored ?_ ⟨hge.trans hlt.le, hi, Or.inr ⟨lt_of_le_of_lt hge hlt, hview⟩, ?_, h.log.snapshot_ge,
      h.log.snapshot_le, h.log.indexed, h.log.committed_ge, h.log.applied_le⟩
    · simp only [MemoryStorage.lastIndex, RaftNode.storage, List.length_drop] at hlen ⊢
      omega
    · have hdrop := h.log.ents.drop (i - s.log.storage.dummy.index)
      rw [List.drop_drop, show s.log.storage.dummy.index - x + (i - s.log.storage.dummy.index) = i - x by omega] at hdrop
      exact hdrop

/-- The disk of a process that works is one to start from. -/
theorem Held.canRestart (h : Held mp crc x t vs buf s) : CanRestart mp crc s.disk := ⟨x, t, vs, [], h.restartable⟩

/-- The snapshot of an applied entry is recorded. -/
theorem Working.marked (hmp : mp.Reliable) (h : Working mp crc rd x t vs buf s) {snap : Snapshot} {e : Entry}
    (hnew : s.storage.snapshot.metadata.index < snap.metadata.index) (hindex : snap.metadata.index = s.appliedIndex)
    (hlow : s.storage.dummy.index ≤ snap.metadata.index)
    (he : s.storage.all[snap.metadata.index - s.storage.dummy.index]? = some e) (hterm : e.term = snap.metadata.term) :
    snap.metadata.index < 2 ^ 64 ∧ snap.metadata.term < 2 ^ 64 ∧ x < snap.metadata.index ∧
      Replayable mp x t (vs ++ buf ++ [.snapshot snap.mark]) := by
  have hx : x < snap.metadata.index := lt_of_le_of_lt h.log.snapshot_ge hnew
  obtain ⟨hi, ht, e', he', hterm'⟩ := h.log.entry h.all hx hlow he
  rw [hterm] at ht hterm'
  exact ⟨hi, ht, hx, h.all.addSnapshot (s := snap.mark) (WalItem.fits_snapshot hmp hi ht) hx (hindex.trans_le h.applied)
    ⟨e', he', hterm'⟩⟩

/-- A snapshot of the applied entry with the map of the store. -/
structure RaftNode.Takes (mp : Msgpack) (s : RaftNode κ) (snap : Snapshot) : Prop where
  index : snap.metadata.index = s.appliedIndex
  data : snap.data = s.store.getSnapshot mp
  index_lt : snap.metadata.index < 2 ^ 64
  term_lt : snap.metadata.term < 2 ^ 64

/-- What the question whether a snapshot is due leaves: the process as it was, or the record and the file
of a snapshot. -/
def Triggered (mp : Msgpack) (crc : Bytes → UInt32) (rd : Ready) (x t : Nat) (vs buf : List WalItem) (s s' : RaftNode κ) :
    Prop :=
  s'.store = s.store ∧ s'.appliedIndex = s.appliedIndex ∧
    (s'.snaps = s.snaps ∧ Working mp crc rd x t vs buf s' ∨
      ∃ snap, s.Takes mp snap ∧ snap.data.length < 2 ^ 32 ∧
        s'.snaps = s.snaps.insert (snapName snap.metadata.term snap.metadata.index) (snapFile mp crc snap) ∧
        Working mp crc rd x t (vs ++ buf ++ [.snapshot snap.mark]) [] s')

/-- A snapshot that is due is taken. A crash leaves a part of its record, or all of it and a part of its
file. -/
theorem Working.trigger_guarded {C : Disk → Prop} (hmp : mp.Reliable) (h : Working mp crc rd x t vs buf s)
    (hstart : C s.disk)
    (hmark : ∀ snap b, s.Takes mp snap → Restartable mp crc x t vs (buf ++ [.snapshot snap.mark]) { wal := b, snaps := s.snaps } →
      C { wal := b, snaps := s.snaps })
    (hfile : ∀ snap part b, s.Takes mp snap → snap.data.length < 2 ^ 32 → part <+: snapFile mp crc snap →
      Restartable mp crc x t (vs ++ buf ++ [.snapshot snap.mark]) []
        { wal := b, snaps := s.snaps.insert (snapName snap.metadata.term snap.metadata.index) part } →
      C { wal := b, snaps := s.snaps.insert (snapName snap.metadata.term snap.metadata.index) part }) :
    Guarded C (Triggered mp crc rd x t vs buf s) s (s.maybeTriggerSnapshot mp crc) := by
  unfold RaftNode.maybeTriggerSnapshot
  refine Guarded.ite (fun _ => .pure hstart rfl ⟨rfl, rfl, Or.inl ⟨rfl, h⟩⟩) fun _ => ?_
  refine Guarded.lift hstart fun p hcreate => ?_
  obtain ⟨status, snap, st⟩ := p
  refine Guarded.ite (fun _ => .error hstart) fun hok => ?_
  obtain ⟨hnew, hlow, hindex, hdata, rfl, e, he, hterm⟩ := createSnapshot_made hcreate (by simpa using hok)
  rw [← hindex] at hnew hlow he
  obtain ⟨hi, ht, hx, hmarked⟩ := h.marked hmp hnew hindex hlow he hterm
  have htakes : s.Takes mp snap := ⟨hindex, hdata, hi, ht⟩
  have hcom : itemCommit (vs ++ buf ++ [.snapshot snap.mark] ++ []) = itemCommit (vs ++ buf) := by
    rw [List.append_nil, itemCommit_snapshot]
  have hitems : itemEntries (vs ++ buf ++ [.snapshot snap.mark] ++ []) = itemEntries (vs ++ buf) := by
    rw [List.append_nil, itemEntries_snapshot]
  have hsub : vs ⊆ vs ++ buf ++ [.snapshot snap.mark] := by simp
  have hfiles : snap.data.length < 2 ^ 32 → ∀ part, part <+: snapFile mp crc snap →
      Files mp crc (s.snaps.insert (snapName snap.metadata.term snap.metadata.index) part) x t
        (vs ++ buf ++ [.snapshot snap.mark]) := fun hlen part hpart =>
    (h.files.mono hsub).insert (hx.trans hi) hi hx (hmp.delimits _ (Snapshot.fits hlen hi ht)) (by simp) hpart
  have hsound : ∀ pre, pre <+: [] → Replayable mp x t (vs ++ buf ++ [.snapshot snap.mark] ++ pre) := by
    intro pre hpre
    rw [List.prefix_nil.mp hpre, List.append_nil]
    exact hmarked
  have hwhole : snap.data.length < 2 ^ 32 → ∀ part, part <+: snapFile mp crc snap → ∀ b,
      b = itemBytes mp crc (vs ++ buf ++ [.snapshot snap.mark]) →
      C { wal := b, snaps := s.snaps.insert (snapName snap.metadata.term snap.metadata.index) part } := by
    rintro hlen part hpart b rfl
    exact hfile snap part _ htakes hlen hpart
      (.of_sound (List.prefix_refl _) (by rw [List.append_nil]) hsound (hfiles hlen part hpart))
  refine Guarded.of_disk (s.setStorage { s.storage with snapshot := snap }) rfl ?_
  refine Guarded.bind (Q := fun s' => snap.data.length < 2 ^ 32 ∧ s'.store = s.store ∧ s'.appliedIndex = s.appliedIndex ∧
      s'.snaps = s.snaps.insert (snapName snap.metadata.term snap.metadata.index) (snapFile mp crc snap) ∧
      Working mp crc rd x t (vs ++ buf ++ [.snapshot snap.mark]) [] s')
    (saveSnap_guarded h.stored (fun b hlow hhigh => ?_) (fun hlen part hpart => hwhole hlen part hpart _ rfl)
      fun hlen w hw => ?_) ?_
  · refine hmark snap b htakes (.of_sound hlow (by rw [← List.append_assoc]; exact hhigh) (fun pre hpre => ?_) h.files)
    rcases List.prefix_concat_iff.mp hpre with rfl | hbefore
    · rw [← List.append_assoc]
      exact hmarked
    · exact h.sound pre hbefore
  · have hkept : Kept x t (vs ++ buf) { s.log with storage := { s.storage with snapshot := snap } } :=
      ⟨h.log.dummy_ge, h.log.dummy_le, h.log.dummy_term, h.log.ents, hx.le, hindex.trans_le h.applied, h.log.indexed,
        h.log.committed_ge, h.log.applied_le⟩
    have hset := h.restored (show MemoryStorage.lastIndex { s.storage with snapshot := snap } = _ from rfl) hkept
    refine ⟨hlen, rfl, rfl, rfl, ⟨⟨⟨h.id, hw, hsound, hfiles hlen _ (List.prefix_refl _), ?_, ?_⟩,
      hset.log.congr hitems hcom⟩, h.entries, h.snapshot, h.nonzero, hset.tail, h.reach, ?_, ?_⟩⟩
    · rw [hcom]
      exact h.prev
    · rw [hcom]
      exact h.applied
    · rw [hcom]
      exact h.handed
    · rw [hcom]
      exact h.state
  · rintro s₁ ⟨hlen, hstore, happlied, hsnaps, hwork⟩
    have hsaved : C s₁.disk := by
      rw [RaftNode.disk, hsnaps]
      exact hwhole hlen _ (List.prefix_refl _) _ hwork.stored.backContent
    have hle := hwork.applied
    refine Guarded.lift hsaved fun p hcompact => ?_
    obtain ⟨status', st⟩ := p
    refine Guarded.ite (fun _ => .error hsaved) fun _ => ?_
    refine .pure hsaved rfl ⟨hstore, happlied, Or.inr ⟨snap, htakes, hlen, hsnaps,
      (hwork.compacted ?_ hcompact).published (.of_same rfl rfl rfl rfl fun hle => hle)⟩⟩
    split
    · exact (Nat.sub_le _ _).trans hle
    · rw [happlied] at hle
      omega

/-! ### The end of a round -/

/-- Once the `Ready` is reported, the process runs as before. -/
theorem Working.advanced (h : Working mp crc rd x t vs buf s) :
    Live mp crc x t vs buf { s with node := s.node.advance rd } := by
  obtain ⟨hstorage, happlied, -, -⟩ := advanceLog_leaves rd h.nonzero
  obtain ⟨hnone, hempty⟩ := advanceLog_empties h.log.indexed h.entries.symm h.snapshot h.nonzero
  have hreach := advanceLog_reach rd h.nonzero
  have hcommitted := advanceLog_committed s.log rd
  have hlog : ({ s with node := s.node.advance rd } : RaftNode κ).log = RawNode.advanceLog s.log rd := rfl
  have hoffset : (RawNode.advanceLog s.log rd).unstable.offset = s.storage.lastIndex + 1 := by
    rw [Unstable.reach, hempty, List.length_nil, Nat.add_zero] at hreach
    rw [hreach, h.reach]
  have hbase : (RawNode.advanceLog s.log rd).base = s.storage.lastIndex := by
    rw [RaftLog.base, hnone, hstorage]
    rfl
  refine ⟨⟨⟨h.id, h.stored, h.sound, h.files, ?_, h.applied⟩, ?_⟩, ?_, fun snap hsome => ?_⟩
  · change (if !rd.hardState.isEmptyState then rd.hardState else s.node.prevHardState).commit ≤ _
    split
    · rename_i hne
      exact h.state (by simpa using hne)
    · exact h.prev
  · rw [hlog]
    refine ⟨?_, ?_, ?_, ?_, ?_, ?_, ?_, ?_, ?_⟩
    · rw [hstorage]
      exact h.log.dummy_ge
    · rw [hstorage]
      exact h.log.dummy_le
    · rw [hstorage]
      exact h.log.dummy_term
    · rw [hstorage]
      exact h.log.ents
    · rw [hstorage]
      exact h.log.snapshot_ge
    · rw [hstorage]
      exact h.log.snapshot_le
    · rw [hempty]
      exact .nil _
    · rw [hcommitted]
      exact h.log.committed_ge
    · rw [hcommitted, happlied]
      split
      · exact h.handed.2.trans h.log.committed_ge
      · exact h.log.applied_le
  · rw [hlog]
    refine ⟨fun hne => absurd hempty hne, ?_, fun _ => ?_, ?_, fun snap hsome => ?_⟩
    · rw [hoffset, hbase]
    · rw [hoffset, hbase]
    · rw [hcommitted, hempty, hoffset, h.reach]
      exact h.tail.committed_lt
    · rw [hnone] at hsome
      cases hsome
  · rw [hlog, hnone] at hsome
    cases hsome

/-- The storing and publishing of a `Ready` that is saved, and what is left of the round. -/
theorem Staged.rest_guarded {C : Disk → Prop} {Q : RaftNode κ → Prop} (h : Staged mp crc rd x t vs buf s)
    (hstart : C s.disk)
    (hrest : ∀ st ents s₁, s.storage.append rd.entries = .ok st →
      (s.setStorage st).entriesToApply rd.committedEntries = .ok ents →
      RaftNode.publishEntries mp ents (s.setStorage st) = .ok s₁ → s₁.disk = s.disk → Working mp crc rd x t vs buf s₁ →
      Guarded C (fun s' => Q { s' with node := s'.node.advance rd }) s₁ (s₁.maybeTriggerSnapshot mp crc)) :
    Guarded C Q s (do
      let st ← s.storage.append rd.entries
      let s := s.setStorage st
      let ents ← s.entriesToApply rd.committedEntries
      let s ← s.publishEntries mp ents
      let s ← s.maybeTriggerSnapshot mp crc
      pure { s with node := s.node.advance rd }) := by
  refine Guarded.lift hstart fun st happend => ?_
  have hstored := h.append happend
  refine Guarded.of_disk (s.setStorage st) rfl ?_
  refine Guarded.lift hstart fun ents hents => ?_
  refine Guarded.lift hstart fun s₁ hpublish => ?_
  have hpublishes := publishEntries_publishes
    (fun e he => h.handed.1 e (RaftNode.entriesToApply_subset hents he)) hpublish
  have hdisk : s₁.disk = (s.setStorage st).disk := by
    rw [RaftNode.disk, hpublishes.wal, hpublishes.snaps]
    rfl
  refine Guarded.of_disk s₁ hdisk ?_
  have htrigger := hrest st ents s₁ happend hents hpublish hdisk (hstored.published hpublishes)
  refine Guarded.bind htrigger.settled fun s₂ hq => ?_
  exact .pure hq.1 rfl hq.2

/-- A process can start from each disk that a crash leaves then. -/
theorem Staged.rest_canRestart (hmp : mp.Reliable) (h : Staged mp crc rd x t vs buf s) :
    Guarded (CanRestart mp crc) (fun s' => ∃ x' t' vs' buf', Live mp crc x' t' vs' buf' s') s (do
      let st ← s.storage.append rd.entries
      let s := s.setStorage st
      let ents ← s.entriesToApply rd.committedEntries
      let s ← s.publishEntries mp ents
      let s ← s.maybeTriggerSnapshot mp crc
      pure { s with node := s.node.advance rd }) := by
  refine h.rest_guarded h.canRestart fun st ents s₁ _ _ _ hdisk hwork => ?_
  refine (hwork.trigger_guarded hmp hwork.canRestart (fun snap b _ hd => ⟨x, t, vs, _, hd⟩)
    fun snap part b _ _ _ hd => ⟨x, t, _, [], hd⟩).weaken ?_
  rintro s₂ ⟨-, -, ⟨-, hsame⟩ | ⟨snap, -, -, -, hmarked⟩⟩
  · exact ⟨x, t, vs, buf, hsame.advanced⟩
  · exact ⟨x, t, _, [], hmarked.advanced⟩

/-- A node that only handed out a `Ready` is the same to its process. -/
theorem Live.handing (h : Live mp crc x t vs buf s) {n : RawNode} (hrd : s.node.ready = .ok (rd, n)) :
    Live mp crc x t vs buf { s with node := n } := by
  obtain ⟨-, -, -, hlog⟩ := ready_spec hrd
  have hsame : ({ s with node := n } : RaftNode κ).log = s.log := hlog
  refine ⟨⟨⟨h.id, h.stored, h.sound, h.files, ?_, h.applied⟩, ?_⟩, ?_, ?_⟩
  · rw [(ready_hardState hrd).2]
    exact h.prev
  · rw [hsame]
    exact h.log
  · rw [hsame]
    exact h.tail
  · rw [hsame]
    exact h.pending

/-- A `Ready` without a snapshot is saved as it is. -/
theorem Live.plain_guarded {C : Disk → Prop} (hmp : mp.Reliable) (h : Live mp crc x t vs buf s) (hf : Fine mp crc s)
    {n : RawNode} (hrd : s.node.ready = .ok (rd, n)) (hnone : s.log.unstable.snapshot = none)
    (hcrash : ∀ ws b, ws <+: buf ++ saveItems rd.hardState rd.entries →
      Restartable mp crc x t vs ws { wal := b, snaps := s.snaps } → C { wal := b, snaps := s.snaps }) :
    Guarded C (fun s' => ∃ w ws buf', s' = { s with node := n, wal := w } ∧
        ws ++ buf' = buf ++ saveItems rd.hardState rd.entries ∧ Staged mp crc rd x t (vs ++ ws) buf' s')
      { s with node := n }
      (({ s with node := n }).walCall (fun w => w.save mp crc rd.hardState rd.entries) >>= fun s₁ =>
        s₁.installSnapshot mp crc rd.snapshot) := by
  obtain ⟨-, -, hsnap, -⟩ := ready_spec hrd
  have hempty : rd.snapshot.isEmpty = true := by
    rw [hsnap, show s.node.raft.raftLog.unstable.snapshot = none from hnone]
    rfl
  have hsame : ∀ s₁ : RaftNode κ, s₁.installSnapshot mp crc rd.snapshot = pure s₁ := by
    intro s₁
    rw [RaftNode.installSnapshot, if_pos hempty]
  simp only [hsame, Prog.bind_pure]
  exact h.save_guarded hmp hf hrd hnone hcrash

/-- A round does nothing, or it saves its `Ready` and goes on from there. -/
theorem pullReadyEvents_guarded {C : Disk → Prop} {Q : RaftNode κ → Prop} (hstart : C s.disk) (hidle : Q s)
    (hhand : ∀ rd n, s.node.ready = .ok (rd, n) → Q { s with node := n })
    (hround : ∀ rd n, s.node.ready = .ok (rd, n) → Guarded C Q { s with node := n } (do
      let s ← (({ s with node := n }).walCall (fun w => w.save mp crc rd.hardState rd.entries) >>= fun s =>
        s.installSnapshot mp crc rd.snapshot)
      let st ← s.storage.append rd.entries
      let s := s.setStorage st
      let ents ← s.entriesToApply rd.committedEntries
      let s ← s.publishEntries mp ents
      let s ← s.maybeTriggerSnapshot mp crc
      pure { s with node := s.node.advance rd })) : Guarded C Q s (s.pullReadyEvents mp crc) := by
  unfold RaftNode.pullReadyEvents
  refine Guarded.ite (fun _ => .pure hstart rfl hidle) fun _ => ?_
  refine Guarded.lift hstart fun p hrd => ?_
  obtain ⟨rd, n⟩ := p
  refine Guarded.of_disk { s with node := n } rfl ?_
  refine Guarded.ite (fun _ => .pure hstart rfl (hhand rd n hrd)) fun _ => ?_
  have hrest := hround rd n hrd
  simp only [Prog.bind_assoc] at hrest
  simp only [RaftNode.applyReady, Prog.bind_assoc]
  exact hrest

/-- A crash in a round leaves a disk to start from, as far as a leader's snapshot is covered. -/
theorem Live.round_guarded (hmp : mp.Reliable) (h : Live mp crc x t vs buf s) (hf : Fine mp crc s) :
    Guarded (fun d => Covered mp crc s d → CanRestart mp crc d)
      (fun s' => ∃ x' t' vs' buf', Live mp crc x' t' vs' buf' s') s (s.pullReadyEvents mp crc) := by
  refine pullReadyEvents_guarded (fun _ => h.canRestart) ⟨x, t, vs, buf, h⟩
    (fun rd n hrd => ⟨x, t, vs, buf, h.handing hrd⟩) fun rd n hrd => ?_
  have hsaved : Guarded (fun d => Covered mp crc s d → CanRestart mp crc d)
      (fun s' => ∃ x' t' vs' buf', Staged mp crc rd x' t' vs' buf' s') { s with node := n }
      (({ s with node := n }).walCall (fun w => w.save mp crc rd.hardState rd.entries) >>= fun s₁ =>
        s₁.installSnapshot mp crc rd.snapshot) := by
    cases hsnap : s.log.unstable.snapshot with
    | none =>
        refine (h.plain_guarded hmp hf hrd hsnap fun ws b _ hd _ => ⟨x, t, vs, ws, hd⟩).weaken ?_
        rintro s₁ ⟨w, ws, buf', -, -, hstaged⟩
        exact ⟨x, t, vs ++ ws, buf', hstaged⟩
    | some snap => exact h.install_guarded hmp hf hrd hsnap
  refine Guarded.bind hsaved fun s₁ hstaged => ?_
  obtain ⟨x', t', vs', buf', hstaged⟩ := hstaged
  exact (hstaged.rest_canRestart hmp).mono fun _ hd _ => hd

/-! ### Between the rounds -/

/-- What was handed out before does not change in a call. -/
theorem call_prev {n n' : RawNode} {a : NodeAction} (ha : a.IsCall) (h : n.run a = .ok n') :
    n'.prevHardState = n.prevHardState := by
  cases call_called ha h with
  | refuses same => rw [same]
  | steps msg message led numbered r' st step node => rw [node]
  | ticks r' tick node => rw [node]
  | configures cc cs apply => exact applyConfChange_prev apply

theorem Live.call (h : Live mp crc x t vs buf s) {a : NodeAction} {n : RawNode} (ha : a.IsCall)
    (hrun : s.node.run a = .ok n) : Live mp crc x t vs buf { s with node := n } := by
  have hgrows : s.log.Grows True n.raft.raftLog := call_grows ha hrun
  have hcom := h.log.committed_ge
  refine ⟨⟨⟨h.id, h.stored, h.sound, h.files, ?_, h.applied⟩, h.log.grows hgrows⟩, hgrows.tail trivial _ hcom h.tail,
    fun snap hsome => ?_⟩
  · rw [call_prev ha hrun]
    exact h.prev
  · rcases hgrows.snapshot with hsame | ⟨new, hnew, hlt, -⟩
    · exact h.pending snap (hsame.symm.trans hsome)
    · obtain rfl := Option.some.inj (hnew.symm.trans hsome)
      omega

/-- Neither the store nor the count counts. -/
theorem Live.of_same (h : Live mp crc x t vs buf s) (hid : s'.id = s.id) (hnode : s'.node = s.node) (hwal : s'.wal = s.wal)
    (hsnaps : s'.snaps = s.snaps) (happlied : s'.appliedIndex = s.appliedIndex) : Live mp crc x t vs buf s' := by
  have hlog : s'.log = s.log := by rw [RaftNode.log, hnode, RaftNode.log]
  refine ⟨⟨⟨hid ▸ h.id, hwal ▸ h.stored, h.sound, hsnaps ▸ h.files, ?_, ?_⟩, hlog ▸ h.log⟩, hlog ▸ h.tail, hlog ▸ h.pending⟩
  · rw [hnode]
    exact h.prev
  · rw [happlied]
    exact h.applied

/-- Before the timer starts, the state of the storage is taken over. -/
theorem Live.scheduled (h : Live mp crc x t vs buf s) (hs : s.schedule mp = .ok s') : Live mp crc x t vs buf s' := by
  obtain ⟨store, -, hs⟩ := bind_ok hs
  obtain rfl := Except.ok.inj hs
  exact ⟨⟨⟨h.id, h.stored, h.sound, h.files, h.prev, h.log.snapshot_le⟩, h.log⟩, h.tail, h.pending⟩

/-! ### Lives of a server -/

/-- The server and what has become of it: it starts on an empty disk, it lives, and it starts again on
what a crash in a round left. Every round can be written, and no crash falls between the records and the
file of a leader's snapshot. -/
inductive Lives (mp : Msgpack) (crc : Bytes → UInt32) (id peers : Nat) : RaftNode κ → Prop
  | boots {s s' : RaftNode κ} {ftell : Nat} {draws : Nat → Nat} :
      RaftNode.new mp crc id peers none ∅ ftell draws = .ok s → s.schedule mp = .ok s' → Lives mp crc id peers s'
  | goesOn {s s' : RaftNode κ} :
      Lives mp crc id peers s → RaftNode.Step mp crc (Fine mp crc) s s' → Lives mp crc id peers s'
  | restarts {s s₁ s' : RaftNode κ} {ws : List DiskWrite} {ftell : Nat} {draws : Nat → Nat} :
      Lives mp crc id peers s → ws <+: (s.pullReadyEvents mp crc).writes → ws = [] ∨ Fine mp crc s →
      Covered mp crc s (ws.foldl Disk.write s.disk) →
      RaftNode.new mp crc id peers (some (ws.foldl Disk.write s.disk).wal) (ws.foldl Disk.write s.disk).snaps ftell draws =
        .ok s₁ →
      s₁.schedule mp = .ok s' → Lives mp crc id peers s'

/-- What a crash leaves of a process that is sound. -/
theorem Live.crashed (hmp : mp.Reliable) (h : Live mp crc x t vs buf s) {ws : List DiskWrite}
    (hws : ws <+: (s.pullReadyEvents mp crc).writes) (hf : ws = [] ∨ Fine mp crc s)
    (hcovered : Covered mp crc s (ws.foldl Disk.write s.disk)) : CanRestart mp crc (ws.foldl Disk.write s.disk) := by
  rcases hf with rfl | hf
  · exact h.canRestart
  · exact (h.round_guarded hmp hf).crash ws hws hcovered

/-- Whatever happens to a server, what it has on the disk and in memory stays sound. -/
theorem Lives.live (hmp : mp.Reliable) {id peers : Nat} (h : Lives mp crc id peers s) :
    id ≠ 0 ∧ ∃ x t vs buf, Live mp crc x t vs buf s := by
  induction h with
  | boots hnew hschedule => exact ⟨new_id hmp hnew, 0, 0, _, _, (new_created hmp hnew).1.scheduled hschedule⟩
  | goesOn _ hstep ih =>
      obtain ⟨hid, x, t, vs, buf, hlive⟩ := ih
      refine ⟨hid, ?_⟩
      cases hstep with
      | call ha hrun => exact ⟨x, t, vs, buf, hlive.call ha hrun⟩
      | request => exact ⟨x, t, vs, buf, hlive.of_same rfl rfl rfl rfl rfl⟩
      | round hf hr =>
          obtain ⟨-, hends⟩ := (hlive.round_guarded hmp hf).ends _ hr
          exact hends
  | restarts _ hws hf hcovered hnew hschedule ih =>
      obtain ⟨hid, x, t, vs, buf, hlive⟩ := ih
      refine ⟨hid, ?_⟩
      obtain ⟨x', t', vs', ws', hrestart⟩ := hlive.crashed hmp hws hf hcovered
      obtain ⟨s₁, y, u, vs₁, hnew', hlive', -⟩ := hrestart.new hmp hid _ _ _
      obtain rfl := Except.ok.inj (hnew.symm.trans hnew')
      exact ⟨y, u, vs₁, [], hlive'.scheduled hschedule⟩

/-- Over all lives of a server: after a crash at any byte of a round the constructor goes through, and the
commit index that it finds lies between the snapshot and the end of the log. -/
theorem crash_restarts (hmp : mp.Reliable) {id peers : Nat} (h : Lives mp crc id peers s) {ws : List DiskWrite}
    (hws : ws <+: (s.pullReadyEvents mp crc).writes) (hf : ws = [] ∨ Fine mp crc s)
    (hcovered : Covered mp crc s (ws.foldl Disk.write s.disk)) (ftell : Nat) (draws : Nat → Nat) :
    ∃ s₁ : RaftNode κ, RaftNode.new mp crc id peers (some (ws.foldl Disk.write s.disk).wal)
        (ws.foldl Disk.write s.disk).snaps ftell draws = .ok s₁ ∧
      s₁.storage.snapshot.metadata.index ≤ s₁.storage.hardState.commit ∧
      s₁.storage.hardState.commit ≤ s₁.storage.lastIndex := by
  obtain ⟨hid, x, t, vs, buf, hlive⟩ := h.live hmp
  obtain ⟨x', t', vs', ws', hrestart⟩ := hlive.crashed hmp hws hf hcovered
  obtain ⟨s₁, y, u, vs₁, hnew, -, hge, hle, -⟩ := hrestart.new hmp hid peers ftell draws
  exact ⟨s₁, hnew, hge, hle⟩

/-- The second member catches the first one up with the map of an empty store. -/
def emptySnapshot : Message :=
  { type := .msgSnap, from_ := 2, to_ := 1, term := 2
    snapshot :=
      { data := ({} : RedisStore Unit).getSnapshot messagePack
        metadata := { index := 5, term := 2, confState := { nodes := [1, 2, 3] } } } }

/-- The first member of three on an empty disk, its first round, and the snapshot that comes in. -/
def hearSnapshot : Result (RaftNode Unit × RaftNode Unit) := do
  let s₁ ← RaftNode.new messagePack crc32 1 3 none ∅ 0 fun _ => 0
  let s₀ ← s₁.schedule messagePack
  let s ← (s₀.pullReadyEvents messagePack crc32).result
  let n ← s.node.run (.step emptySnapshot)
  .ok (s₀, { s with node := n })

/-- All that is to be written has small numbers and small entries. -/
def RaftNode.Small (s : RaftNode Unit) : Prop :=
  (∀ e ∈ s.log.unstable.entries, e.term < 2 ^ 64 ∧ e.index < 2 ^ 64 ∧ e.data.length < 2 ^ 32 ∧
    (messagePack.pack e.toObj).length ≤ maxWalRecordLen) ∧
  s.node.raft.hardState.term < 2 ^ 64 ∧ s.node.raft.hardState.vote < 2 ^ 64 ∧ s.node.raft.hardState.commit < 2 ^ 64

instance (s : RaftNode Unit) : Decidable s.Small := by
  unfold RaftNode.Small
  infer_instance

theorem RaftNode.Small.fine {s : RaftNode Unit} (h : s.Small)
    (hsnap : ∀ snap, s.log.unstable.snapshot = some snap → MessagePack.Fits snap.toObj ∧
      (readSnap messagePack crc32 {} (snapFile messagePack crc32 snap)).isSome)
    (hdir : s.log.unstable.snapshot ≠ none → s.snaps.keys = []) : Fine messagePack crc32 s where
  entries e he := by
    obtain ⟨hterm, hindex, hdata, hlen⟩ := h.1 e he
    exact ⟨Entry.fits hterm hindex hdata, hlen⟩
  state := HardState.fits h.2.1 h.2.2.1 h.2.2.2
  snapshot snap hsome := by
    obtain ⟨hfits, hreads⟩ := hsnap snap hsome
    refine ⟨hfits, hreads, fun name file hfile => ?_⟩
    have hmem : name ∈ s.snaps.keys := AList.mem_keys.mp (AList.lookup_isSome.mp (by rw [hfile]; rfl))
    rw [hdir (by rw [hsome]; exact Option.some_ne_none snap)] at hmem
    cases hmem

theorem emptySnapshot_isCall : (NodeAction.step emptySnapshot).IsCall := ⟨fun _ => by decide, by rintro ⟨⟩⟩

theorem hearSnapshot_lives {s₀ s : RaftNode Unit} (h : hearSnapshot = .ok (s₀, s))
    (hnone : s₀.log.unstable.snapshot = none)
    (hsome : s.log.unstable.snapshot = some emptySnapshot.snapshot) (hsmall₀ : s₀.Small) (hsmall : s.Small)
    (hdir₀ : s₀.snaps.keys = []) (hdir : s.snaps.keys = []) :
    Lives messagePack crc32 1 3 s ∧ Fine messagePack crc32 s := by
  obtain ⟨s₁, hnew, h⟩ := bind_ok h
  obtain ⟨a₀, hschedule, h⟩ := bind_ok h
  obtain ⟨s₂, hround, h⟩ := bind_ok h
  obtain ⟨n, hn, h⟩ := bind_ok h
  obtain ⟨rfl, rfl⟩ := Prod.mk.inj (Except.ok.inj h)
  have hfine₀ : Fine messagePack crc32 a₀ := hsmall₀.fine (fun snap hs => by rw [hnone] at hs; cases hs) fun _ => hdir₀
  refine ⟨.goesOn (.goesOn (.boots hnew hschedule) (.round hfine₀ hround)) (.call emptySnapshot_isCall hn), hsmall.fine
    (fun snap hs => ?_) fun _ => hdir⟩
  rw [hsome] at hs
  obtain rfl := Option.some.inj hs
  exact ⟨Snapshot.fits (by decide +kernel) (by decide) (by decide), by decide +kernel⟩

/-- A crash behind the file of a leader's snapshot. -/
theorem crash_restarts_installed : ∃ (s s₁ : RaftNode Unit) (ws : List DiskWrite),
    Lives messagePack crc32 1 3 s ∧ s.log.unstable.snapshot = some emptySnapshot.snapshot ∧
      ws <+: (s.pullReadyEvents messagePack crc32).writes ∧
      RaftNode.new messagePack crc32 1 3 (some (ws.foldl Disk.write s.disk).wal) (ws.foldl Disk.write s.disk).snaps 0
        (fun _ => 0) = .ok s₁ ∧ s₁.storage.snapshot.metadata.index ≤ s₁.storage.hardState.commit := by
  obtain ⟨⟨s₀, s⟩, hrun, heval⟩ := exists_ok_of_any (x := hearSnapshot)
    (p := fun heard => decide (heard.1.log.unstable.snapshot = none ∧
      heard.2.log.unstable.snapshot = some emptySnapshot.snapshot ∧
      heard.1.Small ∧ heard.2.Small ∧ heard.1.snaps.keys = [] ∧ heard.2.snaps.keys = [] ∧
      (((heard.2.pullReadyEvents messagePack crc32).writes.foldl Disk.write heard.2.disk).snaps.lookup
        (snapName emptySnapshot.snapshot.metadata.term emptySnapshot.snapshot.metadata.index)) =
          some (snapFile messagePack crc32 emptySnapshot.snapshot))) (by decide +kernel)
  obtain ⟨hnone, hsome, hsmall₀, hsmall, hdir₀, hdir, hfile⟩ := of_decide_eq_true heval
  obtain ⟨hlives, hfine⟩ := hearSnapshot_lives hrun hnone hsome hsmall₀ hsmall hdir₀ hdir
  obtain ⟨s₁, hnew, hge, -⟩ := crash_restarts messagePack_reliable hlives (List.prefix_refl _) (Or.inr hfine)
    (fun snap hs => by rw [hsome] at hs; obtain rfl := Option.some.inj hs; exact Or.inl hfile) 0 (fun _ => 0)
  exact ⟨s, s₁, _, hlives, hsome, List.prefix_refl _, hnew, hge⟩

/-- A crash between the records of a leader's snapshot and its file: the hard state commits what is in
neither, and the constructor ends the process. -/
theorem crash_before_snapshot_file : ∃ (s : RaftNode Unit) (ws : List DiskWrite),
    Lives messagePack crc32 1 3 s ∧ Fine messagePack crc32 s ∧ ws <+: (s.pullReadyEvents messagePack crc32).writes ∧
      RaftNode.new (κ := Unit) messagePack crc32 1 3 (some (ws.foldl Disk.write s.disk).wal)
        (ws.foldl Disk.write s.disk).snaps 0 (fun _ => 0) = .error "%lu state.commit %lu is out of range [%lu, %lu]" := by
  obtain ⟨⟨s₀, s⟩, hrun, heval⟩ := exists_ok_of_any (x := hearSnapshot)
    (p := fun heard => decide (heard.1.log.unstable.snapshot = none ∧
      heard.2.log.unstable.snapshot = some emptySnapshot.snapshot ∧
      heard.1.Small ∧ heard.2.Small ∧ heard.1.snaps.keys = [] ∧ heard.2.snaps.keys = []) &&
      failsWith "%lu state.commit %lu is out of range [%lu, %lu]" (RaftNode.new (κ := Unit) messagePack crc32 1 3
        (some (((heard.2.pullReadyEvents messagePack crc32).writes.take 23).foldl Disk.write heard.2.disk).wal)
        (((heard.2.pullReadyEvents messagePack crc32).writes.take 23).foldl Disk.write heard.2.disk).snaps 0
        (fun _ => 0)))
    (by decide +kernel)
  obtain ⟨hdec, htext⟩ := Bool.and_eq_true_iff.mp heval
  obtain ⟨hnone, hsome, hsmall₀, hsmall, hdir₀, hdir⟩ := of_decide_eq_true hdec
  obtain ⟨hlives, hfine⟩ := hearSnapshot_lives hrun hnone hsome hsmall₀ hsmall hdir₀ hdir
  exact ⟨s, _, hlives, hfine, List.take_prefix 23 _, eq_error_of_failsWith htext⟩

end RaftEtcd
