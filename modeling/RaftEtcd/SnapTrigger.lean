import RaftEtcd.Cursor
import RaftEtcd.Round
import RaftEtcd.Unapplied

/-! The snapshots that a server takes of itself. The index of the last one, the place where the storage
begins and the applied index move on different paths: with a snapshot of the leader, with the entries of
a round, at a restart. Whatever has happened to the server, taking a snapshot finds the applied entry in
the storage and compacts only what lies far behind it. -/
namespace RaftEtcd

open Journal (Prog)

/-! ### The log that is read back -/

section Replay
variable {mp : Msgpack} {crc : Bytes → UInt32} {start : WalSnapshot} {ents : List (Option Entry)}

/-- Each entry is in the slot of its index. -/
def Slotted (start : WalSnapshot) (ents : List (Option Entry)) : Prop :=
  ∀ k e, ents[k]? = some (some e) → e.index = start.index + 1 + k

theorem Slotted.placeEntry (h : Slotted start ents) (entry : Entry) : Slotted start (Wal.placeEntry start ents entry) := by
  unfold Wal.placeEntry
  split
  · rename_i habove
    intro k e hk
    have hlen : (resizePtrs (entry.index - start.index - 1) ents).length = entry.index - start.index - 1 := by
      rw [resizePtrs, List.length_append, List.length_take, List.length_replicate]
      omega
    rcases Nat.lt_trichotomy k (entry.index - start.index - 1) with hlt | heq | hgt
    · rw [List.getElem?_append_left (by omega), resizePtrs] at hk
      rcases Nat.lt_or_ge k (ents.take (entry.index - start.index - 1)).length with hin | hout
      · rw [List.getElem?_append_left hin, List.getElem?_take, if_pos hlt] at hk
        exact h k e hk
      · rw [List.getElem?_append_right hout, List.getElem?_replicate] at hk
        split at hk <;> cases hk
    · rw [List.getElem?_append_right (by omega), hlen, heq, Nat.sub_self] at hk
      obtain rfl := Option.some.inj (Option.some.inj hk)
      omega
    · rw [List.getElem?_append_right (by omega), List.getElem?_eq_none (by simp only [List.length_singleton]; omega)] at hk
      cases hk
  · exact h

theorem handleRecord_slotted {type : WalType} {data : Bytes} {st st' : WalReading} (h : Slotted start st.ents)
    (hst : Wal.handleRecord mp start type data st = .ok st') : Slotted start st'.ents := by
  obtain ⟨st₁, h₁, hst⟩ := bind_ok hst
  have hents : Slotted start st₁.ents := by
    unfold Wal.handleRecordWalRecord at h₁
    split at h₁
    · obtain ⟨entry, -, h₁⟩ := bind_ok h₁
      rw [← Except.ok.inj h₁]
      exact h.placeEntry entry
    split at h₁
    · obtain ⟨hs, -, h₁⟩ := bind_ok h₁
      rw [← Except.ok.inj h₁]
      exact h
    split at h₁
    · obtain ⟨snap, -, h₁⟩ := bind_ok h₁
      unfold Wal.handleSnapshotRecord at h₁
      split at h₁
      · split at h₁
        · cases h₁
        · rw [← Except.ok.inj h₁]
          exact h
      · rw [← Except.ok.inj h₁]
        exact h
    split at h₁ <;> cases h₁
  rw [← Except.ok.inj hst]
  split <;> exact hents

theorem handleAll_slotted {rs : List (WalType × Bytes)} {st st' : WalReading} (h : Slotted start st.ents)
    (hst : handleAll (Wal.handleRecord mp start) rs st = .ok st') : Slotted start st'.ents := by
  induction rs generalizing st with
  | nil => exact Except.ok.inj hst ▸ h
  | cons r rs ih =>
      rw [handleAll, List.foldlM_cons] at hst
      obtain ⟨st₁, h₁, hst⟩ := bind_ok hst
      exact ih (handleRecord_slotted h h₁) hst

theorem readFile_slotted {file file' : WalFile} {st st' : WalReading} (h : Slotted start st.ents)
    (hst : Wal.readFile mp crc start file st = .ok (file', st')) : Slotted start st'.ents := by
  have hbegin : Slotted start ({ st with matchsnap := false } : WalReading).ents := h
  rw [readFile_processed] at hst
  obtain ⟨st₁, h₁, hst⟩ := bind_ok hst
  split at hst
  · rw [← (Prod.mk.inj (Except.ok.inj hst)).2]
    exact handleAll_slotted hbegin h₁
  · cases hst

theorem readFiles_slotted {files files' : List WalFile} {st st' : WalReading} (h : Slotted start st.ents)
    (hst : Wal.readFiles mp crc start files st = .ok (files', st')) : Slotted start st'.ents := by
  induction files generalizing st files' with
  | nil =>
      rw [← (Prod.mk.inj (Except.ok.inj hst)).2]
      exact h
  | cons file files ih =>
      obtain ⟨⟨file₁, st₁⟩, h₁, hst⟩ := bind_ok hst
      obtain ⟨⟨files₁, st₂⟩, h₂, hst⟩ := bind_ok hst
      obtain ⟨-, rfl⟩ := Prod.mk.inj (Except.ok.inj hst)
      exact ih (readFile_slotted h h₁) h₂

theorem readAll_slotted {w w' : Wal} {hs : HardState} (h : w.readAll mp crc = .ok (w', hs, ents)) :
    Slotted w.start ents := by
  obtain ⟨⟨files, st⟩, hread, h⟩ := bind_ok h
  simp only [Except.ok.injEq, Prod.mk.injEq] at h
  rw [← h.2.2]
  exact readFiles_slotted (fun k e hk => by cases hk) hread

theorem derefEntries_eq {es : List Entry} (h : RaftNode.derefEntries ents = .ok es) : ents = es.map some := by
  induction ents generalizing es with
  | nil => rw [← Except.ok.inj h, List.map_nil]
  | cons slot ents ih =>
      cases slot with
      | none => cases h
      | some e =>
          obtain ⟨rest, hrest, h⟩ := bind_ok h
          rw [← Except.ok.inj h, List.map_cons, ih hrest]

/-- Whatever is on the disk, the storage that is read back is numbered. -/
theorem replayWal_numbered {d : Disk} {ftell : Nat} {r : RaftNode.Replay}
    (h : RaftNode.replayWal mp crc d ftell = .ok r) : IndexedFrom (r.storage.dummy.index + 1) r.storage.ents := by
  unfold RaftNode.replayWal at h
  simp only at h
  obtain ⟨⟨wal, hs, ents⟩, hread, h⟩ := bind_ok h
  obtain ⟨es, hderef, h⟩ := bind_ok h
  obtain ⟨st, hst, h⟩ := bind_ok h
  have hstorage : r.storage = st := by
    rw [← Except.ok.inj h]
    split <;> rfl
  have hes : IndexedFrom ((((Snapshotter.load mp crc d.snaps {}).2).getD {}).metadata.index + 1) es := by
    intro k e hk
    have hents : ents = es.map some := derefEntries_eq hderef
    refine readAll_slotted hread k e ?_
    rw [hents, List.getElem?_map, hk, Option.map_some]
  have hloaded : (RaftNode.loadedStorage (Snapshotter.load mp crc d.snaps {}).2).ents = [] := by
    cases (Snapshotter.load mp crc d.snaps {}).2 with
    | none => rfl
    | some snap =>
        simp only [RaftNode.loadedStorage, MemoryStorage.applySnapshot]
        split <;> rfl
  have hnil : IndexedFrom (((RaftNode.loadedStorage (Snapshotter.load mp crc d.snaps {}).2).setHardState hs).dummy.index + 1)
      ((RaftNode.loadedStorage (Snapshotter.load mp crc d.snaps {}).2).setHardState hs).ents := by
    rw [MemoryStorage.setHardState, hloaded]
    exact .nil _
  obtain ⟨hdummy, hnum⟩ := MemoryStorage.append_numbered hnil hes hst
  rw [hstorage, hdummy]
  exact hnum

end Replay

/-! ### A round -/

namespace Anchored
variable {s : Driver} {d : Nat}

/-- More may be committed. -/
theorem commits (h : Anchored s d) {n : RawNode} {c : Nat} (hc : s.log.committed ≤ c)
    (hlog : n.raft.raftLog = { s.log with committed := c }) (htail : n.raft.raftLog.Tail 0) :
    Anchored { s with node := n } d := by
  have hsame : ({ s with node := n } : Driver).log = { s.log with committed := c } := hlog
  refine ⟨⟨?_, ?_, ?_, ?_, ?_, fun hout => ?_, fun rd stored hout => ?_⟩, htail, ?_, ?_, fun hout => ?_, fun hout => ?_,
    fun rd stored hout => ?_⟩
  all_goals rw [hsame]
  · exact h.delivered.stored
  · exact h.delivered.unstable
  · exact h.delivered.applied_le
  · exact h.delivered.dummy_le
  · exact h.delivered.le_committed.trans hc
  · obtain ⟨hahead, hpending⟩ := h.delivered.waiting hout
    exact ⟨hahead, fun snap hs => ⟨(hpending snap hs).1, (hpending snap hs).2.trans hc⟩⟩
  · obtain ⟨h1, h2, h3, h4, hpending⟩ := h.delivered.handing rd stored hout
    refine ⟨h1, h2, h3, h4, fun snap hs => ?_⟩
    obtain ⟨h5, h6, h7⟩ := hpending snap hs
    exact ⟨h5, h6.trans hc, h7⟩
  · exact h.base
  · exact h.saved.trans hc
  · exact h.fresh hout
  · exact h.unsaved hout
  · obtain ⟨u, hu⟩ := h.handedOut rd stored hout
    exact ⟨u, hu.entries, hu.snapshot, hu.indexed, hu.reach, hu.pending, hu.since, hu.ahead, hu.unsaved, hu.ends⟩

/-- The hard state of the `Ready` that is out does not matter. -/
theorem withoutHardState (h : Anchored s d) {rd : Ready} (hout : s.outstanding = some (rd, false)) :
    Anchored { s with outstanding := some ({ rd with hardState := {} }, false) } d := by
  have hhand := h.delivered.handing rd false hout
  obtain ⟨u, hu⟩ := h.handedOut rd false hout
  refine ⟨⟨h.delivered.stored, h.delivered.unstable, h.delivered.applied_le, h.delivered.dummy_le,
    h.delivered.le_committed, nofun, ?_⟩, h.tail, h.base, h.saved, nofun, nofun, ?_⟩
  · intro rd' stored hrd'
    obtain ⟨rfl, rfl⟩ := Prod.mk.inj (Option.some.inj hrd')
    exact ⟨hhand.nothing, hhand.cursor, hhand.snapshot_le, hhand.entries, hhand.pending⟩
  · intro rd' stored hrd'
    obtain ⟨rfl, rfl⟩ := Prod.mk.inj (Option.some.inj hrd')
    exact ⟨u, hu.entries, hu.snapshot, hu.indexed, hu.reach, hu.pending, hu.since, hu.ahead, hu.unsaved, hu.ends⟩

end Anchored

/-- While a round is on, the pending snapshot is the one of its `Ready`. -/
structure Driver.InRound (s : Driver) (rd : Ready) (d : Nat) : Prop where
  anchored : Anchored s d
  out : s.outstanding = some (rd, true)
  entries : rd.entries = s.log.unstable.entries
  snapshot : rd.snapshot = s.log.unstable.snapshot.getD {}

namespace Driver.InRound
variable {s : Driver} {rd : Ready} {d : Nat}

theorem not_newer (h : s.InRound rd d) : ¬ s.log.Newer d := by
  rintro ⟨snap, hs, hlt⟩
  have hle := (h.anchored.delivered.handing rd true h.out).snapshot_le
  rw [h.snapshot, hs, Option.getD_some] at hle
  omega

/-- Everything that has been delivered is in the storage. -/
theorem stored (h : s.InRound rd d) : d ≤ s.log.storage.lastIndex := by
  obtain ⟨u, hu⟩ := h.anchored.handedOut rd true h.out
  have hreach := hu.reach
  by_cases hsome : u.entries ≠ [] ∨ u.snapshot ≠ none
  · have hends := hu.ends rfl h.not_newer hsome
    omega
  · obtain ⟨hnil, hnone⟩ := not_or.mp hsome
    have hempty : s.log.unstable.entries = [] := by
      rw [← h.entries, hu.entries]
      exact not_not.mp hnil
    have hsnap : s.log.unstable.snapshot = none := by
      rw [hu.same_snapshot h.not_newer]
      exact not_not.mp hnone
    have hlt := h.anchored.tail.committed_lt
    have hoffset := h.anchored.tail.offset_eq hempty
    have hcom := h.anchored.delivered.le_committed
    have hbase : s.log.base = s.log.storage.lastIndex := by
      rw [RaftLog.base, hsnap]
      rfl
    rw [hempty, List.length_nil] at hlt
    omega

/-- It will count as applied when the round ends. -/
theorem le_cursor (h : s.InRound rd d) : d ≤ max s.log.applied rd.appliedCursor := by
  have hhand := h.anchored.delivered.handing rd true h.out
  rcases Nat.eq_zero_or_pos rd.appliedCursor with hzero | hpos
  · obtain ⟨hle, hempty⟩ := hhand.nothing hzero
    have hsnap : s.log.unstable.snapshot = none := by
      cases hs : s.log.unstable.snapshot with
      | none => rfl
      | some snap =>
          have hlt := (hhand.pending snap hs).1
          rw [h.snapshot, hs, Option.getD_some, Snapshot.isEmpty, beq_iff_eq] at hempty
          omega
    have hdummy := h.anchored.base hsnap
    omega
  · rw [hhand.cursor hpos]
    exact le_max_right _ _

theorem mayAdvance (h : s.InRound rd d) : s.MayAdvance rd := by
  intro snap e hs hne _ _
  rw [h.snapshot, hs] at hne
  exact hne rfl

theorem commits (h : s.InRound rd d) {n : RawNode} {c : Nat} (hc : s.log.committed ≤ c)
    (hlog : n.raft.raftLog = { s.log with committed := c }) (htail : n.raft.raftLog.Tail 0) :
    ({ s with node := n } : Driver).InRound rd d := by
  have hsame : ({ s with node := n } : Driver).log = { s.log with committed := c } := hlog
  refine ⟨h.anchored.commits hc hlog htail, h.out, ?_, ?_⟩
  · rw [hsame]
    exact h.entries
  · rw [hsame]
    exact h.snapshot

end Driver.InRound

/-! ### Taking a snapshot -/

namespace MemoryStorage
variable {st : MemoryStorage} {i : Nat}

theorem createSnapshot_ok (hnew : st.snapshot.metadata.index < i) (hlow : st.dummy.index ≤ i) (hhigh : i ≤ st.lastIndex)
    (cs : ConfState) (data : Bytes) :
    ∃ snap, st.createSnapshot i (some cs) data = .ok (.ok, snap, { st with snapshot := snap }) ∧
      snap.metadata.index = i ∧ snap.data = data := by
  rcases st.createSnapshot_cases i (some cs) data with
    ⟨hold, -⟩ | ⟨-, hout, -⟩ | ⟨-, -, -, _, snap, -, hindex, -, hdata, hcreate⟩
  · omega
  · omega
  · exact ⟨snap, hcreate, hindex, hdata⟩

/-- The entries above an index are those behind its place. -/
theorem filter_eq_drop {low : Nat} {es : List Entry} (h : IndexedFrom (low + 1) es) (hle : low ≤ i) :
    es.filter (i < ·.index) = es.drop (i - low) := by
  conv_lhs => rw [← List.take_append_drop (i - low) es]
  rw [List.filter_append]
  have hfront : (es.take (i - low)).filter (i < ·.index) = [] := by
    rw [List.filter_eq_nil_iff]
    intro e he
    obtain ⟨k, hk⟩ := List.mem_iff_getElem?.mp he
    rw [List.getElem?_take] at hk
    split at hk
    · have := h k e hk
      rw [decide_eq_true_eq]
      omega
    · cases hk
  have hback : (es.drop (i - low)).filter (i < ·.index) = es.drop (i - low) := by
    rw [List.filter_eq_self]
    intro e he
    obtain ⟨k, hk⟩ := List.mem_iff_getElem?.mp he
    rw [List.getElem?_drop] at hk
    have := h _ e hk
    rw [decide_eq_true_eq]
    omega
  rw [hfront, hback, List.nil_append]

theorem compact_ok (hnum : IndexedFrom (st.dummy.index + 1) st.ents) (hlow : st.dummy.index < i) (hhigh : i ≤ st.lastIndex) :
    ∃ st', st.compact i = .ok (.ok, st') ∧ st'.dummy.index = i ∧ st'.ents = st.ents.filter (i < ·.index) ∧
      st'.snapshot = st.snapshot ∧ st'.lastIndex = st.lastIndex := by
  rw [lastIndex] at hhigh
  have hin : i - st.dummy.index - 1 < st.ents.length := by omega
  have hall : st.all[i - st.dummy.index]? = some st.ents[i - st.dummy.index - 1] := by
    rw [all, List.getElem?_cons, if_neg (by omega), List.getElem?_eq_getElem hin]
  have hindex := hnum _ _ (List.getElem?_eq_getElem hin)
  have hplace : (st.ents[i - st.dummy.index - 1]).index = i := by omega
  refine ⟨{ st with
    dummy := { st.dummy with index := i, term := (st.ents[i - st.dummy.index - 1]).term }
    ents := st.ents.drop (i - st.dummy.index) }, ?_, rfl, (filter_eq_drop hnum hlow.le).symm, rfl, ?_⟩
  · unfold compact
    rw [if_neg (by omega), if_neg (by rw [lastIndex]; omega)]
    simp only [hall, hplace]
  · simp only [lastIndex, List.length_drop]
    omega

end MemoryStorage

namespace RaftNode
variable {κ : Type} {mp : Msgpack} {crc : Bytes → UInt32} {s s' s₁ : RaftNode κ} {rd : Ready} {d : Nat}

/-- `maybe_trigger_snapshot` does not return at once. -/
def SnapshotDue (s : RaftNode κ) : Prop := ¬ (s.appliedIndex + 2 ^ 64 - s.snapshotIndex) % 2 ^ 64 ≤ s.snapCount

instance (s : RaftNode κ) : Decidable s.SnapshotDue := inferInstanceAs (Decidable (¬ _))

/-- How the index of the last snapshot lies between the place where the storage begins and what is applied. -/
structure Tracks (s : RaftNode κ) : Prop where
  snapshot : s.snapshotIndex = s.storage.snapshot.metadata.index
  dummy_le : s.storage.dummy.index ≤ s.snapshotIndex
  snapshot_le : s.snapshotIndex ≤ s.appliedIndex
  count : s.snapCount = defaultSnapCount

/-- So the difference does not wrap, and what is due is far ahead. -/
theorem Tracks.due (h : Tracks s) (hdue : s.SnapshotDue) : s.snapshotIndex + snapshotCatchUpEntriesN < s.appliedIndex := by
  have hle := h.snapshot_le
  rw [SnapshotDue, h.count, defaultSnapCount] at hdue
  rw [snapshotCatchUpEntriesN]
  omega

/-- Between two rounds. -/
structure Upheld (s : RaftNode κ) : Prop where
  tracks : Tracks s
  anchored : ∃ d, Anchored { node := s.node } d ∧ s.appliedIndex ≤ d

/-- In a round, behind what its `Ready` brings. -/
structure Midway (s : RaftNode κ) (rd : Ready) (d : Nat) : Prop where
  tracks : Tracks s
  round : ({ node := s.node, outstanding := some ({ rd with hardState := {} }, true) } : Driver).InRound
    { rd with hardState := {} } d
  applied_le : s.appliedIndex ≤ d

theorem saveReady_snapCount (h : (s.saveReady mp crc rd).result = .ok s') : s'.snapCount = s.snapCount := by
  unfold saveReady at h
  rw [Prog.result_bind] at h
  obtain ⟨s₁, h₁, h⟩ := bind_ok h
  obtain rfl := Except.ok.inj h₁
  rw [Prog.result_bind] at h
  obtain ⟨s₂, h₂, h⟩ := bind_ok h
  rw [Prog.result_bind, Prog.result_lift] at h
  obtain ⟨st, -, h⟩ := bind_ok h
  rw [← Except.ok.inj h]
  unfold installSnapshot at h₂
  split at h₂
  · rw [← Except.ok.inj h₂]
    rfl
  · rw [Prog.result_bind] at h₂
    obtain ⟨s₃, h₃, h₂⟩ := bind_ok h₂
    obtain ⟨wal, snaps, rfl⟩ := saveSnap_spec h₃
    rw [Prog.result_lift] at h₂
    unfold publishSnapshot at h₂
    split at h₂
    · rw [← Except.ok.inj h₂]
      rfl
    split at h₂
    · cases h₂
    obtain ⟨⟨store, status⟩, -, h₂⟩ := bind_ok h₂
    simp only at h₂
    split at h₂
    · cases h₂
    · rw [← Except.ok.inj h₂]
      rfl

/-- Publishing entries that are ahead does not move the applied index back, and it takes no snapshot. -/
theorem publishEntries_counts {entries : List Entry} {m : Nat} (hm : ∀ e ∈ entries, m ≤ e.index) (hle : m ≤ s.appliedIndex)
    (h : publishEntries mp entries s = .ok s') :
    s'.snapshotIndex = s.snapshotIndex ∧ s'.snapCount = s.snapCount ∧ m ≤ s'.appliedIndex := by
  induction entries generalizing s with
  | nil =>
      rw [← Except.ok.inj h]
      exact ⟨rfl, rfl, hle⟩
  | cons entry entries ih =>
      have hfirst := hm entry List.mem_cons_self
      have hrest : ∀ e ∈ entries, m ≤ e.index := fun e he => hm e (List.mem_cons_of_mem _ he)
      rw [publishEntries] at h
      split at h
      · split at h
        · have hend := ih hrest hfirst h
          exact hend
        · obtain ⟨⟨store, callback⟩, -, h⟩ := bind_ok h
          have hend := ih hrest hfirst h
          exact hend
      split at h
      · split at h
        · exact ih hrest hle h
        · obtain ⟨⟨node, confState⟩, -, h⟩ := bind_ok h
          simp only at h
          split at h
          · rw [← Except.ok.inj h]
            exact ⟨rfl, rfl, hle⟩
          · have hend := ih hrest hfirst h
            exact hend
      · cases h

/-- Behind the first half of a round. -/
theorem Upheld.saved (h : Upheld s) {node : RawNode} (hrd : s.node.ready = .ok (rd, node))
    (hs : (saveReady mp crc { s with node := node } rd).result = .ok s₁) :
    ∃ d, Midway s₁ rd d ∧ ∀ e ∈ rd.committedEntries, s₁.appliedIndex ≤ e.index ∧ e.index ≤ d := by
  obtain ⟨d, hd, happlied⟩ := h.anchored
  obtain ⟨st, hst, hnode, -, hindex, hsnap⟩ := saveReady_spec hs
  have hcount := saveReady_snapCount hs
  obtain ⟨-, hents, hsnapshot, hlog⟩ := ready_spec hrd
  obtain ⟨hcont, -, -⟩ := hd.delivered.ready rfl hrd
  have hready := (hd.ready rfl hrd).withoutHardState rfl
  have hsame : ({ s with node := node } : RaftNode κ).log = s.log := hlog
  have hpersisted := hready.persist rfl hst
  have hin : ({ node := s₁.node, outstanding := some ({ rd with hardState := {} }, true) } : Driver).InRound
      { rd with hardState := {} } (rd.reaches d) := by
    refine ⟨hpersisted.of_log ?_ rfl, rfl, ?_, ?_⟩
    · rw [Driver.log, hnode]
      rfl
    · rw [Driver.log, hnode]
      change rd.entries = node.raft.raftLog.unstable.entries
      rw [hlog]
      exact hents
    · rw [Driver.log, hnode]
      change rd.snapshot = node.raft.raftLog.unstable.snapshot.getD {}
      rw [hlog]
      exact hsnapshot
  have hstore : s₁.storage = st := by
    rw [storage, log, hnode]
    rfl
  have hold : ({ s with node := node } : RaftNode κ).storage = s.storage := by
    rw [storage, hsame]
    rfl
  rw [hold] at hst
  have hunstable : IndexedFrom s.log.unstable.offset ({ rd with hardState := {} } : Ready).entries := by
    change IndexedFrom _ rd.entries
    rw [hents]
    exact hd.delivered.unstable
  obtain ⟨hkept, -, -⟩ := persist_stores hunstable hst
  obtain ⟨-, hdummy⟩ := persist_numbered hd.delivered.stored hunstable hst
  simp only at hkept hdummy
  obtain ⟨hsnapIndex, hdummyLe, hsnapLe, hcounts⟩ := h.tracks
  have hbase : ({ node := s.node } : Driver).log.storage.dummy.index = s.storage.dummy.index := rfl
  rw [hbase] at hdummy
  have hstart : rd.start s.appliedIndex ≤ rd.start d := by
    rw [Ready.start, Ready.start]
    split
    · exact happlied
    · exact le_rfl
  have htracks : s₁.snapshotIndex = s₁.storage.snapshot.metadata.index ∧ s₁.storage.dummy.index ≤ s₁.snapshotIndex ∧
      s₁.snapshotIndex ≤ s₁.appliedIndex := by
    rw [hstore, hindex, hsnap, Ready.start, Ready.start, hkept]
    rcases withSnapshot_cases s.storage rd.snapshot with ⟨hempty, hstay⟩ | ⟨hsome, hcases⟩
    · rw [hstay, if_pos hempty, if_pos hempty]
      refine ⟨hsnapIndex, ?_, hsnapLe⟩
      rcases hdummy with heq | ⟨-, hsome⟩
      · rw [heq]
        exact hdummyLe
      · rw [hsome] at hempty
        cases hempty
    · -- a snapshot of the leader is ahead of the one in the storage
      have hahead : s.storage.snapshot.metadata.index < rd.snapshot.metadata.index := by
        cases hs : s.node.raft.raftLog.unstable.snapshot with
        | none =>
            rw [hsnapshot, hs] at hsome
            cases hsome
        | some snap =>
            rw [hsnapshot, hs]
            exact hd.unsaved rfl snap hs
      rcases hcases with ⟨hle, -⟩ | ⟨-, hnew, -, -⟩
      · omega
      · rw [hnew, if_neg (by simp [hsome]), if_neg (by simp [hsome])]
        refine ⟨rfl, ?_, le_rfl⟩
        rcases hdummy with heq | ⟨heq, -⟩ <;> omega
  have hreach : s₁.appliedIndex ≤ rd.reaches d := by
    rw [hindex]
    exact hstart.trans (Nat.le_add_right _ _)
  refine ⟨rd.reaches d, ⟨⟨htracks.1, htracks.2.1, htracks.2.2, hcount.trans hcounts⟩, hin, hreach⟩, ?_⟩
  intro e he
  obtain ⟨k, hk⟩ := List.mem_iff_getElem?.mp he
  obtain ⟨hlt, -⟩ := List.getElem?_eq_some_iff.mp hk
  have hplace := hcont.2 k e hk
  have hfrom : s₁.appliedIndex = rd.start s.appliedIndex := hindex
  rw [hfrom, Ready.reaches]
  omega

/-- Publishing leaves that as it is. -/
theorem Midway.published (h : Midway s₁ rd d) {entries : List Entry}
    (hbounds : ∀ e ∈ entries, s₁.appliedIndex ≤ e.index ∧ e.index ≤ d) (hpub : publishEntries mp entries s₁ = .ok s') :
    Midway s' rd d := by
  obtain ⟨-, -, -, -, ⟨c, hc, hlog⟩, htail, happlied⟩ := publishEntries_publishes (fun e he => (hbounds e he).2) hpub
  obtain ⟨hsnap, hcount, hge⟩ := publishEntries_counts (fun e he => (hbounds e he).1) le_rfl hpub
  have hstore : s'.storage = s₁.storage := by
    rw [storage, hlog]
    rfl
  refine ⟨⟨?_, ?_, ?_, hcount.trans h.tracks.count⟩, ?_, happlied h.applied_le⟩
  · rw [hsnap, hstore]
    exact h.tracks.snapshot
  · rw [hsnap, hstore]
    exact h.tracks.dummy_le
  · rw [hsnap]
    exact h.tracks.snapshot_le.trans hge
  · exact h.round.commits hc hlog (htail h.round.anchored.tail)

theorem entriesToApply_subset {entries ents : List Entry} (h : s.entriesToApply entries = .ok ents) : ents ⊆ entries := by
  unfold entriesToApply at h
  split at h
  · rw [← Except.ok.inj h]
    exact List.Subset.refl _
  split at h
  · cases h
  · rw [← Except.ok.inj h]
    exact List.drop_subset _ _

/-- Where `maybe_trigger_snapshot` starts. -/
theorem Upheld.applied (h : Upheld s) {node : RawNode} (hrd : s.node.ready = .ok (rd, node))
    (hs : (applyReady mp crc { s with node := node } rd).result = .ok s') : ∃ d, Midway s' rd d := by
  rw [applyReady_result] at hs
  obtain ⟨s₁, hsave, hs⟩ := bind_ok hs
  obtain ⟨ents, hents, hpub⟩ := bind_ok hs
  obtain ⟨d, hmid, hbounds⟩ := h.saved hrd hsave
  exact ⟨d, hmid.published (fun e he => hbounds e (entriesToApply_subset hents he)) hpub⟩

/-- A snapshot that is due can be taken, and the storage compacted behind it. -/
theorem Midway.takes (h : Midway s rd d) (hdue : s.SnapshotDue) (data : Bytes) :
    ∃ snap st', s.storage.createSnapshot s.appliedIndex (some s.confState) data =
        .ok (.ok, snap, { s.storage with snapshot := snap }) ∧
      snap.metadata.index = s.appliedIndex ∧ snap.data = data ∧
      ({ s.storage with snapshot := snap } : MemoryStorage).compact (s.appliedIndex - snapshotCatchUpEntriesN) = .ok (.ok, st') ∧
      st'.dummy.index = s.appliedIndex - snapshotCatchUpEntriesN ∧
      st'.ents = s.storage.ents.filter (s.appliedIndex - snapshotCatchUpEntriesN < ·.index) ∧ st'.snapshot = snap ∧
      st'.lastIndex = s.storage.lastIndex := by
  have hfar := h.tracks.due hdue
  have hdummy := h.tracks.dummy_le
  have hsnap := h.tracks.snapshot
  have hlast : s.appliedIndex ≤ s.storage.lastIndex := h.applied_le.trans h.round.stored
  have hnew : s.storage.snapshot.metadata.index < s.appliedIndex := by omega
  obtain ⟨snap, hcreate, hindex, hdata⟩ := MemoryStorage.createSnapshot_ok hnew (by omega) hlast s.confState data
  have hlow : ({ s.storage with snapshot := snap } : MemoryStorage).dummy.index < s.appliedIndex - snapshotCatchUpEntriesN := by
    change s.storage.dummy.index < _
    omega
  have hhigh : s.appliedIndex - snapshotCatchUpEntriesN ≤ ({ s.storage with snapshot := snap } : MemoryStorage).lastIndex := by
    change _ ≤ s.storage.lastIndex
    omega
  have hnum : IndexedFrom (({ s.storage with snapshot := snap } : MemoryStorage).dummy.index + 1)
      ({ s.storage with snapshot := snap } : MemoryStorage).ents := h.round.anchored.delivered.stored
  obtain ⟨st', hcompact, hplace, hents, hkept, hlast'⟩ := MemoryStorage.compact_ok hnum hlow hhigh
  exact ⟨snap, st', hcreate, hindex, hdata, hcompact, hplace, hents, hkept, hlast'⟩

theorem saveSnap_ok (mp : Msgpack) (crc : Bytes → UInt32) (s : RaftNode κ) {snap : Snapshot} (h : snap.data.length < 2 ^ 32) :
    ∃ wal snaps, (s.saveSnap mp crc snap).result = .ok { s with wal := wal, snaps := snaps } := by
  have hcounted : ¬ snap.data.length ≥ 2 ^ 32 := Nat.not_le.mpr h
  unfold saveSnap
  simp only [Prog.result_bind, if_neg hcounted]
  exact ⟨_, _, rfl⟩

/-- ... and the round goes on, unless the packer cannot count the data. -/
theorem snapshotAt_ok {data : Bytes} {snap : Snapshot} {st : MemoryStorage} (hfar : snapshotCatchUpEntriesN < s.appliedIndex)
    (hcreate : s.storage.createSnapshot s.appliedIndex (some s.confState) data =
      .ok (.ok, snap, { s.storage with snapshot := snap }))
    (hcompact : ({ s.storage with snapshot := snap } : MemoryStorage).compact (s.appliedIndex - snapshotCatchUpEntriesN) =
      .ok (.ok, st))
    (hdata : snap.data.length < 2 ^ 32) : ∃ s', (s.snapshotAt mp crc data).result = .ok s' ∧ s'.storage = st := by
  obtain ⟨wal, snaps, hsave⟩ := saveSnap_ok mp crc (s.setStorage { s.storage with snapshot := snap }) hdata
  refine ⟨{ (({ s.setStorage { s.storage with snapshot := snap } with wal := wal, snaps := snaps } : RaftNode κ).setStorage
    st) with snapshotIndex := s.appliedIndex }, ?_, rfl⟩
  unfold snapshotAt
  rw [Prog.result_bind, Prog.result_lift, hcreate]
  change (Prog.result _ : Result _) = _
  rw [show (Status.ok.isOk = true) from rfl]
  simp only [Bool.not_true, Bool.false_eq_true, if_false]
  rw [Prog.result_bind, hsave]
  have hplace : (if s.appliedIndex > snapshotCatchUpEntriesN then s.appliedIndex - snapshotCatchUpEntriesN else 1) =
      s.appliedIndex - snapshotCatchUpEntriesN := if_pos hfar
  change (Prog.result _ : Result _) = _
  rw [Prog.result_bind, Prog.result_lift]
  change (MemoryStorage.compact { s.storage with snapshot := snap }
    (if s.appliedIndex > snapshotCatchUpEntriesN then s.appliedIndex - snapshotCatchUpEntriesN else 1)) >>= _ = _
  rw [hplace, hcompact]
  rfl

/-- The end of a round, with the storage as it is or compacted. -/
theorem Midway.advanced (h : Midway s rd d) {st : MemoryStorage}
    (hst : s.storage.Tidied (max s.log.applied rd.appliedCursor) st) (hnode : s'.node = (s.setStorage st).node)
    (happlied : s'.appliedIndex = s.appliedIndex) (hsnapshot : s'.snapshotIndex = st.snapshot.metadata.index)
    (hdummy : st.dummy.index ≤ s'.snapshotIndex) (hle : s'.snapshotIndex ≤ s'.appliedIndex)
    (hcount : s'.snapCount = s.snapCount) : Upheld { s' with node := s'.node.advance rd } := by
  have hadvanced := h.round.anchored.advance rfl h.round.mayAdvance hst
  have hlog : s'.log = (s.setStorage st).log := by rw [log, hnode, log]
  have hnonzero : ∀ snap, s'.log.unstable.snapshot = some snap → snap.metadata.index ≠ 0 := by
    intro snap hs
    rw [hlog] at hs
    have := ((h.round.anchored.delivered.handing _ _ rfl).pending snap hs).1
    omega
  have hstore : ({ s' with node := s'.node.advance rd } : RaftNode κ).storage = st := by
    change (RawNode.advanceLog s'.log rd).storage = st
    rw [(advanceLog_leaves rd hnonzero).1, hlog]
    rfl
  refine ⟨⟨?_, ?_, hle, hcount.trans h.tracks.count⟩, d, hadvanced.of_log ?_ rfl, ?_⟩
  · rw [hstore]
    exact hsnapshot
  · rw [hstore]
    exact hdummy
  · change RawNode.advanceLog s'.log rd = _
    rw [hlog]
    rfl
  · simp only [happlied]
    exact h.applied_le

theorem Midway.triggered (h : Midway s rd d) (hr : (s.maybeTriggerSnapshot mp crc).result = .ok s') :
    Upheld { s' with node := s'.node.advance rd } := by
  unfold maybeTriggerSnapshot at hr
  split at hr
  · obtain rfl := Except.ok.inj hr
    exact h.advanced .refl rfl rfl h.tracks.snapshot h.tracks.dummy_le h.tracks.snapshot_le rfl
  · rename_i hdue
    have hfar := h.tracks.due hdue
    have hcursor : s.appliedIndex ≤ max s.log.applied rd.appliedCursor := h.applied_le.trans h.round.le_cursor
    obtain ⟨snap, st', hcreate, hindex, -, hcompact, hplace, -, hkept, -⟩ := h.takes hdue (s.store.getSnapshot mp)
    rw [Prog.result_bind, Prog.result_lift, hcreate] at hr
    obtain ⟨p, hp, hr⟩ := bind_ok hr
    obtain rfl := Except.ok.inj hp
    simp only at hr
    split at hr
    · cases hr
    rw [Prog.result_bind] at hr
    obtain ⟨s₁, h₁, hr⟩ := bind_ok hr
    obtain ⟨wal, snaps, rfl⟩ := saveSnap_spec h₁
    rw [Prog.result_bind, Prog.result_lift] at hr
    obtain ⟨⟨status, st''⟩, hcompact', hr⟩ := bind_ok hr
    have hif : (if s.appliedIndex > snapshotCatchUpEntriesN then s.appliedIndex - snapshotCatchUpEntriesN else 1) =
        s.appliedIndex - snapshotCatchUpEntriesN := if_pos (by omega)
    change (MemoryStorage.compact { s.storage with snapshot := snap }
      (if s.appliedIndex > snapshotCatchUpEntriesN then s.appliedIndex - snapshotCatchUpEntriesN else 1)) = _ at hcompact'
    rw [hif, hcompact] at hcompact'
    obtain ⟨rfl, rfl⟩ := Prod.mk.inj (Except.ok.inj hcompact')
    simp only at hr
    split at hr
    · cases hr
    obtain rfl := Except.ok.inj hr
    have htidied : s.storage.Tidied (max s.log.applied rd.appliedCursor) st' :=
      .compact (.createSnapshot .refl hcursor hcreate) ((Nat.sub_le _ _).trans hcursor) hcompact
    refine h.advanced htidied rfl rfl ?_ ?_ le_rfl rfl
    · rw [hkept, hindex]
      rfl
    · rw [hplace]
      exact Nat.sub_le _ _

theorem Upheld.round (h : Upheld s) (hr : (s.pullReadyEvents mp crc).result = .ok s') : Upheld s' := by
  unfold pullReadyEvents at hr
  split at hr
  · obtain rfl := Except.ok.inj hr
    exact h
  rw [Prog.result_bind, Prog.result_lift] at hr
  obtain ⟨⟨rd, node⟩, hrd, hr⟩ := bind_ok hr
  obtain ⟨-, -, -, hlog⟩ := ready_spec hrd
  simp only at hr
  split at hr
  · obtain rfl := Except.ok.inj hr
    obtain ⟨d, hd, happlied⟩ := h.anchored
    have hsame : ({ s with node := node } : RaftNode κ).storage = s.storage := by
      rw [storage, storage, log, log, hlog]
    refine ⟨⟨?_, ?_, h.tracks.snapshot_le, h.tracks.count⟩, d, hd.of_log hlog rfl, happlied⟩
    · rw [hsame]
      exact h.tracks.snapshot
    · rw [hsame]
      exact h.tracks.dummy_le
  rw [Prog.result_bind] at hr
  obtain ⟨s₂, happly, hr⟩ := bind_ok hr
  obtain ⟨d, hmid⟩ := h.applied hrd happly
  rw [Prog.result_bind] at hr
  obtain ⟨s₃, htrigger, hr⟩ := bind_ok hr
  obtain rfl := Except.ok.inj hr
  exact hmid.triggered htrigger

theorem Upheld.call (h : Upheld s) {a : NodeAction} {n : RawNode} (ha : a.IsCall) (hrun : s.node.run a = .ok n) :
    Upheld { s with node := n } := by
  obtain ⟨d, hd, happlied⟩ := h.anchored
  have hsame : ({ s with node := n } : RaftNode κ).storage = s.storage := (call_grows ha hrun).storage
  refine ⟨⟨?_, ?_, h.tracks.snapshot_le, h.tracks.count⟩, d, hd.call ha hrun, happlied⟩
  · rw [hsame]
    exact h.tracks.snapshot
  · rw [hsame]
    exact h.tracks.dummy_le

theorem Runs.upheld (h : Runs mp crc (fun _ => True) s s') (hs : Upheld s) : Upheld s' := by
  induction h with
  | refl => exact hs
  | tail _ hstep ih =>
      cases hstep with
      | call ha hrun => exact ih.call ha hrun
      | request => exact ⟨⟨ih.tracks.snapshot, ih.tracks.dummy_le, ih.tracks.snapshot_le, ih.tracks.count⟩, ih.anchored⟩
      | round _ hr => exact ih.round hr

/-- Whatever is on the disk, a server starts at its snapshot. -/
theorem started_upheld {id peers ftell : Nat} {wal : Option Bytes} {snaps : SnapDir} {draws : Nat → Nat}
    (hnew : RaftNode.new mp crc id peers wal snaps ftell draws = .ok s) (hschedule : s.schedule mp = .ok s') :
    Upheld s' := by
  obtain ⟨r, c, hreplay, hstorage, -, hstarted, -, -⟩ := started_of_new hnew hschedule
  have hzero := hstarted.applied_zero
  have hsnap := hstarted.snapshot
  have hsound : c.Sound := by
    refine ⟨?_, ?_, Or.inl hzero, ?_⟩
    · rw [hstorage]
      exact replayWal_numbered hreplay
    · omega
    · omega
  obtain ⟨d, hd⟩ := started_anchored hsound hstarted.node
  have hindex : s'.snapshotIndex = s'.storage.dummy.index := by
    rw [hstarted.snapshotIndex, hstarted.storage, hsnap]
  have hsame := hstarted.snapshotIndex.trans hstarted.appliedIndex.symm
  refine ⟨⟨hstarted.snapshotIndex, hindex.ge, hsame.le, hstarted.count⟩, d, hd, ?_⟩
  rw [← hsame, hindex]
  exact hd.delivered.dummy_le

/-- Over every run of a server, from any disk: when `maybe_trigger_snapshot` starts, the index of the last
snapshot is that of the storage. If a snapshot is due, then it is taken at the applied index and the
storage compacted, whatever the store answers, without a failure and without an index out of range, and
every entry above the compaction is still there. -/
theorem local_snapshot_safe {id peers ftell : Nat} {wal : Option Bytes} {snaps : SnapDir} {draws : Nat → Nat}
    {s₀ s₂ : RaftNode κ} {node : RawNode} (hnew : RaftNode.new mp crc id peers wal snaps ftell draws = .ok s₁)
    (hschedule : s₁.schedule mp = .ok s₀) (hruns : Runs mp crc (fun _ => True) s₀ s)
    (hrd : s.node.ready = .ok (rd, node)) (happly : (applyReady mp crc { s with node := node } rd).result = .ok s₂) :
    s₂.snapshotIndex = s₂.storage.snapshot.metadata.index ∧
      (¬ s₂.SnapshotDue → (s₂.maybeTriggerSnapshot mp crc).result = .ok s₂) ∧
      (s₂.SnapshotDue → s₂.maybeTriggerSnapshot mp crc = s₂.snapshotAt mp crc (s₂.store.getSnapshot mp) ∧ ∀ data : Bytes,
        snapshotCatchUpEntriesN < s₂.appliedIndex ∧
        ∃ snap st', s₂.storage.createSnapshot s₂.appliedIndex (some s₂.confState) data =
            .ok (.ok, snap, { s₂.storage with snapshot := snap }) ∧
          ({ s₂.storage with snapshot := snap } : MemoryStorage).compact (s₂.appliedIndex - snapshotCatchUpEntriesN) =
            .ok (.ok, st') ∧
          st'.dummy.index = s₂.appliedIndex - snapshotCatchUpEntriesN ∧
          st'.ents = s₂.storage.ents.filter (s₂.appliedIndex - snapshotCatchUpEntriesN < ·.index) ∧
          (∀ i, s₂.appliedIndex - snapshotCatchUpEntriesN < i → i ≤ s₂.storage.lastIndex → ∃ e ∈ st'.ents, e.index = i) ∧
          (data.length < 2 ^ 32 → ∃ s₃, (s₂.snapshotAt mp crc data).result = .ok s₃ ∧ s₃.storage = st')) := by
  obtain ⟨d, hmid⟩ := (hruns.upheld (started_upheld hnew hschedule)).applied hrd happly
  refine ⟨hmid.tracks.snapshot, fun hnot => ?_, fun hdue => ⟨?_, fun data => ?_⟩⟩
  · unfold maybeTriggerSnapshot
    rw [if_pos (not_not.mp hnot)]
    rfl
  · unfold maybeTriggerSnapshot
    rw [if_neg hdue]
    rfl
  · have hfar : snapshotCatchUpEntriesN < s₂.appliedIndex := by
      have := hmid.tracks.due hdue
      omega
    obtain ⟨snap, st', hcreate, -, rfl, hcompact, hplace, hents, -, -⟩ := hmid.takes hdue data
    refine ⟨hfar, snap, st', hcreate, hcompact, hplace, hents, fun i hlow hhigh => ?_, fun hlen =>
      snapshotAt_ok hfar hcreate hcompact hlen⟩
    -- the storage is numbered, so the entry stands at its place
    have hbelow := hmid.tracks.due hdue
    have hfloor := hmid.tracks.dummy_le
    rw [MemoryStorage.lastIndex] at hhigh
    have hin : i - s₂.storage.dummy.index - 1 < s₂.storage.ents.length := by omega
    have hindex : (s₂.storage.ents[i - s₂.storage.dummy.index - 1]).index = s₂.storage.dummy.index + 1 +
        (i - s₂.storage.dummy.index - 1) := hmid.round.anchored.delivered.stored _ _ (List.getElem?_eq_getElem hin)
    refine ⟨s₂.storage.ents[i - s₂.storage.dummy.index - 1], ?_, by omega⟩
    rw [hents, List.mem_filter, decide_eq_true_eq]
    exact ⟨List.getElem_mem hin, by omega⟩

/-- The first member on an empty disk, at the question whether a snapshot is due in the round that applies
the configuration. -/
theorem local_snapshot_safe_first : ∃ s₁ s₀ s₂ : RaftNode Unit, ∃ rd node,
    RaftNode.new messagePack crc32 1 3 none ∅ 0 (fun _ => 0) = .ok s₁ ∧ s₁.schedule messagePack = .ok s₀ ∧
      s₀.node.ready = .ok (rd, node) ∧ (applyReady messagePack crc32 { s₀ with node := node } rd).result = .ok s₂ ∧
      s₂.appliedIndex = 3 ∧ s₂.snapshotIndex = s₂.storage.snapshot.metadata.index := by
  obtain ⟨⟨s₁, s₀, rd, node, s₂⟩, hrun, heval⟩ := exists_ok_of_any
    (x := do
      let s₁ ← RaftNode.new (κ := Unit) messagePack crc32 1 3 none ∅ 0 fun _ => 0
      let s₀ ← s₁.schedule messagePack
      let p ← s₀.node.ready
      let s₂ ← (applyReady messagePack crc32 { s₀ with node := p.2 } p.1).result
      .ok (s₁, s₀, p.1, p.2, s₂))
    (p := fun (_, _, _, _, s₂) => decide (s₂.appliedIndex = 3)) (by decide +kernel)
  obtain ⟨a₁, hnew, hrun⟩ := bind_ok hrun
  obtain ⟨a₀, hschedule, hrun⟩ := bind_ok hrun
  obtain ⟨⟨a, b⟩, hready, hrun⟩ := bind_ok hrun
  obtain ⟨a₂, happly, hrun⟩ := bind_ok hrun
  simp only [Except.ok.injEq, Prod.mk.injEq] at hrun
  obtain ⟨rfl, rfl, rfl, rfl, rfl⟩ := hrun
  exact ⟨a₁, a₀, a₂, a, b, hnew, hschedule, hready, happly, of_decide_eq_true heval,
    (local_snapshot_safe hnew hschedule .refl hready happly).1⟩

end RaftNode

end RaftEtcd
