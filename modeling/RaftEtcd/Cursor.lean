import RaftEtcd.Roles
import RaftEtcd.Threads

/-! The cursor of the server and the one of the log. Each round publishes the committed entries of a
`Ready` and counts them itself, while the node counts the whole `Ready` when it is advanced. The two
agree as long as no entry makes the server leave the loop over the entries early. -/
namespace RaftEtcd

open Journal (Prog)

namespace RaftNode
variable {κ : Type} {mp : Msgpack} {crc : Bytes → UInt32} {s s' s₁ : RaftNode κ}

/-! ### Rounds -/

/-- What publishing one entry is: the store gets the command, the node the change of its
configuration, and the entry counts as applied. -/
def publish (mp : Msgpack) (s : RaftNode κ) (entry : Entry) : Result (RaftNode κ) :=
  if entry.type = entryNormal then
    if entry.data = [] then .ok { s with appliedIndex := entry.index }
    else do
      let (store, _) ← s.store.readCommit mp s.id entry.data
      .ok { s with store := store, appliedIndex := entry.index }
  else if entry.type = entryConfChange then
    match decodeConfChange mp entry.data with
    | none => .error "invalid EntryConfChange msg %s"
    | some cc => do
        let (node, confState) ← s.node.applyConfChange cc
        .ok { s with node := node, confState := confState, appliedIndex := entry.index }
  else .error "unknown type %d"

/-- A change of the configuration that can be read and does not remove the node itself. -/
def Publishable (mp : Msgpack) (id : Nat) (entry : Entry) : Prop :=
  entry.type = entryConfChange → ∃ cc, decodeConfChange mp entry.data = some cc ∧
    ¬ (cc.confChangeType = confChangeRemoveNode ∧ cc.nodeId = id)

/-- The entries that the next round publishes can be published to the end. -/
def Unhindered (mp : Msgpack) (s : RaftNode κ) : Prop :=
  ∀ entries, s.log.nextEntries = .ok entries → ∀ entry ∈ entries, Publishable mp s.id entry

instance (id : Nat) (entry : Entry) : Decidable (Publishable mp id entry) :=
  decidable_of_iff (entry.type = entryConfChange → ((decodeConfChange mp entry.data).any fun cc =>
    ¬ (cc.confChangeType = confChangeRemoveNode ∧ cc.nodeId = id)) = true) (by
      simp only [Publishable, Option.any_eq_true, decide_eq_true_eq])

instance (s : RaftNode κ) : Decidable (s.Unhindered mp) :=
  match h : s.log.nextEntries with
  | .error _ => .isTrue fun _ hok => by rw [h] at hok; cases hok
  | .ok entries => decidable_of_iff (∀ entry ∈ entries, Publishable mp s.id entry)
      ⟨fun hall _ hok => Except.ok.inj (h.symm.trans hok) ▸ hall, fun hall => hall entries h⟩

/-- What happens to a server: calls on the node, requests of its clients, and rounds of the loop,
each from a state that meets a condition. -/
inductive Step (mp : Msgpack) (crc : Bytes → UInt32) (P : RaftNode κ → Prop) : RaftNode κ → RaftNode κ → Prop
  | call {s : RaftNode κ} {a : NodeAction} {n : RawNode} :
      a.IsCall → s.node.run a = .ok n → Step mp crc P s { s with node := n }
  | request {s : RaftNode κ} {store : RedisStore κ} : Step mp crc P s { s with store := store }
  | round {s s' : RaftNode κ} : P s → (s.pullReadyEvents mp crc).result = .ok s' → Step mp crc P s s'

def Runs (mp : Msgpack) (crc : Bytes → UInt32) (P : RaftNode κ → Prop) : RaftNode κ → RaftNode κ → Prop :=
  Relation.ReflTransGen (Step mp crc P)

/-! ### Publishing -/

/-- Without an entry that stops the loop, each is published, one after the other. -/
theorem publishEntries_eq {entries : List Entry} (h : ∀ e ∈ entries, Publishable mp s.id e) :
    publishEntries mp entries s = entries.foldlM (publish mp) s := by
  induction entries generalizing s with
  | nil => rfl
  | cons e es ih =>
      have hrest : ∀ e' ∈ es, Publishable mp s.id e' := fun e' he' => h e' (List.mem_cons_of_mem _ he')
      rw [List.foldlM_cons, publishEntries, publish]
      split
      · split
        · exact ih hrest
        · cases hread : s.store.readCommit mp s.id e.data with
          | error text => rfl
          | ok p => exact ih hrest
      split
      · rename_i hty
        obtain ⟨cc, hcc, hkeep⟩ := h e (List.mem_cons_self ..) hty
        simp only [hcc]
        cases happly : s.node.applyConfChange cc with
        | error text => rfl
        | ok p =>
            simp only [bind, Except.bind, if_neg hkeep]
            exact ih hrest
      · rfl

/-- What publishing leaves alone; the log of the node can only grow. -/
structure Published (s s' : RaftNode κ) : Prop where
  id : s'.id = s.id
  snapshotIndex : s'.snapshotIndex = s.snapshotIndex
  log : s.log.Grows True s'.log

theorem Published.refl (s : RaftNode κ) : Published s s := ⟨rfl, rfl, .refl _⟩

theorem Published.trans {s'' : RaftNode κ} (h : Published s s') (h' : Published s' s'') : Published s s'' :=
  ⟨h'.id.trans h.id, h'.snapshotIndex.trans h.snapshotIndex, h.log.trans h'.log⟩

theorem publish_published {e : Entry} (h : s.publish mp e = .ok s') : Published s s' ∧ s'.appliedIndex = e.index := by
  unfold publish at h
  split at h
  · split at h
    · obtain rfl := Except.ok.inj h
      exact ⟨⟨rfl, rfl, .refl _⟩, rfl⟩
    · obtain ⟨⟨store, callback⟩, -, h⟩ := bind_ok h
      obtain rfl := Except.ok.inj h
      exact ⟨⟨rfl, rfl, .refl _⟩, rfl⟩
  split at h
  · split at h
    · cases h
    · obtain ⟨⟨node, confState⟩, happly, h⟩ := bind_ok h
      obtain rfl := Except.ok.inj h
      exact ⟨⟨rfl, rfl, (applyConfChange_advances happly).log⟩, rfl⟩
  · cases h

theorem publishAll_published {entries : List Entry} (h : entries.foldlM (publish mp) s = .ok s') :
    Published s s' ∧ s'.appliedIndex = (entries.getLast?.map Entry.index).getD s.appliedIndex := by
  induction entries generalizing s with
  | nil =>
      obtain rfl := Except.ok.inj h
      exact ⟨.refl s, rfl⟩
  | cons e es ih =>
      rw [List.foldlM_cons] at h
      obtain ⟨s₁, h₁, h⟩ := bind_ok h
      obtain ⟨hpub, hidx⟩ := publish_published h₁
      obtain ⟨hpub', hidx'⟩ := ih h
      refine ⟨hpub.trans hpub', ?_⟩
      rw [hidx', hidx, List.getLast?_cons]
      cases es.getLast? <;> rfl

/-! ### Saving -/

/-- A round stores a `Ready` as any application does, but for the hard state, which is kept on the
disk only. -/
theorem saveReady_spec {rd : Ready} (h : (s.saveReady mp crc rd).result = .ok s') :
    ∃ st, persist s.storage { rd with hardState := {} } = .ok st ∧ s'.node = (s.setStorage st).node ∧ s'.id = s.id ∧
      s'.appliedIndex = rd.start s.appliedIndex ∧ s'.snapshotIndex = rd.start s.snapshotIndex := by
  obtain ⟨⟨s₁, posted⟩, hstage, h⟩ := saveReady_stages h
  obtain ⟨store, -, h⟩ := bind_ok h
  obtain rfl := Except.ok.inj h
  obtain ⟨st, hst, hnode, hid, -, happlied, hsnap, -⟩ := stageReady_spec hstage
  exact ⟨st, hst, hnode, hid, happlied, hsnap⟩

/-! ### The two cursors -/

/-- Between two rounds both cursors are where the entries have been delivered to. -/
structure Follows (s : RaftNode κ) : Prop where
  cursor : s.appliedIndex = s.log.applied
  delivered : Delivered { node := s.node } s.appliedIndex
  snapshot_le : s.snapshotIndex ≤ s.appliedIndex

/-- A `Ready` is stored but for its hard state. -/
theorem delivered_staged {rd : Ready} {node : RawNode} {st : MemoryStorage} {d : Nat} (h : Delivered { node := s.node } d)
    (hrd : s.node.ready = .ok (rd, node))
    (hst : persist { s with node := node }.storage { rd with hardState := {} } = .ok st) :
    rd.Continues d ∧ ({ s with node := node }.setStorage st).log.applied = s.log.applied ∧
      Delivered { node := ({ s with node := node }.setStorage st).node,
                  outstanding := some ({ rd with hardState := {} }, true) } (rd.reaches d) := by
  obtain ⟨hcont, -, hd⟩ := h.ready rfl hrd
  obtain ⟨-, -, -, hlog⟩ := ready_spec hrd
  have hhanding := hd.handing rd false rfl
  have hout : Delivered { node := node, outstanding := some ({ rd with hardState := {} }, false) } (rd.reaches d) := by
    refine ⟨hd.stored, hd.unstable, hd.applied_le, hd.dummy_le, hd.le_committed, nofun, fun rd' stored hsome => ?_⟩
    obtain ⟨rfl, rfl⟩ := Prod.mk.inj (Option.some.inj hsome)
    exact ⟨hhanding.nothing, hhanding.cursor, hhanding.snapshot_le, hhanding.entries, hhanding.pending⟩
  refine ⟨hcont, ?_, hout.persist rfl hst⟩
  change node.raft.raftLog.applied = s.node.raft.raftLog.applied
  rw [hlog]

/-- `advance` moves the cursor of the node behind the `Ready`. -/
theorem delivered_advanced {rd : Ready} {d : Nat}
    (h : Delivered { node := s.node, outstanding := some ({ rd with hardState := {} }, true) } d) :
    Delivered { node := s.node.advance rd } d ∧
      (s.node.advance rd).raft.raftLog.applied = (if rd.appliedCursor > 0 then rd.appliedCursor else s.log.applied) := by
  have hadvanced := h.advance rfl
  have hnonzero : ∀ snap, s.log.unstable.snapshot = some snap → snap.metadata.index ≠ 0 := by
    intro snap hs
    have := ((h.handing _ _ rfl).pending snap hs).1
    omega
  refine ⟨?_, (advanceLog_leaves rd hnonzero).2.1⟩
  exact ⟨hadvanced.stored, hadvanced.unstable, hadvanced.applied_le, hadvanced.dummy_le, hadvanced.le_committed,
    hadvanced.waiting, hadvanced.handing⟩

theorem le_start {rd : Ready} {d : Nat} (h : rd.Continues d) : d ≤ rd.start d := by
  rw [Ready.start]
  split
  · exact le_rfl
  · rename_i hne
    exact (h.1 (by simpa using hne)).le

/-- Behind the first half of a round the `Ready` is stored, and its entries go on where the server
stands. -/
theorem Follows.saved (h : Follows s) {rd : Ready} {node : RawNode} (hrd : s.node.ready = .ok (rd, node))
    (hs : (saveReady mp crc { s with node := node } rd).result = .ok s₁) :
    Delivered { node := s₁.node, outstanding := some ({ rd with hardState := {} }, true) } (rd.reaches s.appliedIndex) ∧
      IndexedFrom (s₁.appliedIndex + 1) rd.committedEntries ∧ s.appliedIndex ≤ s₁.appliedIndex ∧
      s₁.appliedIndex = rd.start s.appliedIndex ∧ s₁.snapshotIndex ≤ s₁.appliedIndex ∧ s₁.id = s.id ∧
      s₁.log.applied = s.log.applied := by
  obtain ⟨st, hst, hnode, hid, happlied, hsnap⟩ := saveReady_spec hs
  obtain ⟨hcont, hlog, hstored⟩ := delivered_staged h.delivered hrd hst
  rw [happlied, hsnap, hid, log, hnode]
  refine ⟨hstored, hcont.2, le_start hcont, rfl, ?_, rfl, hlog⟩
  have := h.snapshot_le
  rw [Ready.start, Ready.start]
  split
  · exact this
  · exact le_rfl

/-- So the server finds no gap, and skips nothing. -/
theorem entriesToApply_eq {entries : List Entry} (h : IndexedFrom (s.appliedIndex + 1) entries) :
    s.entriesToApply entries = .ok entries := by
  unfold entriesToApply
  split
  · rfl
  · rename_i e es
    have he := h.cons.1
    rw [if_neg (by omega), he, Nat.sub_self, List.drop_zero]

/-- All of them are above where the server stood before. -/
theorem filter_above {i j : Nat} {entries : List Entry} (h : IndexedFrom (i + 1) entries) (hle : j ≤ i) :
    entries.filter (j < ·.index) = entries := by
  rw [List.filter_eq_self]
  intro e he
  obtain ⟨k, hk⟩ := List.mem_iff_getElem?.mp he
  have := h k e hk
  exact decide_eq_true (by omega)

/-- The difference of the indexes did not wrap, so something is applied when a snapshot is due. -/
theorem applied_pos_of_due (hle : s.snapshotIndex ≤ s.appliedIndex)
    (hdue : ¬ (s.appliedIndex + 2 ^ 64 - s.snapshotIndex) % 2 ^ 64 ≤ s.snapCount) : 1 ≤ s.appliedIndex := by
  by_contra hzero
  have h0 : s.appliedIndex = 0 := by omega
  have h1 : s.snapshotIndex = 0 := by omega
  rw [h0, h1] at hdue
  exact hdue (Nat.zero_le _)

/-- A snapshot of the server's own compacts nothing that is not applied. -/
theorem snapshotAt_spec {rd : Ready} {d : Nat} {data : Bytes}
    (hd : Delivered { node := s.node, outstanding := some (rd, true) } d) (hpos : 1 ≤ s.appliedIndex)
    (hcursor : s.appliedIndex ≤ s.log.applied ∨ s.appliedIndex ≤ rd.appliedCursor)
    (h : (s.snapshotAt mp crc data).result = .ok s') :
    Delivered { node := s'.node, outstanding := some (rd, true) } d ∧ s'.appliedIndex = s.appliedIndex ∧
      s'.snapshotIndex = s'.appliedIndex ∧ s'.log.applied = s.log.applied ∧ s'.id = s.id ∧ s'.store = s.store := by
  unfold snapshotAt at h
  rw [Prog.result_bind, Prog.result_lift] at h
  obtain ⟨⟨status, snap, st⟩, hcreate, h⟩ := bind_ok h
  simp only at h
  split at h
  · cases h
  rw [Prog.result_bind] at h
  obtain ⟨s₁, h₁, h⟩ := bind_ok h
  obtain ⟨wal, snaps, rfl⟩ := saveSnap_spec h₁
  rw [Prog.result_bind, Prog.result_lift] at h
  obtain ⟨⟨status', st'⟩, hcompact, h⟩ := bind_ok h
  simp only at h
  split at h
  · cases h
  obtain rfl := Except.ok.inj h
  obtain ⟨hdummy, hents⟩ := MemoryStorage.createSnapshot_keeps hcreate
  have hcreated : Delivered { node := (s.setStorage st).node, outstanding := some (rd, true) } d := by
    refine hd.setStorage ?_ ?_ (Or.inl (by rw [hdummy]; rfl)) rfl
    · rw [hdummy, hents]
      exact hd.stored
    · rw [hdummy]
      exact hd.dummy_le
  refine ⟨hcreated.compact ?_ hcompact, rfl, rfl, rfl, rfl, rfl⟩
  have hindex : (if s.appliedIndex > snapshotCatchUpEntriesN then s.appliedIndex - snapshotCatchUpEntriesN else 1) ≤
      s.appliedIndex := by
    split <;> omega
  rcases hcursor with hcursor | hcursor
  · exact Or.inl (hindex.trans hcursor)
  · exact Or.inr ⟨rd, rfl, hindex.trans hcursor⟩

theorem maybeTriggerSnapshot_spec {rd : Ready} {d : Nat}
    (hd : Delivered { node := s.node, outstanding := some (rd, true) } d) (hle : s.snapshotIndex ≤ s.appliedIndex)
    (hcursor : s.appliedIndex ≤ s.log.applied ∨ s.appliedIndex ≤ rd.appliedCursor)
    (h : (s.maybeTriggerSnapshot mp crc).result = .ok s') :
    Delivered { node := s'.node, outstanding := some (rd, true) } d ∧ s'.appliedIndex = s.appliedIndex ∧
      s'.snapshotIndex ≤ s'.appliedIndex ∧ s'.log.applied = s.log.applied := by
  unfold maybeTriggerSnapshot at h
  split at h
  · obtain rfl := Except.ok.inj h
    exact ⟨hd, rfl, hle, rfl⟩
  · rename_i hdue
    obtain ⟨hd', happlied, hsnap, hlog, -, -⟩ := snapshotAt_spec hd (applied_pos_of_due hle hdue) hcursor h
    exact ⟨hd', happlied, hsnap.le, hlog⟩

/-- A call on the node leaves the cursors alone. -/
theorem Follows.grows (h : Follows s) {node : RawNode} (hg : s.log.Grows True node.raft.raftLog) :
    Follows { s with node := node } :=
  ⟨h.cursor.trans hg.applied.symm, h.delivered.grows hg, h.snapshot_le⟩

/-- A round in which every entry is published leaves the server where the node is. -/
theorem Follows.round (h : Follows s) (hp : s.Unhindered mp) (hr : (s.pullReadyEvents mp crc).result = .ok s') :
    Follows s' := by
  unfold pullReadyEvents at hr
  split at hr
  · obtain rfl := Except.ok.inj hr
    exact h
  rw [Prog.result_bind, Prog.result_lift] at hr
  obtain ⟨⟨rd, node⟩, hrd, hr⟩ := bind_ok hr
  simp only at hr
  obtain ⟨hnext, -, -, hlog⟩ := ready_spec hrd
  split at hr
  · obtain rfl := Except.ok.inj hr
    refine h.grows ?_
    rw [hlog]
    exact .refl _
  rw [Prog.result_bind, applyReady_result] at hr
  obtain ⟨s₂, hpublish, hr⟩ := bind_ok hr
  obtain ⟨s₁, hsave, hpublish⟩ := bind_ok hpublish
  obtain ⟨hd, hidx, -, hstart, hsnap, hid, happlied⟩ := h.saved hrd hsave
  rw [entriesToApply_eq hidx] at hpublish
  have hall : ∀ e ∈ rd.committedEntries, Publishable mp s₁.id e := by
    rw [hid]
    exact hp _ hnext
  have hpublish : rd.committedEntries.foldlM (publish mp) s₁ = .ok s₂ := (publishEntries_eq hall).symm.trans hpublish
  obtain ⟨hpub, hcount⟩ := publishAll_published hpublish
  -- the server has counted the whole `Ready`
  have hreach : s₂.appliedIndex = rd.reaches s.appliedIndex := by
    rw [hcount, Ready.reaches, ← hstart]
    cases hlast : rd.committedEntries.getLast? with
    | none =>
        rw [List.getLast?_eq_none_iff.mp hlast]
        rfl
    | some e =>
        rw [List.getLast?_eq_getElem?] at hlast
        obtain ⟨hlt, -⟩ := List.getElem?_eq_some_iff.mp hlast
        have := hidx _ e hlast
        change e.index = _
        omega
  have hd₂ : Delivered { node := s₂.node, outstanding := some ({ rd with hardState := {} }, true) }
      (rd.reaches s.appliedIndex) := hd.grows hpub.log
  have hcursor : rd.appliedCursor = s₂.appliedIndex ∧ 0 < rd.appliedCursor ∨
      rd.appliedCursor = 0 ∧ s₂.appliedIndex = s₂.log.applied := by
    have hhanding := hd₂.handing _ _ rfl
    rcases Nat.eq_zero_or_pos rd.appliedCursor with hzero | hpos
    · refine Or.inr ⟨hzero, ?_⟩
      have hempty : rd.snapshot.isEmpty = true := (hhanding.nothing hzero).2
      have hstay : rd.reaches s.appliedIndex = s.appliedIndex := by
        rw [hstart] at hidx
        rcases Ready.cursor_cases hidx with ⟨-, hstay⟩ | ⟨hpos, -⟩
        · rw [hstay, Ready.start, if_pos hempty]
        · omega
      rw [hreach, hstay, h.cursor, hpub.log.applied, happlied]
    · exact Or.inl ⟨(hhanding.cursor hpos).trans hreach.symm, hpos⟩
  rw [Prog.result_bind] at hr
  obtain ⟨s₃, htrigger, hr⟩ := bind_ok hr
  obtain rfl := Except.ok.inj hr
  have hsnap₂ : s₂.snapshotIndex ≤ s₂.appliedIndex := by
    rw [hpub.snapshotIndex, hreach]
    exact (hsnap.trans hstart.le).trans (Nat.le_add_right _ _)
  obtain ⟨hd₃, hsame, hle, happlied₃⟩ := maybeTriggerSnapshot_spec hd₂ hsnap₂
    (hcursor.symm.imp (fun hstay => hstay.2.le) fun hmoved => hmoved.1.ge) htrigger
  obtain ⟨hadvanced, hmoved⟩ := delivered_advanced hd₃
  refine ⟨?_, ?_, hle⟩
  · change s₃.appliedIndex = (s₃.node.advance rd).raft.raftLog.applied
    rw [hmoved, hsame]
    rcases hcursor with ⟨heq, hpos⟩ | ⟨hzero, heq⟩
    · rw [if_pos hpos, heq]
    · rw [if_neg (by omega), happlied₃, heq]
  · change Delivered _ s₃.appliedIndex
    rw [hsame, hreach]
    exact hadvanced

/-! ### Starting -/

/-- The storage that is read back starts at its snapshot. -/
theorem replayWal_storage {d : Disk} {ftell : Nat} {r : Replay} (h : replayWal mp crc d ftell = .ok r) :
    r.storage.snapshot.metadata.index = r.storage.dummy.index := by
  unfold replayWal at h
  simp only at h
  obtain ⟨⟨wal, hs, ents⟩, -, h⟩ := bind_ok h
  obtain ⟨es, -, h⟩ := bind_ok h
  obtain ⟨st, hst, h⟩ := bind_ok h
  obtain ⟨stored, hframe⟩ := MemoryStorage.append_frame hst
  have hstorage : r.storage = st := by
    rw [← Except.ok.inj h]
    split <;> rfl
  rw [hstorage, hframe]
  cases (Snapshotter.load mp crc d.snaps {}).2 with
  | none => rfl
  | some snap =>
      simp only [loadedStorage, MemoryStorage.applySnapshot]
      split <;> rfl

theorem validate_keeps (id : Nat) (st : MemoryStorage) (draws : Nat → Nat) :
    (config id st draws).validate.2.storage = st ∧ (config id st draws).validate.2.applied = 0 := by
  by_cases hid : id = 0
  · simp [Config.validate, config, hid]
  · simp [Config.validate, config, hid]

theorem startRawNode_cases {walExists : Bool} {c : Config} {peers : Nat} {n : RawNode}
    (h : startRawNode mp walExists c peers = .ok n) :
    RawNode.restartNode c = .ok n ∨ ∃ serialize peers, RawNode.startNode serialize c peers = .ok n := by
  unfold startRawNode at h
  split at h
  · exact Or.inl h
  · exact Or.inr ⟨_, _, h⟩

/-- A server that starts: its node has the storage that was read back, and both cursors are at the
snapshot, where that storage begins. -/
structure Started (c : Config) (s : RaftNode κ) : Prop where
  node : RawNode.restartNode c = .ok s.node ∨ ∃ serialize peers, RawNode.startNode serialize c peers = .ok s.node
  storage : s.storage = c.storage
  applied_zero : c.applied = 0
  applied : s.log.applied = c.storage.dummy.index
  snapshot : c.storage.snapshot.metadata.index = c.storage.dummy.index
  snapshotIndex : s.snapshotIndex = s.storage.snapshot.metadata.index
  appliedIndex : s.appliedIndex = s.storage.snapshot.metadata.index
  count : s.snapCount = defaultSnapCount

theorem started_of_new {id peers ftell : Nat} {wal : Option Bytes} {snaps : SnapDir} {draws : Nat → Nat}
    (hnew : RaftNode.new mp crc id peers wal snaps ftell draws = .ok s) (hschedule : s.schedule mp = .ok s') :
    ∃ r c, replayWal mp crc { wal := wal.getD (Wal.create mp crc), snaps := snaps } ftell = .ok r ∧
      c.storage = r.storage ∧ s'.storage = s.storage ∧ Started c s' ∧ s'.snaps = r.snaps ∧
      RedisStore.new mp r.snapData = .ok s'.store := by
  unfold RaftNode.new at hnew
  obtain ⟨r, hreplay, hnew⟩ := bind_ok hnew
  have hkeeps := validate_keeps id r.storage draws
  simp only at hnew
  split at hnew
  · cases hnew
  obtain ⟨n, hnode, hnew⟩ := bind_ok hnew
  obtain rfl := Except.ok.inj hnew
  obtain ⟨store, hstore, hschedule⟩ := bind_ok hschedule
  obtain rfl := Except.ok.inj hschedule
  have hnode := startRawNode_cases hnode
  generalize (config id r.storage draws).validate.2 = c at hkeeps hnode
  obtain ⟨hstorage, hzero⟩ := hkeeps
  have hlog : n.raft.raftLog.storage = c.storage ∧ n.raft.raftLog.applied = c.storage.dummy.index := by
    refine started_holds (P := fun r => r.raftLog.storage = c.storage ∧ r.raftLog.applied = c.storage.dummy.index) hnode
      (fun r hr => ?_) (fun r es log hr _ _ happend => ?_) fun r r' i hr hadd => ?_
    · obtain ⟨hst, -, happ, -⟩ := new_log hr
      rw [hzero] at happ
      exact ⟨hst, happ⟩
    · obtain ⟨hst, -, happ, -⟩ := new_log hr
      rw [hzero] at happ
      have hgrow := RaftLog.append_grows (W := False) nofun happend
      exact ⟨hgrow.storage.trans hst, hgrow.applied.trans happ⟩
    · obtain ⟨_, _, _, rfl⟩ := addNodeOrLearner_frame hadd
      exact hr
  have hsnap : c.storage.snapshot.metadata.index = c.storage.dummy.index := by
    rw [hstorage]
    exact replayWal_storage hreplay
  exact ⟨r, c, hreplay, hstorage, rfl, ⟨hnode, hlog.1, hzero, hlog.2, hsnap, rfl, rfl, rfl⟩, rfl, hstore⟩

theorem started_follows {id peers ftell : Nat} {wal : Option Bytes} {snaps : SnapDir} {draws : Nat → Nat}
    (hnew : RaftNode.new mp crc id peers wal snaps ftell draws = .ok s) (hschedule : s.schedule mp = .ok s')
    (hnum : IndexedFrom (s.storage.dummy.index + 1) s.storage.ents) : Follows s' := by
  obtain ⟨r, c, -, -, hsame, hstarted, -, -⟩ := started_of_new hnew hschedule
  have hst : IndexedFrom (c.storage.dummy.index + 1) c.storage.ents := by
    rw [← hstarted.storage, hsame]
    exact hnum
  have hzero := hstarted.applied_zero
  have hdelivery : Delivery (max c.applied c.storage.dummy.index) { node := s'.node } :=
    started_delivery hst (by omega) hstarted.node
  have hindex : s'.appliedIndex = c.storage.dummy.index := by
    rw [hstarted.appliedIndex, hstarted.storage, hstarted.snapshot]
  refine ⟨hindex.trans hstarted.applied.symm, ?_, (hstarted.snapshotIndex.trans hstarted.appliedIndex.symm).le⟩
  have hd : Delivered { node := s'.node } (max c.applied c.storage.dummy.index) := hdelivery.delivered
  rwa [hzero, Nat.zero_max, ← hindex] at hd

theorem Runs.follows (h : Runs mp crc (Unhindered mp) s s') (hs : Follows s) : Follows s' := by
  induction h with
  | refl => exact hs
  | tail _ hstep ih =>
      cases hstep with
      | call ha hrun => exact ih.grows (call_grows ha hrun)
      | request => exact ⟨ih.cursor, ih.delivered, ih.snapshot_le⟩
      | round hp hr => exact ih.round hp hr

/-- In a server whose rounds find nothing that stops them the two cursors agree between the rounds. A
round takes from its `Ready` what lies above the cursor, so nothing is missing, and publishes all of
it, each entry once and in order. -/
theorem server_cursor_follows {id peers ftell : Nat} {wal : Option Bytes} {snaps : SnapDir} {draws : Nat → Nat}
    {s₀ : RaftNode κ} (hnew : RaftNode.new mp crc id peers wal snaps ftell draws = .ok s₁)
    (hschedule : s₁.schedule mp = .ok s₀) (hnum : IndexedFrom (s₁.storage.dummy.index + 1) s₁.storage.ents)
    (hruns : Runs mp crc (Unhindered mp) s₀ s) :
    s.appliedIndex = s.log.applied ∧
      ∀ rd node s₂, s.node.ready = .ok (rd, node) → (saveReady mp crc { s with node := node } rd).result = .ok s₂ →
        s₂.entriesToApply rd.committedEntries = .ok (rd.committedEntries.filter (s.appliedIndex < ·.index)) ∧
          (s.Unhindered mp → (applyReady mp crc { s with node := node } rd).result =
            (rd.committedEntries.filter (s.appliedIndex < ·.index)).foldlM (publish mp) s₂) := by
  have hs := hruns.follows (started_follows hnew hschedule hnum)
  refine ⟨hs.cursor, fun rd node s₂ hrd hsave => ?_⟩
  obtain ⟨-, hidx, hle, -, -, hid, -⟩ := hs.saved hrd hsave
  rw [filter_above hidx hle]
  have hentries := entriesToApply_eq hidx
  refine ⟨hentries, fun hp => ?_⟩
  have hall : ∀ e ∈ rd.committedEntries, Publishable mp s₂.id e := by
    rw [hid]
    exact hp _ (ready_spec hrd).1
  rw [applyReady_result, hsave]
  change s₂.entriesToApply rd.committedEntries >>= (fun entries => publishEntries mp entries s₂) = _
  rw [hentries]
  exact publishEntries_eq hall

/-! ### A server of three -/

/-- An append from the second member, which leads in term 2. -/
def appendOf (index logTerm : Nat) (entries : List Entry) : Message :=
  { type := .msgApp, from_ := 2, to_ := 1, term := 2, index := index, logTerm := logTerm, entries := entries,
    commit := index + entries.length }

theorem appendOf_isCall {index logTerm : Nat} {entries : List Entry}
    (h : entries.map Entry.index = List.range' (index + 1) entries.length) :
    (NodeAction.step (appendOf index logTerm entries)).IsCall := by
  refine ⟨fun _ => Nat.succ_ne_zero 1, fun _ k e hk => ?_⟩
  change entries[k]? = some e at hk
  obtain ⟨hlt, -⟩ := List.getElem?_eq_some_iff.mp hk
  have hidx : (entries.map Entry.index)[k]? = some e.index := by
    rw [List.getElem?_map]
    exact congrArg (Option.map Entry.index) hk
  rw [h, List.getElem?_range' hlt] at hidx
  have := Option.some.inj hidx
  change e.index = index + 1 + k
  omega

/-- The message arrives, and a round follows. -/
def hearAndRound (s : RaftNode Unit) (msg : Message) : Result (RaftNode Unit × RaftNode Unit) := do
  let n ← s.node.run (.step msg)
  let s' ← (({ s with node := n }).pullReadyEvents messagePack crc32).result
  .ok ({ s with node := n }, s')

/-- The first member on an empty disk: the constructor, `schedule`, the round that applies the
configuration, and an append with the round that it leads to. -/
def firstOfThree (msg : Message) :
    Result (RaftNode Unit × RaftNode Unit × RaftNode Unit × RaftNode Unit × RaftNode Unit) := do
  let s₁ ← RaftNode.new messagePack crc32 1 3 none ∅ 0 fun _ => 0
  let s₀ ← s₁.schedule messagePack
  let s ← (s₀.pullReadyEvents messagePack crc32).result
  let (s', s'') ← hearAndRound s msg
  .ok (s₁, s₀, s, s', s'')

theorem hearAndRound_runs {P : RaftNode Unit → Prop} {s s' s'' : RaftNode Unit} {msg : Message}
    (hcall : (NodeAction.step msg).IsCall) (h : hearAndRound s msg = .ok (s', s'')) (hp : P s') :
    Runs messagePack crc32 P s s'' := by
  obtain ⟨n, hn, h⟩ := bind_ok h
  obtain ⟨s₂, hround, h⟩ := bind_ok h
  obtain ⟨rfl, rfl⟩ := Prod.mk.inj (Except.ok.inj h)
  exact .head (.call hcall hn) (.single (.round hp hround))

theorem firstOfThree_runs {P : RaftNode Unit → Prop} {s₁ s₀ s s' s'' : RaftNode Unit} {msg : Message}
    (hcall : (NodeAction.step msg).IsCall) (h : firstOfThree msg = .ok (s₁, s₀, s, s', s'')) (hp : P s₀)
    (hp' : P s') :
    RaftNode.new messagePack crc32 1 3 none ∅ 0 (fun _ => 0) = .ok s₁ ∧ s₁.schedule messagePack = .ok s₀ ∧
      Runs messagePack crc32 P s₀ s'' := by
  obtain ⟨a₁, hnew, h⟩ := bind_ok h
  obtain ⟨a₀, hschedule, h⟩ := bind_ok h
  obtain ⟨a, hround, h⟩ := bind_ok h
  obtain ⟨⟨a', a''⟩, hhear, h⟩ := bind_ok h
  simp only [Except.ok.injEq, Prod.mk.injEq] at h
  obtain ⟨rfl, rfl, rfl, rfl, rfl⟩ := h
  exact ⟨hnew, hschedule, .head (.round hp hround) (hearAndRound_runs hcall hhear hp')⟩

/-- The second member sets a key. -/
def setByOther : Entry :=
  { term := 2, index := 4
    data := messagePack.pack (RaftCommit.toObj { nodeId := 2, redisData := { strs := [[107], [118]] } }) }

theorem server_cursor_follows_command : ∃ s₁ s₀ s : RaftNode Unit,
    RaftNode.new messagePack crc32 1 3 none ∅ 0 (fun _ => 0) = .ok s₁ ∧ s₁.schedule messagePack = .ok s₀ ∧
      Runs messagePack crc32 (Unhindered messagePack) s₀ s ∧ s.store.keyValues.lookup [107] = some [118] ∧
      s.log.applied = 4 ∧ s.appliedIndex = s.log.applied := by
  obtain ⟨⟨s₁, s₀, s, s', s''⟩, hrun, heval⟩ := exists_ok_of_any (x := firstOfThree (appendOf 3 1 [setByOther]))
    (p := fun (s₁, s₀, _, s', s'') => decide (s₁.storage.ents = [] ∧ s₀.Unhindered messagePack ∧
      s'.Unhindered messagePack ∧ s''.store.keyValues.lookup [107] = some [118] ∧ s''.log.applied = 4))
    (by decide +kernel)
  obtain ⟨hnil, hp, hp', hkey, happlied⟩ := of_decide_eq_true heval
  obtain ⟨hnew, hschedule, hruns⟩ := firstOfThree_runs (appendOf_isCall (by decide)) hrun hp hp'
  have hnum : IndexedFrom (s₁.storage.dummy.index + 1) s₁.storage.ents := by
    rw [hnil]
    exact .nil _
  exact ⟨s₁, s₀, s'', hnew, hschedule, hruns, hkey, happlied,
    (server_cursor_follows hnew hschedule hnum hruns).1⟩

/-- The change that removes the first member. -/
def ownRemoval : Entry :=
  { type := entryConfChange, term := 2, index := 4
    data := messagePack.pack (ConfChange.toObj { confChangeType := confChangeRemoveNode, nodeId := 1 }) }

/-- Behind its own removal a server stops counting and the node does not, and the next committed entry
ends the process. -/
theorem own_removal_splits_cursors : ∃ s₁ s₀ s s' : RaftNode Unit,
    RaftNode.new messagePack crc32 1 3 none ∅ 0 (fun _ => 0) = .ok s₁ ∧ s₁.schedule messagePack = .ok s₀ ∧
      s₁.storage.ents = [] ∧ Runs messagePack crc32 (fun _ => True) s₀ s ∧ s.appliedIndex = 3 ∧ s.log.applied = 5 ∧
      Runs messagePack crc32 (fun _ => True) s s' ∧ (s'.pullReadyEvents messagePack crc32).result =
        .error "first index of committed entry[%lu] should <= progress.appliedIndex[%lu]+1" := by
  obtain ⟨⟨⟨s₁, s₀, s, s', s''⟩, n⟩, hrun, heval⟩ := exists_ok_of_any
    (x := do
      let p ← firstOfThree (appendOf 3 1 [ownRemoval, { term := 2, index := 5 }])
      let n ← p.2.2.2.2.node.run (.step (appendOf 5 2 [{ term := 2, index := 6 }]))
      .ok (p, n))
    (p := fun ((s₁, _, _, _, s''), n) => decide (s₁.storage.ents = [] ∧ s''.appliedIndex = 3 ∧ s''.log.applied = 5) &&
      failsWith "first index of committed entry[%lu] should <= progress.appliedIndex[%lu]+1"
        (({ s'' with node := n }).pullReadyEvents messagePack crc32).result)
    (by decide +kernel)
  obtain ⟨p, hfirst, hrun⟩ := bind_ok hrun
  obtain ⟨n', hn, hrun⟩ := bind_ok hrun
  obtain ⟨rfl, rfl⟩ := Prod.mk.inj (Except.ok.inj hrun)
  obtain ⟨hdec, htext⟩ := Bool.and_eq_true_iff.mp heval
  obtain ⟨hnil, hcursor, happlied⟩ := of_decide_eq_true hdec
  obtain ⟨hnew, hschedule, hruns⟩ := firstOfThree_runs (P := fun _ => True) (appendOf_isCall (by decide)) hfirst trivial trivial
  refine ⟨s₁, s₀, s'', { s'' with node := n' }, hnew, hschedule, hnil, hruns, hcursor, happlied,
    .single (.call (appendOf_isCall (by decide)) hn), eq_error_of_failsWith htext⟩

end RaftNode

end RaftEtcd
