import RaftEtcd.Delivery
import RaftEtcd.RaftNode
import RaftEtcd.SnapFiles
import RaftEtcd.WalView

/-! What a process can start from, and what it then is. The disk holds records that are sound from
the snapshot that the process before it started at, and files of that snapshot and of later ones that
are recorded; a process that starts there holds the log that the records describe. -/
namespace RaftEtcd

open Snapshotter
open Journal (Prog Safe)

variable {mp : Msgpack} {crc : Bytes → UInt32}

/-! ### The disk -/

/-- The files behind the snapshot at `x`: its own can be read, and each that can be read is a later
one that is recorded, or has a smaller name. -/
structure Files (mp : Msgpack) (crc : Bytes → UInt32) (dir : SnapDir) (x t : Nat) (vs : List WalItem) : Prop where
  base : x ≠ 0 → ∃ file y, dir.lookup (snapName t x) = some file ∧ readSnap mp crc {} file = some y ∧
    y.metadata.index = x ∧ y.metadata.term = t
  saved : ∀ name file y, dir.lookup name = some file → IsSnap name → readSnap mp crc {} file = some y →
    (.snapshot { index := y.metadata.index, term := y.metadata.term } ∈ vs ∧ x ≤ y.metadata.index ∧
      y.metadata.index ≠ 0 ∧ name = snapName y.metadata.term y.metadata.index) ∨ x ≠ 0 ∧ name < snapName t x

namespace Files
variable {dir : SnapDir} {x t : Nat} {vs vs' : List WalItem}

theorem mono (h : Files mp crc dir x t vs) (hsub : vs ⊆ vs') : Files mp crc dir x t vs' where
  base := h.base
  saved name file y hfile hsnap hread := by
    rcases h.saved name file y hfile hsnap hread with ⟨hmem, hrest⟩ | hlt
    · exact Or.inl ⟨hsub hmem, hrest⟩
    · exact Or.inr hlt

/-- A file of a recorded snapshot may be on its way. -/
theorem insert (h : Files mp crc dir x t vs) {snap : Snapshot} {content : Bytes} (hx : x < 2 ^ 64)
    (hs : snap.metadata.index < 2 ^ 64) (hlt : x < snap.metadata.index) (hlib : mp.Delimits snap.toObj)
    (hmem : .snapshot { index := snap.metadata.index, term := snap.metadata.term } ∈ vs)
    (hpart : content <+: snapFile mp crc snap) :
    Files mp crc (dir.insert (snapName snap.metadata.term snap.metadata.index) content) x t vs where
  base hne := by
    obtain ⟨file, y, hfile, hread⟩ := h.base hne
    refine ⟨file, y, ?_, hread⟩
    rw [AList.lookup_insert_ne fun heq => ?_]
    · exact hfile
    · have := snapName_inj hx hs heq
      omega
  saved name file y hfile hsnap hread := by
    by_cases heq : name = snapName snap.metadata.term snap.metadata.index
    · rw [heq, AList.lookup_insert] at hfile
      obtain rfl := Option.some.inj hfile
      obtain ⟨hi, ht⟩ := readSnap_saved hlib hpart hread
      rw [hi, ht]
      exact Or.inl ⟨hmem, hlt.le, by omega, heq⟩
    · rw [AList.lookup_insert_ne heq] at hfile
      exact h.saved name file y hfile hsnap hread

/-- The snapshot that is found is recorded and not older, or there is none and none was expected. -/
theorem load (h : Files mp crc dir x t vs) (hbase : .snapshot { index := x, term := t } ∈ vs)
    (hzero : x = 0 → t = 0) :
    ∃ dir' r y u, Snapshotter.load mp crc dir {} = (dir', r) ∧ .snapshot { index := y, term := u } ∈ vs ∧ x ≤ y ∧
      (y = 0 → u = 0) ∧ Files mp crc dir' y u vs ∧
      (r = none ∧ y = 0 ∨
        ∃ snap, r = some snap ∧ snap.metadata = { index := y, term := u } ∧ y ≠ 0) := by
  obtain ⟨dir', ⟨hload, hall⟩ | ⟨name, file, snap, hload, hfile, hsnap, hread, hothers⟩⟩ :=
    load_spec mp crc dir
  · have hx : x = 0 := by
      by_contra hne
      obtain ⟨file, y, hfile, hread, -⟩ := h.base hne
      cases ((hall _ (isSnap_snapName t x)).1 file hfile).symm.trans hread
    refine ⟨dir', none, x, t, hload, hbase, le_rfl, hzero, ⟨fun hne => absurd hx hne, ?_⟩, Or.inl ⟨rfl, hx⟩⟩
    intro n f y hf hsnap
    cases (hall n hsnap).2.symm.trans hf
  · -- nothing with a smaller name than the file of the old snapshot is found
    have hnot : ¬ (x ≠ 0 ∧ name < snapName t x) := by
      rintro ⟨hne, hlt⟩
      obtain ⟨f, y, hf, hy, -⟩ := h.base hne
      rcases hothers _ (isSnap_snapName t x) with ⟨-, hun, -⟩ | ⟨hge, -⟩
      · cases (hun f hf).symm.trans hy
      · exact hge hlt
    obtain ⟨hmem, hle, hne, hname⟩ := (h.saved name file snap hfile hsnap hread).resolve_right hnot
    have hmeta : snap.metadata = { index := snap.metadata.index, term := snap.metadata.term } := by
      have := readSnap_confState hread
      cases hm : snap.metadata
      simp only [hm] at this ⊢
      rw [this]
    have hkept : dir'.lookup name = some file := by
      rcases hothers name hsnap with ⟨hlt, -⟩ | ⟨-, heq⟩
      · exact absurd hlt (List.lt_irrefl _)
      · exact heq.trans hfile
    refine ⟨dir', some snap, snap.metadata.index, snap.metadata.term, hload, hmem, hle, fun h0 => absurd h0 hne,
      ⟨fun _ => ⟨file, snap, hname ▸ hkept, hread, rfl, rfl⟩, fun n f y hf hn hy => ?_⟩, Or.inr ⟨snap, rfl, hmeta, hne⟩⟩
    rcases hothers n hn with ⟨-, -, hgone⟩ | ⟨hge, heq⟩
    · cases hgone.symm.trans hf
    · by_cases hself : n = name
      · subst hself
        obtain rfl := Option.some.inj (hkept.symm.trans hf)
        obtain rfl := Option.some.inj (hread.symm.trans hy)
        exact Or.inl ⟨hmem, le_rfl, hne, hname⟩
      · refine Or.inr ⟨hne, ?_⟩
        rw [← hname]
        by_contra hge'
        exact hself (List.le_antisymm (List.not_lt.mp hge) (List.not_lt.mp hge'))

end Files

/-- The file of the log holds `vs` and perhaps a part of `ws`, and the records that it holds of them are
sound from the snapshot at `x`. -/
structure Restartable (mp : Msgpack) (crc : Bytes → UInt32) (x t : Nat) (vs ws : List WalItem) (d : Disk) : Prop where
  low : itemBytes mp crc vs <+: d.wal
  high : d.wal <+: itemBytes mp crc (vs ++ ws)
  fits : ∀ v ∈ ws, v.Fits mp
  sound : ∀ pre, pre <+: ws → itemBytes mp crc (vs ++ pre) <+: d.wal → Replayable mp x t (vs ++ pre)
  files : Files mp crc d.snaps x t vs

theorem Restartable.held {x t : Nat} {vs ws : List WalItem} {d : Disk} (h : Restartable mp crc x t vs ws d) :
    Replayable mp x t vs := by
  have hvs := h.sound [] List.nil_prefix
  rw [List.append_nil] at hvs
  exact hvs h.low

/-- Every part of the records is sound. -/
theorem Restartable.of_sound {x t : Nat} {vs ws : List WalItem} {d : Disk} (low : itemBytes mp crc vs <+: d.wal)
    (high : d.wal <+: itemBytes mp crc (vs ++ ws)) (sound : ∀ pre, pre <+: ws → Replayable mp x t (vs ++ pre))
    (files : Files mp crc d.snaps x t vs) : Restartable mp crc x t vs ws d where
  low := low
  high := high
  fits v hv := (sound ws (List.prefix_refl _)).fits v (List.mem_append_right _ hv)
  sound pre hpre _ := sound pre hpre
  files := files

/-! ### The process -/

/-- The log of a process that started at the snapshot at `x`, when `vs` was written or waits to be:
the storage holds a first part of what the records describe, from somewhere committed on. -/
structure Kept (x t : Nat) (vs : List WalItem) (l : RaftLog) : Prop where
  dummy_ge : x ≤ l.storage.dummy.index
  dummy_le : l.storage.dummy.index ≤ itemCommit vs
  dummy_term : l.storage.dummy.index = x ∧ l.storage.dummy.term = t ∨ x < l.storage.dummy.index ∧
    ∃ e, (view x (itemEntries vs))[l.storage.dummy.index - x - 1]? = some e ∧ e.term = l.storage.dummy.term
  ents : l.storage.ents <+: (view x (itemEntries vs)).drop (l.storage.dummy.index - x)
  snapshot_ge : x ≤ l.storage.snapshot.metadata.index
  snapshot_le : l.storage.snapshot.metadata.index ≤ itemCommit vs
  indexed : IndexedFrom l.unstable.offset l.unstable.entries
  committed_ge : itemCommit vs ≤ l.committed
  applied_le : l.applied ≤ l.committed

variable {κ : Type} {x t : Nat} {vs buf ws : List WalItem} {l l' : RaftLog} {s s' : RaftNode κ}

theorem Kept.lastIndex_le (h : Kept x t vs l) (hs : Replayable mp x t vs) :
    l.storage.lastIndex ≤ viewEnd x (itemEntries vs) := by
  have h1 := h.dummy_ge
  have h2 := h.dummy_le
  have h3 := hs.le
  have h4 := h.ents.length_le
  rw [viewEnd] at h3 ⊢
  rw [List.length_drop] at h4
  rw [MemoryStorage.lastIndex]
  omega

theorem Kept.stored (h : Kept x t vs l) (hs : Replayable mp x t vs) : IndexedFrom (l.storage.dummy.index + 1) l.storage.ents := by
  have h1 := h.dummy_ge
  have hidx := (view_indexed hs.fills).drop (l.storage.dummy.index - x)
  rw [show x + 1 + (l.storage.dummy.index - x) = l.storage.dummy.index + 1 by omega] at hidx
  exact hidx.of_initial h.ents

/-- Whatever the node does by itself, it keeps that. -/
theorem Kept.grows (h : Kept x t vs l) (hg : l.Grows True l') : Kept x t vs l' where
  dummy_ge := by
    rw [hg.storage]
    exact h.dummy_ge
  dummy_le := by
    rw [hg.storage]
    exact h.dummy_le
  dummy_term := by
    rw [hg.storage]
    exact h.dummy_term
  ents := by
    rw [hg.storage]
    exact h.ents
  snapshot_ge := by
    rw [hg.storage]
    exact h.snapshot_ge
  snapshot_le := by
    rw [hg.storage]
    exact h.snapshot_le
  indexed := hg.indexed trivial h.indexed
  committed_ge := h.committed_ge.trans hg.committed
  applied_le := by
    rw [hg.applied]
    exact h.applied_le.trans hg.committed

/-- What a process has on the disk: `vs` is in the file of the log, and `buf` waits to be written. -/
structure Held (mp : Msgpack) (crc : Bytes → UInt32) (x t : Nat) (vs buf : List WalItem) (s : RaftNode κ) : Prop where
  id : s.id ≠ 0
  stored : Stored s.wal (itemBytes mp crc vs) (itemBytes mp crc buf)
  sound : ∀ pre, pre <+: buf → Replayable mp x t (vs ++ pre)
  files : Files mp crc s.snaps x t vs
  prev : s.node.prevHardState.commit ≤ itemCommit (vs ++ buf)
  applied : s.appliedIndex ≤ itemCommit (vs ++ buf)

/-- A process that is running. -/
structure Running (mp : Msgpack) (crc : Bytes → UInt32) (x t : Nat) (vs buf : List WalItem) (s : RaftNode κ) : Prop
    extends Held mp crc x t vs buf s where
  log : Kept x t (vs ++ buf) s.log

/-- And nothing that the records commit is changed any more. -/
structure Live (mp : Msgpack) (crc : Bytes → UInt32) (x t : Nat) (vs buf : List WalItem) (s : RaftNode κ) : Prop
    extends Running mp crc x t vs buf s where
  tail : s.log.Tail (itemCommit (vs ++ buf))
  pending : ∀ snap, s.log.unstable.snapshot = some snap → itemCommit (vs ++ buf) < snap.metadata.index

theorem Held.all (h : Held mp crc x t vs buf s) : Replayable mp x t (vs ++ buf) := h.sound buf (List.prefix_refl _)

theorem Held.restartable (h : Held mp crc x t vs buf s) : Restartable mp crc x t vs [] s.disk := by
  have hcontent : s.disk.wal = itemBytes mp crc vs := h.stored.backContent
  refine .of_sound (by rw [hcontent]) (by rw [hcontent, List.append_nil]) (fun pre hpre => ?_) h.files
  rw [List.prefix_nil.mp hpre]
  exact h.sound [] List.nil_prefix

/-! ### Starting -/

theorem derefEntries_some (es : List Entry) : RaftNode.derefEntries (es.map some) = .ok es := by
  induction es with
  | nil => rfl
  | cons e es ih =>
      rw [List.map_cons, RaftNode.derefEntries, ih]
      rfl

theorem append_empty {st : MemoryStorage} {es : List Entry} (hst : st.ents = [])
    (hes : IndexedFrom (st.dummy.index + 1) es) : st.append es = .ok { st with ents := es } := by
  cases es with
  | nil =>
      change Except.ok st = .ok { st with ents := [] }
      rw [← hst]
  | cons e es =>
      have he : e.index = st.dummy.index + 1 := hes.cons.1
      unfold MemoryStorage.append
      simp only [he, MemoryStorage.firstIndex, Nat.sub_self, List.drop_zero, List.length_cons]
      rw [if_neg (by omega), hst]
      simp

/-- The constructor of a server without configured peers, on a hard state in range. -/
theorem new_ok {c : Config} (hpeers : c.peers = []) (hlearners : c.learners = []) (happ : c.applied = 0)
    (hconf : c.storage.snapshot.metadata.confState = {})
    (hge : c.storage.dummy.index ≤ c.storage.hardState.commit) (hle : c.storage.hardState.commit ≤ c.storage.lastIndex) :
    ∃ r, Raft.new c = .ok r ∧ r.raftLog =
      { RaftLog.new c.storage c.maxCommittedSizePerReady with committed := c.storage.hardState.commit } := by
  have hinit : Raft.initialPeers c = .ok ([], []) := by
    simp [Raft.initialPeers, hconf, hpeers, hlearners]
  unfold Raft.new
  rw [hinit]
  simp only [bind, Except.bind, Raft.addLearners, List.foldlM_nil, pure, Except.pure]
  by_cases hempty : c.storage.hardState.isEmptyState = true
  · have hzero := HardState.eq_of_isEmptyState hempty
    rw [hzero] at hge ⊢
    have hd : c.storage.dummy.index = 0 := Nat.le_zero.mp hge
    simp [happ, HardState.isEmptyState, Raft.becomeFollower, RaftLog.new, MemoryStorage.firstIndex, hd]
  · have hload : ∀ r : Raft, r.raftLog = RaftLog.new c.storage c.maxCommittedSizePerReady →
        r.loadState c.storage.hardState = .ok { r with
          raftLog := { r.raftLog with committed := c.storage.hardState.commit }
          term := c.storage.hardState.term
          vote := c.storage.hardState.vote } := by
      intro r hr
      rw [Raft.loadState, if_neg]
      rw [hr]
      simp only [RaftLog.new, RaftLog.lastIndex, Unstable.maybeLastIndex, MemoryStorage.firstIndex, ne_eq,
        not_true_eq_false, if_false, Option.map_none, not_or]
      omega
    simp only [hempty, Bool.not_false, if_true, happ]
    rw [hload]
    · exact ⟨_, rfl, by simp [Raft.becomeFollower]⟩
    · rfl

/-- What the replay of sound records leaves: the log behind the snapshot that was found. -/
structure Replayed (mp : Msgpack) (crc : Bytes → UInt32) (x t : Nat) (vs : List WalItem) (r : RaftNode.Replay) :
    Prop where
  sound : Replayable mp x t vs
  stored : Stored r.wal (itemBytes mp crc vs) []
  files : Files mp crc r.snaps x t vs
  dummy_index : r.storage.dummy.index = x
  dummy_term : r.storage.dummy.term = t
  ents : r.storage.ents = view x (itemEntries vs)
  hardState : r.storage.hardState = itemState vs
  snapshot : r.storage.snapshot.metadata = { index := x, term := t }
  snapData : x = 0 → r.snapData = []

/-- The snapshot and the storage before the log is opened. -/
theorem loaded_start {loaded : Option Snapshot} {y u : Nat} (hzero : y = 0 → u = 0)
    (hfound : loaded = none ∧ y = 0 ∨
      ∃ snap, loaded = some snap ∧ snap.metadata = { index := y, term := u } ∧ y ≠ 0) :
    (loaded.getD {}).metadata = { index := y, term := u } ∧ (RaftNode.loadedStorage loaded).dummy.index = y ∧
      (RaftNode.loadedStorage loaded).dummy.term = u ∧ (RaftNode.loadedStorage loaded).ents = [] ∧
      (RaftNode.loadedStorage loaded).snapshot.metadata = { index := y, term := u } := by
  rcases hfound with ⟨rfl, rfl⟩ | ⟨snap, rfl, hmeta, hne⟩
  · rw [hzero rfl]
    exact ⟨rfl, rfl, rfl, rfl, rfl⟩
  · have hlt : ¬ 0 ≥ snap.metadata.index := by
      rw [hmeta]
      exact fun h => hne (Nat.le_zero.mp h)
    have happly : RaftNode.loadedStorage (some snap) =
        { snapshot := snap, dummy := { term := snap.metadata.term, index := snap.metadata.index } } := by
      rw [RaftNode.loadedStorage, MemoryStorage.applySnapshot, if_neg hlt]
    rw [happly, Option.getD_some, hmeta]
    exact ⟨rfl, rfl, rfl, rfl, rfl⟩

/-- Where it comes from: the records that the file of the log holds, and the snapshot that is found, whose data
is kept when no entry is behind it. -/
structure FoundOn (mp : Msgpack) (crc : Bytes → UInt32) (d : Disk) (x : Nat) (vs : List WalItem) (r : RaftNode.Replay) :
    Prop where
  records : processed crc d.wal = itemRecords mp vs
  snaps : r.snaps = (Snapshotter.load mp crc d.snaps {}).1
  index : ((Snapshotter.load mp crc d.snaps {}).2.getD {}).metadata.index = x
  snapData : r.snapData = if r.storage.ents = [] then ((Snapshotter.load mp crc d.snaps {}).2.getD {}).data else []

/-- What is read back are the whole records that the file holds. -/
theorem Restartable.replay (hmp : mp.Reliable) {d : Disk} (h : Restartable mp crc x t vs ws d) (ftell : Nat) :
    ∃ r y u pre, RaftNode.replayWal mp crc d ftell = .ok r ∧ pre <+: ws ∧ itemBytes mp crc (vs ++ pre) <+: d.wal ∧
      Replayed mp crc y u (vs ++ pre) r ∧ FoundOn mp crc d y (vs ++ pre) r := by
  have hvs := h.held
  obtain ⟨dir, loaded, y, u, hload, hmem, hxy, hzero, hfiles, hfound⟩ := h.files.load hvs.base hvs.zero
  obtain ⟨pre, hpre, hwhole, hread, hcontent, hbuffer⟩ := read_torn hvs.fits h.fits h.low h.high 0 ftell
  have hsound := (h.sound pre hpre hwhole).rebase (List.mem_append_left _ hmem) hxy
  obtain ⟨w, hall, hstored⟩ := hsound.readAll hmp hread hcontent hbuffer
  obtain ⟨hmeta, hi, hu, hnil, hstsnap⟩ := loaded_start hzero hfound
  have happend : ((RaftNode.loadedStorage loaded).setHardState (itemState (vs ++ pre))).append
        (view y (itemEntries (vs ++ pre))) =
      .ok { (RaftNode.loadedStorage loaded).setHardState (itemState (vs ++ pre)) with
        ents := view y (itemEntries (vs ++ pre)) } := by
    refine append_empty hnil ?_
    change IndexedFrom ((RaftNode.loadedStorage loaded).dummy.index + 1) _
    rw [hi]
    exact view_indexed hsound.fills
  unfold RaftNode.replayWal
  rw [hload]
  simp only [hmeta, hall, bind, Except.bind, derefEntries_some, happend]
  have hmono : vs ⊆ vs ++ pre := List.subset_append_left _ _
  have hdata : y = 0 → (loaded.getD {}).data = [] := by
    intro h0
    obtain ⟨rfl, -⟩ | ⟨_, -, -, hne⟩ := hfound
    · rfl
    · exact absurd h0 hne
  have hindex : ((Snapshotter.load mp crc d.snaps {}).2.getD {}).metadata.index = y := by rw [hload, hmeta]
  cases hlast : (view y (itemEntries (vs ++ pre))).getLast? with
  | none =>
      refine ⟨_, y, u, pre, rfl, hpre, hwhole,
        ⟨hsound, hstored, hfiles.mono hmono, hi, hu, rfl, rfl, hstsnap, hdata⟩, hread, by rw [hload], hindex, ?_⟩
      rw [hload]
      exact (if_pos (List.getLast?_eq_none_iff.mp hlast)).symm
  | some e =>
      refine ⟨_, y, u, pre, rfl, hpre, hwhole,
        ⟨hsound, hstored, hfiles.mono hmono, hi, hu, rfl, rfl, hstsnap, fun _ => rfl⟩, hread, by rw [hload], hindex, ?_⟩
      refine (if_neg fun hnil => ?_).symm
      rw [show view y (itemEntries (vs ++ pre)) = [] from hnil] at hlast
      cases hlast

/-- The log of a node that is made from the replay. -/
theorem Replayed.kept {r : RaftNode.Replay} (h : Replayed mp crc x t vs r) (limit : Nat) :
    Kept x t vs { RaftLog.new r.storage limit with committed := r.storage.hardState.commit } := by
  have hge := h.sound.ge
  have hcom : r.storage.hardState.commit = itemCommit vs := by rw [h.hardState]; rfl
  refine ⟨h.dummy_index.ge, ?_, Or.inl ⟨h.dummy_index, h.dummy_term⟩, ?_, ?_, ?_, .nil _, hcom.ge, ?_⟩
  · exact h.dummy_index.trans_le hge
  · rw [RaftLog.new, h.dummy_index, Nat.sub_self, List.drop_zero, h.ents]
  · rw [RaftLog.new, h.snapshot]
  · rw [RaftLog.new, h.snapshot]
    exact hge
  · simp only [RaftLog.new, MemoryStorage.firstIndex, h.dummy_index]
    omega

theorem Replayed.lastIndex {r : RaftNode.Replay} (h : Replayed mp crc x t vs r) :
    r.storage.lastIndex = viewEnd x (itemEntries vs) := by
  rw [MemoryStorage.lastIndex, h.dummy_index, h.ents]
  rfl

theorem Replayed.tail {r : RaftNode.Replay} (h : Replayed mp crc x t vs r) (limit : Nat) :
    RaftLog.Tail (itemCommit vs) { RaftLog.new r.storage limit with committed := r.storage.hardState.commit } := by
  have hle := h.sound.le
  have hlast := h.lastIndex
  have hcom : r.storage.hardState.commit = itemCommit vs := by rw [h.hardState]; rfl
  refine ⟨fun hne => absurd rfl hne, le_rfl, fun _ => rfl, ?_, fun s hs => nomatch hs⟩
  simp only [RaftLog.new, List.length_nil]
  omega

/-- The settings with the default that `validate` fills in. -/
def validConfig (id : Nat) (st : MemoryStorage) (draws : Nat → Nat) : Config :=
  { RaftNode.config id st draws with maxCommittedSizePerReady := 1024 * 1024 }

theorem validate_config {id : Nat} (hid : id ≠ 0) (st : MemoryStorage) (draws : Nat → Nat) :
    (RaftNode.config id st draws).validate = (.ok, validConfig id st draws) := by
  simp [Config.validate, RaftNode.config, validConfig, hid]

/-- The process that the constructor makes of a replay. -/
def RaftNode.ofReplay {κ : Type} (id : Nat) (r : RaftNode.Replay) (node : RawNode) : RaftNode κ :=
  { id := id, node := node, wal := r.wal, snaps := r.snaps, lastIndex := r.lastIndex, snapData := r.snapData }

/-- The node that is made of the replay has the log that was replayed. -/
theorem Replayed.raft {r : RaftNode.Replay} (h : Replayed mp crc x t vs r) (id : Nat) (draws : Nat → Nat) :
    ∃ raft, Raft.new (validConfig id r.storage draws) = .ok raft ∧ raft.raftLog =
      { RaftLog.new r.storage (1024 * 1024) with committed := itemCommit vs } := by
  have hcom : r.storage.hardState.commit = itemCommit vs := by rw [h.hardState]; rfl
  have hc : (validConfig id r.storage draws).storage = r.storage := rfl
  obtain ⟨raft, hnew, hlog⟩ := new_ok (c := validConfig id r.storage draws) rfl rfl rfl
    (by rw [hc, h.snapshot]) (by rw [hc, h.dummy_index, hcom]; exact h.sound.ge)
    (by rw [hc, hcom, h.lastIndex]; exact h.sound.le)
  refine ⟨raft, hnew, ?_⟩
  rw [hlog, hc, hcom]
  rfl

/-- Whatever is left of the last write, the constructor makes a node of what is read back. -/
theorem Restartable.boots (hmp : mp.Reliable) {d : Disk} (h : Restartable mp crc x t vs ws d) {id : Nat} (hid : id ≠ 0)
    (peers ftell : Nat) (draws : Nat → Nat) :
    ∃ (r : RaftNode.Replay) (y u : Nat) (pre : List WalItem) (raft : Raft),
      RaftNode.new mp crc id peers (some d.wal) d.snaps ftell draws =
        .ok (RaftNode.ofReplay (κ := κ) id r (RawNode.ofRaft raft r.storage.lastIndex)) ∧
      pre <+: ws ∧ itemBytes mp crc (vs ++ pre) <+: d.wal ∧ Replayed mp crc y u (vs ++ pre) r ∧
      Raft.new (validConfig id r.storage draws) = .ok raft ∧ raft.raftLog =
        { RaftLog.new r.storage (1024 * 1024) with committed := itemCommit (vs ++ pre) } := by
  obtain ⟨r, y, u, pre, hreplay, hpre, hwhole, hr, -⟩ := h.replay hmp ftell
  obtain ⟨raft, hnew, hlog⟩ := hr.raft id draws
  refine ⟨r, y, u, pre, raft, ?_, hpre, hwhole, hr, hnew, hlog⟩
  have hnode : RaftNode.startRawNode mp true (validConfig id r.storage draws) peers =
      .ok (RawNode.ofRaft raft r.storage.lastIndex) := by
    rw [RaftNode.startRawNode, if_pos rfl, RawNode.restartNode, hnew]
    rfl
  rw [RaftNode.new, Option.getD_some, hreplay]
  simp only [bind, Except.bind, validate_config hid, Status.isOk, Option.isSome_some, hnode]
  rfl

/-- And what it makes is a process that runs. -/
theorem Restartable.new (hmp : mp.Reliable) {d : Disk} (h : Restartable mp crc x t vs ws d) {id : Nat} (hid : id ≠ 0)
    (peers ftell : Nat) (draws : Nat → Nat) :
    ∃ (s : RaftNode κ) (y u : Nat) (vs' : List WalItem), RaftNode.new mp crc id peers (some d.wal) d.snaps ftell draws = .ok s ∧
      Live mp crc y u vs' [] s ∧ s.storage.snapshot.metadata.index ≤ s.storage.hardState.commit ∧
      s.storage.hardState.commit ≤ s.storage.lastIndex ∧ s.storage.snapshot.metadata.index ≤ itemCommit vs' := by
  obtain ⟨r, y, u, pre, raft, hboot, -, -, hr, -, hlog⟩ := h.boots (κ := κ) hmp hid peers ftell draws
  generalize vs ++ pre = vs' at hr hlog
  have hge := hr.sound.ge
  have hle := hr.sound.le
  have hlast := hr.lastIndex
  have hcom : r.storage.hardState.commit = itemCommit vs' := by rw [hr.hardState]; rfl
  have hstore : raft.raftLog.storage = r.storage := by rw [hlog]; rfl
  have hkept := hr.kept (1024 * 1024)
  have htail := hr.tail (1024 * 1024)
  rw [hcom, ← hlog] at hkept htail
  refine ⟨_, y, u, vs', hboot, ⟨⟨⟨hid, hr.stored, fun pre hpre => ?_, hr.files, ?_, Nat.zero_le _⟩, ?_⟩, ?_, fun snap hsnap => ?_⟩, ?_⟩
  · rw [List.prefix_nil.mp hpre, List.append_nil]
    exact hr.sound
  · rw [List.append_nil]
    change (if r.storage.lastIndex = 0 then {} else raft.hardState).commit ≤ itemCommit vs'
    split
    · exact Nat.zero_le _
    · change raft.raftLog.committed ≤ itemCommit vs'
      rw [hlog]
  · rw [List.append_nil]
    exact hkept
  · rw [List.append_nil]
    exact htail
  · change raft.raftLog.unstable.snapshot = some snap at hsnap
    rw [hlog] at hsnap
    cases hsnap
  · change raft.raftLog.storage.snapshot.metadata.index ≤ raft.raftLog.storage.hardState.commit ∧
      raft.raftLog.storage.hardState.commit ≤ raft.raftLog.storage.lastIndex ∧
      raft.raftLog.storage.snapshot.metadata.index ≤ itemCommit vs'
    rw [hstore, hr.snapshot, hcom, hlast]
    exact ⟨hge, hle, hge⟩

/-! ### The first start -/

theorem WalItem.fits_snapshot (hmp : mp.Reliable) {index term : Nat} (hi : index < 2 ^ 64) (ht : term < 2 ^ 64) :
    (WalItem.snapshot { index := index, term := term }).Fits mp := by
  refine ⟨WalSnapshot.fits hi ht, ?_⟩
  have hlen := hmp.numbers [index, term] (by simpa using ⟨hi, ht⟩)
  exact hlen.trans (by simp [maxWalRecordLen])

theorem WalItem.fits_state (hmp : mp.Reliable) {hs : HardState} (h : MessagePack.Fits hs.toObj) :
    (WalItem.state hs).Fits mp := by
  refine ⟨h, ?_⟩
  obtain - | - | - | - | ⟨-, hnums⟩ := h
  have hbound : ∀ n ∈ [hs.term, hs.vote, hs.commit], n < 2 ^ 64 := by
    intro n hn
    have hfit := hnums (.uint n) (by simpa using hn)
    cases hfit
    assumption
  exact (hmp.numbers [hs.term, hs.vote, hs.commit] hbound).trans (by simp [maxWalRecordLen])

theorem create_content (mp : Msgpack) (crc : Bytes → UInt32) : Wal.create mp crc = itemBytes mp crc [.snapshot {}] := by
  rw [Wal.create, WalFile.sync_content]
  simp [WalFile.append, WalFile.open_, itemBytes, valueBytes, WalItem.value]

/-- Where a log that was just created stands. -/
theorem restartable_created (crc : Bytes → UInt32) (hmp : mp.Reliable) :
    Restartable mp crc 0 0 [.snapshot {}] [] { wal := Wal.create mp crc, snaps := ∅ } := by
  have hcontent := create_content mp crc
  refine .of_sound (by rw [hcontent]) (by rw [hcontent, List.append_nil]) (fun pre hpre => ?_)
    ⟨fun h => absurd rfl h, ?_⟩
  · rw [List.prefix_nil.mp hpre, List.append_nil]
    exact Replayable.created (WalItem.fits_snapshot hmp (by decide) (by decide))
  · intro name file y hfile
    rw [AList.lookup_empty] at hfile
    cases hfile

/-- Only the first record is read back from it. -/
theorem replay_created (crc : Bytes → UInt32) (hmp : mp.Reliable) (ftell : Nat) :
    ∃ r, RaftNode.replayWal mp crc { wal := Wal.create mp crc, snaps := ∅ } ftell = .ok r ∧
      Replayed mp crc 0 0 [.snapshot {}] r ∧ r.snaps = (Snapshotter.load mp crc ∅ {}).1 := by
  obtain ⟨r, y, u, pre, hreplay, hpre, -, hr, hfound⟩ := (restartable_created crc hmp).replay hmp ftell
  obtain rfl := List.prefix_nil.mp hpre
  rw [List.append_nil] at hr
  have heq := WalItem.snapshot.inj (List.mem_singleton.mp hr.sound.base)
  obtain ⟨rfl, rfl⟩ := WalSnapshot.mk.inj heq
  exact ⟨r, hreplay, hr, hfound.snaps⟩

/-- The constructor refuses the number 0. -/
theorem new_id (hmp : mp.Reliable) {id peers ftell : Nat} {draws : Nat → Nat}
    (h : RaftNode.new mp crc id peers none ∅ ftell draws = .ok s) : id ≠ 0 := by
  rintro rfl
  obtain ⟨r, hreplay, -, -⟩ := replay_created crc hmp ftell
  rw [RaftNode.new, Option.getD_none, hreplay] at h
  cases h

theorem new_created (hmp : mp.Reliable) {id peers ftell : Nat} {draws : Nat → Nat}
    (h : RaftNode.new mp crc id peers none ∅ ftell draws = .ok s) :
    Live mp crc 0 0 [.snapshot {}] [] s ∧ s.storage.snapshot.metadata.index = 0 := by
  have hid := new_id hmp h
  obtain ⟨r, hreplay, hr, -⟩ := replay_created crc hmp ftell
  rw [RaftNode.new, Option.getD_none, hreplay] at h
  simp only [bind, Except.bind, validate_config hid, Status.isOk, Option.isSome_none] at h
  obtain ⟨node, hnode, h⟩ := bind_ok (show (RaftNode.startRawNode mp false (validConfig id r.storage draws) peers >>=
    fun node => (Except.ok { id := id, node := node, wal := r.wal, snaps := r.snaps, lastIndex := r.lastIndex,
                             snapData := r.snapData } : Result (RaftNode κ))) = .ok s from h)
  obtain rfl := Except.ok.inj h
  have hc : (validConfig id r.storage draws).storage = r.storage := rfl
  have hlast : r.storage.lastIndex = 0 := by
    rw [MemoryStorage.lastIndex, hr.dummy_index, hr.ents]
    rfl
  have hstate : r.storage.hardState = {} := hr.hardState
  obtain ⟨raft, hnew, hlog⟩ := new_ok (c := validConfig id r.storage draws) rfl rfl rfl
    (by rw [hc, hr.snapshot]) (by rw [hc, hr.dummy_index]; exact Nat.zero_le _) (by rw [hc, hstate]; exact Nat.zero_le _)
  rw [hc] at hlog
  obtain ⟨hnlog, hprev⟩ := startNode_log hnew hlast (by rw [hlog, RaftLog.new, hlast]) (by rw [hlog, hstate]) hnode
  have hkept := hr.kept (validConfig id r.storage draws).maxCommittedSizePerReady
  rw [hlog] at hnlog
  refine ⟨⟨⟨⟨hid, hr.stored, fun pre hpre => ?_, hr.files, ?_, Nat.zero_le _⟩, ?_⟩, ?_, fun snap hsnap => ?_⟩, ?_⟩
  · rw [List.prefix_nil.mp hpre, List.append_nil]
    exact hr.sound
  · change node.prevHardState.commit ≤ _
    rw [hprev]
    exact Nat.zero_le _
  · rw [List.append_nil]
    change Kept 0 0 _ node.raft.raftLog
    rw [hnlog]
    refine ⟨hkept.dummy_ge, hkept.dummy_le, hkept.dummy_term, hkept.ents, hkept.snapshot_ge, hkept.snapshot_le,
      ?_, Nat.zero_le _, ?_⟩
    · exact bootstrapEntries_indexed (fun cc => mp.pack cc.toObj) (RaftNode.peerContexts peers)
    · simp only [RaftLog.new, MemoryStorage.firstIndex, hr.dummy_index]
      exact Nat.zero_le _
  · change node.raft.raftLog.Tail _
    rw [hnlog]
    refine ⟨fun _ => Nat.one_pos, Nat.le_add_left 1 _, fun _ => ?_, ?_, fun snap hsnap => by cases hsnap⟩
    · simp only [RaftLog.base, RaftLog.new, hlast, Option.map_none, Option.getD_none]
    · simp only [RawNode.bootstrapEntries, List.length_mapIdx]
      omega
  · change node.raft.raftLog.unstable.snapshot = some snap at hsnap
    rw [hnlog] at hsnap
    cases hsnap
  · change node.raft.raftLog.storage.snapshot.metadata.index = 0
    rw [hnlog, RaftLog.new, hr.snapshot]

end RaftEtcd
