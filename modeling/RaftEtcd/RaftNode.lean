import RaftEtcd.Cluster
import RaftEtcd.Lib.Journal
import RaftEtcd.RedisStore
import RaftEtcd.Snapshotter
import RaftEtcd.WalScan

/-! `server/raft_node.cpp`: the process around one raft node. It drives the node, keeps its log and
its snapshots on the disk and hands the committed entries to the store. What it writes is recorded
byte by byte, so that a crash can fall anywhere; the network is left out. -/
namespace RaftEtcd

open Journal (Prog)

/-- What survives the process: the file of the log, and the files of snapshots by their names. -/
structure Disk where
  wal : Bytes
  snaps : SnapDir

/-- Another byte of the log, or another byte of a snapshot, with all that the file then holds. -/
inductive DiskWrite where
  | wal (b : UInt8)
  | snap (name content : Bytes)

def Disk.write (d : Disk) : DiskWrite → Disk
  | .wal b => { d with wal := d.wal ++ [b] }
  | .snap name content => { d with snaps := d.snaps.insert name content }

abbrev Proc := Prog DiskWrite String

def defaultSnapCount : Nat := 100000
def snapshotCatchUpEntriesN : Nat := 100000

/-- The storage is the one that the node works on. -/
structure RaftNode (κ : Type) where
  id : Nat
  node : RawNode
  wal : Wal
  snaps : SnapDir
  store : RedisStore κ := {}
  lastIndex : Nat := 0
  confState : ConfState := {}
  snapshotIndex : Nat := 0
  appliedIndex : Nat := 0
  snapData : Bytes := []
  snapCount : Nat := defaultSnapCount

namespace RaftNode
variable {κ : Type} (mp : Msgpack) (crc : Bytes → UInt32)

def log (s : RaftNode κ) : RaftLog := s.node.raft.raftLog

def storage (s : RaftNode κ) : MemoryStorage := s.log.storage

def setStorage (s : RaftNode κ) (st : MemoryStorage) : RaftNode κ :=
  { s with node := { s.node with raft := { s.node.raft with raftLog := { s.log with storage := st } } } }

def disk (s : RaftNode κ) : Disk := { wal := s.wal.backContent, snaps := s.snaps }

/-! ### Writing -/

/-- A call on the log; what it adds to the file is written. -/
def walCall (s : RaftNode κ) (f : Wal → Wal) : Proc (RaftNode κ) :=
  Prog.emit (((f s.wal).backContent.drop s.wal.backContent.length).map .wal) { s with wal := f s.wal }

/-- The packer refuses what is longer than a `uint32_t` can say, before there is a file. -/
def saveSnap (s : RaftNode κ) (snap : Snapshot) : Proc (RaftNode κ) := do
  let s ← s.walCall fun w =>
    w.saveSnapshot mp crc { index := snap.metadata.index, term := snap.metadata.term }
  if snap.data.length ≥ 2 ^ 32 then Prog.ofExcept (.error "container size overflow")
  else
    let name := Snapshotter.snapName snap.metadata.term snap.metadata.index
    Prog.emit ((Snapshotter.snapFile mp crc snap).inits.map (.snap name))
      { s with snaps := Snapshotter.saveSnap mp crc s.snaps snap }

/-! ### The store -/

def publishSnapshot (s : RaftNode κ) (snap : Snapshot) : Result (RaftNode κ) :=
  if snap.isEmpty then .ok s
  else if snap.metadata.index ≤ s.appliedIndex then
    .error "snapshot index [%lu] should > progress.appliedIndex [%lu] + 1"
  else do
    let (store, status) ← s.store.recoverFromSnapshot mp snap.data
    if !status.isOk then .error "recover from snapshot error %s"
    else
      .ok { s with
        confState := snap.metadata.confState
        snapshotIndex := snap.metadata.index
        appliedIndex := snap.metadata.index
        store := store }

/-- The change that an entry holds; what a short array leaves out is read as zero. -/
def decodeConfChange (data : Bytes) : Option ConfChange :=
  (mp.unpack data).bind (ConfChange.convert { confChangeType := 0, nodeId := 0 })

/-- A change that cannot be read is skipped without counting as applied, and behind the removal of
this node nothing is published any more. -/
def publishEntries : List Entry → RaftNode κ → Result (RaftNode κ)
  | [], s => .ok s
  | entry :: entries, s =>
      if entry.type = entryNormal then
        if entry.data = [] then publishEntries entries { s with appliedIndex := entry.index }
        else do
          let (store, _) ← s.store.readCommit mp s.id entry.data
          publishEntries entries { s with store := store, appliedIndex := entry.index }
      else if entry.type = entryConfChange then
        match decodeConfChange mp entry.data with
        | none => publishEntries entries s
        | some cc => do
            let (node, confState) ← s.node.applyConfChange cc
            let s := { s with node := node, confState := confState }
            if cc.confChangeType = confChangeRemoveNode ∧ cc.nodeId = s.id then .ok s
            else publishEntries entries { s with appliedIndex := entry.index }
      else .error "unknown type %d"

def entriesToApply (s : RaftNode κ) (entries : List Entry) : Result (List Entry) :=
  match entries with
  | [] => .ok []
  | entry :: _ =>
      if entry.index > s.appliedIndex + 1 then
        .error "first index of committed entry[%lu] should <= progress.appliedIndex[%lu]+1"
      else .ok (entries.drop (s.appliedIndex + 1 - entry.index))

/-! ### The loop -/

/-- The difference is that of a `uint64_t`. -/
def maybeTriggerSnapshot (s : RaftNode κ) : Proc (RaftNode κ) :=
  if (s.appliedIndex + 2 ^ 64 - s.snapshotIndex) % 2 ^ 64 ≤ s.snapCount then pure s
  else do
    let (status, snap, st) ← s.storage.createSnapshot s.appliedIndex (some s.confState) (s.store.getSnapshot mp)
    if !status.isOk then Prog.ofExcept (.error "create snapshot error %s")
    else do
      let s ← (s.setStorage st).saveSnap mp crc snap
      let compactIndex := if s.appliedIndex > snapshotCatchUpEntriesN then s.appliedIndex - snapshotCatchUpEntriesN else 1
      let (status, st) ← s.storage.compact compactIndex
      if !status.isOk then Prog.ofExcept (.error "compact error %s")
      else pure { s.setStorage st with snapshotIndex := s.appliedIndex }

/-- A snapshot from the leader is saved and installed. -/
def installSnapshot (s : RaftNode κ) (snap : Snapshot) : Proc (RaftNode κ) :=
  if snap.isEmpty then pure s
  else do
    let s ← s.saveSnap mp crc snap
    (s.setStorage (s.storage.applySnapshot snap).2).publishSnapshot mp snap

/-- What the loop does with a `Ready` up to the question whether a snapshot is due. -/
def applyReady (s : RaftNode κ) (rd : Ready) : Proc (RaftNode κ) := do
  let s ← s.walCall fun w => w.save mp crc rd.hardState rd.entries
  let s ← s.installSnapshot mp crc rd.snapshot
  let st ← s.storage.append rd.entries
  let s := s.setStorage st
  let ents ← s.entriesToApply rd.committedEntries
  s.publishEntries mp ents

/-- One round of the loop. -/
def pullReadyEvents (s : RaftNode κ) : Proc (RaftNode κ) :=
  if !s.node.hasReady then pure s
  else do
    let (rd, node) ← s.node.ready
    let s := { s with node := node }
    if !rd.containsUpdates then pure s
    else do
      let s ← s.applyReady mp crc rd
      let s ← s.maybeTriggerSnapshot mp crc
      pure { s with node := s.node.advance rd }

/-! ### Starting -/

/-- What `replay_WAL` leaves. -/
structure Replay where
  snaps : SnapDir
  wal : Wal
  storage : MemoryStorage
  lastIndex : Nat := 0
  snapData : Bytes := []

/-- `append` follows every pointer that it is given. -/
def derefEntries : List (Option Entry) → Result (List Entry)
  | [] => .ok []
  | none :: _ => .error "null pointer"
  | some e :: ents => do
      let es ← derefEntries ents
      .ok (e :: es)

/-- The storage before the log is read. -/
def loadedStorage : Option Snapshot → MemoryStorage
  | some snap => (MemoryStorage.applySnapshot {} snap).2
  | none => {}

/-- There is one file; where `ftell` stands in it is up to the C library. -/
def replayWal (d : Disk) (ftell : Nat) : Result Replay := do
  let (snaps, loaded) := Snapshotter.load mp crc d.snaps {}
  let snapshot := loaded.getD {}
  let wal := Wal.open_ [WalFile.open_ d.wal 0 ftell] { index := snapshot.metadata.index, term := snapshot.metadata.term }
  let (wal, hs, ents) ← wal.readAll mp crc
  let ents ← derefEntries ents
  let storage ← ((loadedStorage loaded).setHardState hs).append ents
  .ok
    (match ents.getLast? with
    | some e => { snaps := snaps, wal := wal, storage := storage, lastIndex := e.index }
    | none => { snaps := snaps, wal := wal, storage := storage, snapData := snapshot.data })

def config (id : Nat) (storage : MemoryStorage) (draws : Nat → Nat) : Config :=
  { id := id, electionTick := 10, heartbeatTick := 1, storage := storage, maxSizePerMsg := 1024 * 1024
    maxUncommittedEntriesSize := 2 ^ 30, maxInflightMsgs := 256, checkQuorum := true, preVote := true, draws := draws }

/-- The members are numbered from 1 on. -/
def peerContexts (peers : Nat) : List (Nat × Bytes) := (List.range peers).map fun i => (i + 1, [])

/-- The node that the constructor makes; `walExists` is asked before the log is created. -/
def startRawNode (walExists : Bool) (c : Config) (peers : Nat) : Result RawNode :=
  if walExists then RawNode.restartNode c
  else RawNode.startNode (fun cc => mp.pack cc.toObj) c (peerContexts peers)

/-- The constructor, on the file of the log if there is one. -/
def new (id peers : Nat) (wal : Option Bytes) (snaps : SnapDir) (ftell : Nat) (draws : Nat → Nat) :
    Result (RaftNode κ) := do
  let r ← replayWal mp crc { wal := wal.getD (Wal.create mp crc), snaps := snaps } ftell
  let (status, c) := (config id r.storage draws).validate
  if !status.isOk then .error "invalid configure %s"
  else do
    let node ← startRawNode mp wal.isSome c peers
    .ok { id := id, node := node, wal := r.wal, snaps := r.snaps, lastIndex := r.lastIndex, snapData := r.snapData }

/-- Up to the start of the timer. -/
def schedule (s : RaftNode κ) : Result (RaftNode κ) := do
  let snap := s.storage.snapshot
  let store ← RedisStore.new mp s.snapData
  .ok { s with
    confState := snap.metadata.confState
    snapshotIndex := snap.metadata.index
    appliedIndex := snap.metadata.index
    store := store
    snapData := [] }

end RaftNode

end RaftEtcd
