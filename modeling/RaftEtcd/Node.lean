import RaftEtcd.Raft

/-! `raft/ready.cpp`, `raft/node.cpp` and the membership changes of `raft/raft.cpp`: the
interface through which the server drives one raft state machine. -/
namespace RaftEtcd

/-- The type of a change is a byte in the source; any other value is fatal. -/
abbrev ConfChangeType := UInt8

def confChangeAddNode : ConfChangeType := 0
def confChangeRemoveNode : ConfChangeType := 1
def confChangeUpdateNode : ConfChangeType := 2
def confChangeAddLearnerNode : ConfChangeType := 3

structure ConfChange where
  id : Nat := 0
  confChangeType : ConfChangeType
  nodeId : Nat
  context : Bytes := []

namespace Raft

def delProgress (r : Raft) (id : Nat) : Raft :=
  { r with prs := r.prs.erase id, learnerPrs := r.learnerPrs.erase id }

/-- A node that is added counts as recently active. -/
def markAdded (r : Raft) (id : Nat) (isLearner : Bool) : Raft :=
  let r := if r.id = id then { r with isLearner := isLearner } else r
  r.modifyProgress id fun p => { p with recentActive := true }

/-- A voter never turns into a learner, and a change that is already in place is ignored. -/
def addNodeOrLearner (r : Raft) (id : Nat) (isLearner : Bool) : Result Raft :=
  match r.getProgress id with
  | none => do
      let r ← r.setProgress id 0 (r.raftLog.lastIndex + 1) isLearner
      .ok (r.markAdded id isLearner)
  | some pr =>
      if isLearner && !pr.isLearner then .ok r
      else if isLearner = pr.isLearner then .ok r
      else
        let r := { r with
          learnerPrs := r.learnerPrs.erase id
          prs := r.prs.insert id { pr with isLearner := false } }
        .ok (r.markAdded id isLearner)

def addNode (r : Raft) (id : Nat) : Result Raft := r.addNodeOrLearner id false

/-- The quorum may have become smaller, so entries may become committed here. -/
def removeNode (r : Raft) (id : Nat) : Result Raft :=
  let r := r.delProgress id
  if r.prs.keys = [] ∧ r.learnerPrs.keys = [] then .ok r
  else do
    let (r, changed) ← r.maybeCommit
    let r ← if changed then r.bcastAppend else .ok r
    .ok (if r.state = .leader ∧ r.leadTransferee = id then r.abortLeaderTransfer else r)

end Raft

structure SoftState where
  lead : Nat
  state : RaftState
  deriving DecidableEq, Repr

def Raft.softState (r : Raft) : SoftState := { lead := r.lead, state := r.state }

structure Ready where
  softState : Option SoftState := none
  hardState : HardState := {}
  readState : List ReadState := []
  entries : List Entry := []
  snapshot : Snapshot := {}
  committedEntries : List Entry := []
  messages : List Message := []
  mustSync : Bool := false

namespace Ready

/-- The constructor. The synchronisation flag compares the hard state with the one that this
`Ready` carries, which is empty when nothing changed, not with the previous one. -/
def new (raft : Raft) (preSoftState : SoftState) (preHardState : HardState) : Result Ready := do
  let committedEntries ← raft.raftLog.nextEntries
  let hs := raft.hardState
  let hardState := if hs ≠ preHardState then hs else {}
  let entries := raft.raftLog.unstable.entries
  .ok
    { softState := if raft.softState ≠ preSoftState then some raft.softState else none
      hardState := hardState
      readState := raft.readStates
      entries := entries
      snapshot := raft.raftLog.unstable.snapshot.getD {}
      committedEntries := committedEntries
      messages := raft.msgs
      mustSync := isMustSync hs hardState entries.length }

/-- The last disjunct holds when there is no read state. -/
def containsUpdates (rd : Ready) : Bool :=
  rd.softState.isSome || !rd.hardState.isEmptyState || !rd.snapshot.isEmpty || !rd.entries.isEmpty ||
    !rd.committedEntries.isEmpty || !rd.messages.isEmpty || rd.readState.isEmpty

def appliedCursor (rd : Ready) : Nat :=
  match rd.committedEntries.getLast? with
  | some e => e.index
  | none => rd.snapshot.metadata.index

end Ready

structure RawNode where
  raft : Raft
  prevSoftState : SoftState
  prevHardState : HardState

namespace RawNode

/-- The hard state that a fresh node has already handed out: none while its log is empty. -/
def ofRaft (raft : Raft) (lastIndex : Nat) : RawNode :=
  { raft := raft
    prevSoftState := raft.softState
    prevHardState := if lastIndex = 0 then {} else raft.hardState }

/-- `Node::restart_node`. -/
def restartNode (c : Config) : Result RawNode := do
  let raft ← Raft.new c
  .ok (ofRaft raft c.storage.lastIndex)

/-- The entries that announce the initial peers, with the encoder of configuration changes. -/
def bootstrapEntries (serialize : ConfChange → Bytes) (peers : List (Nat × Bytes)) : List Entry :=
  peers.mapIdx fun i peer =>
    { type := entryConfChange, term := 1, index := i + 1,
      data := serialize { confChangeType := confChangeAddNode, nodeId := peer.1, context := peer.2 } }

/-- `Node::start_node`. -/
def startNode (serialize : ConfChange → Bytes) (c : Config) (peers : List (Nat × Bytes)) :
    Result RawNode := do
  let raft ← Raft.new c
  let lastIndex := c.storage.lastIndex
  if lastIndex = 0 then do
    let raft := raft.becomeFollower 1 0
    let entries := bootstrapEntries serialize peers
    let log ← raft.raftLog.append entries
    let raft := { raft with raftLog := { log with committed := entries.length } }
    let raft ← peers.foldlM (fun raft peer => raft.addNode peer.1) raft
    .ok (ofRaft raft lastIndex)
  else .ok (ofRaft raft lastIndex)

def tick (n : RawNode) : Result RawNode := do
  let raft ← n.raft.tick
  .ok { n with raft := raft }

/-- A message that is stepped without the checks of `step`. -/
def stepRaft (n : RawNode) (msg : Message) : Result (RawNode × Status) := do
  let (raft, status) ← n.raft.step msg
  .ok ({ n with raft := raft }, status)

def campaign (n : RawNode) : Result (RawNode × Status) := n.stepRaft { type := .msgHup }

def propose (n : RawNode) (data : Bytes) : Result (RawNode × Status) :=
  n.stepRaft { type := .msgProp, from_ := n.raft.id, entries := [{ type := entryNormal, data := data }] }

/-- Takes the encoded configuration change. -/
def proposeConfChange (n : RawNode) (data : Bytes) : Result (RawNode × Status) :=
  n.stepRaft { type := .msgProp, entries := [{ type := entryConfChange, data := data }] }

def step (n : RawNode) (msg : Message) : Result (RawNode × Status) :=
  if msg.isLocalMsg then .ok (n, .invalidArgument "raft:cannot step raft local message")
  else if (n.raft.getProgress msg.from_).isSome || !msg.isResponseMsg then n.stepRaft msg
  else .ok (n, .invalidArgument "raft:cannot step as peer not found")

def ready (n : RawNode) : Result (Ready × RawNode) := do
  let rd ← Ready.new n.raft n.prevSoftState n.prevHardState
  .ok (rd, { n with raft := { n.raft with msgs := [] }.reduceUncommittedSize rd.committedEntries })

def hasReady (n : RawNode) : Bool :=
  let hs := n.raft.hardState
  let log := n.raft.raftLog
  n.raft.softState ≠ n.prevSoftState || (!hs.isEmptyState && hs ≠ n.prevHardState) ||
    (match log.unstable.snapshot with | some s => !s.isEmpty | none => false) ||
    !n.raft.msgs.isEmpty || !log.unstable.entries.isEmpty || log.hasNextEntries ||
    !n.raft.readStates.isEmpty

/-- The part of `advance` that concerns the log. -/
def advanceLog (log : RaftLog) (rd : Ready) : RaftLog :=
  let log := if rd.appliedCursor > 0 then log.appliedTo rd.appliedCursor else log
  let log := match rd.entries.getLast? with
    | some e => log.stableTo e.index e.term
    | none => log
  if !rd.snapshot.isEmpty then log.stableSnapTo rd.snapshot.metadata.index else log

def advance (n : RawNode) (rd : Ready) : RawNode :=
  { prevSoftState := rd.softState.getD n.prevSoftState
    prevHardState := if !rd.hardState.isEmptyState then rd.hardState else n.prevHardState
    raft := { n.raft with
      raftLog := advanceLog n.raft.raftLog rd
      readStates := if rd.readState ≠ [] then [] else n.raft.readStates } }

def confState (n : RawNode) : ConfState := { nodes := n.raft.nodes, learners := n.raft.learnerNodes }

def applyConfChange (n : RawNode) (cc : ConfChange) : Result (RawNode × ConfState) := do
  let raft ←
    if cc.nodeId = 0 then .ok n.raft
    else if cc.confChangeType = confChangeAddNode then n.raft.addNodeOrLearner cc.nodeId false
    else if cc.confChangeType = confChangeAddLearnerNode then n.raft.addNodeOrLearner cc.nodeId true
    else if cc.confChangeType = confChangeRemoveNode then n.raft.removeNode cc.nodeId
    else if cc.confChangeType = confChangeUpdateNode then .ok n.raft
    else .error "unexpected conf type"
  let n := { n with raft := raft }
  .ok (n, n.confState)

def transferLeadership (n : RawNode) (lead transferee : Nat) : Result (RawNode × Status) :=
  n.stepRaft { type := .msgTransferLeader, from_ := transferee, to_ := lead }

/-- The entry type is the number of `MsgReadIndex`. -/
def readIndex (n : RawNode) (rctx : Bytes) : Result (RawNode × Status) :=
  n.stepRaft { type := .msgReadIndex, entries := [{ type := 15, data := rctx }] }

def reportUnreachable (n : RawNode) (id : Nat) : Result (RawNode × Status) :=
  n.stepRaft { type := .msgUnreachable, from_ := id }

def reportSnapshot (n : RawNode) (id : Nat) (failure : Bool) : Result (RawNode × Status) :=
  n.stepRaft { type := .msgSnapStatus, from_ := id, reject := failure }

end RawNode

end RaftEtcd
