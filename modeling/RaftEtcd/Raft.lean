import Mathlib.Data.List.Sort
import RaftEtcd.Lib.AssocMap
import RaftEtcd.Progress
import RaftEtcd.RaftLog

/-! `raft/raft.cpp`: the raft state machine of one node. The function pointers `step_` and
`tick_` are always set together with `state_`, so both dispatch on the state here. The maps of
peers are association lists; iteration follows their order, which the source leaves open. -/
namespace RaftEtcd

/-- `common/random_device.h`: draws between 0 and `max`, whatever the generator yields. -/
structure RandomDevice where
  draws : Nat → Nat
  pos : Nat := 0
  max : Nat

def RandomDevice.gen (d : RandomDevice) : Nat × RandomDevice :=
  (d.draws d.pos % (d.max + 1), { d with pos := d.pos + 1 })

structure Config where
  id : Nat := 0
  peers : List Nat := []
  learners : List Nat := []
  electionTick : Nat := 0
  heartbeatTick : Nat := 0
  storage : MemoryStorage := {}
  applied : Nat := 0
  maxSizePerMsg : Nat := 0
  maxCommittedSizePerReady : Nat := 0
  maxUncommittedEntriesSize : Nat := 0
  maxInflightMsgs : Nat := 0
  checkQuorum : Bool := false
  preVote : Bool := false
  readOnlyOption : ReadOnlyOption := .safe
  disableProposalForwarding : Bool := false
  draws : Nat → Nat := fun _ => 0

/-- Fills in the defaults before it looks at the last two fields. -/
def Config.validate (c : Config) : Status × Config :=
  if c.id = 0 then (.invalidArgument "cannot use none as id", c)
  else if c.heartbeatTick ≤ 0 then (.invalidArgument "heartbeat tick must be greater than 0", c)
  else if c.electionTick ≤ c.heartbeatTick then
    (.invalidArgument "election tick must be greaer than heartbeat tick", c)
  else
    let c := if c.maxUncommittedEntriesSize = 0 then { c with maxUncommittedEntriesSize := unlimited } else c
    let c :=
      if c.maxCommittedSizePerReady = 0 then { c with maxCommittedSizePerReady := c.maxSizePerMsg } else c
    if c.maxInflightMsgs ≤ 0 then
      (.invalidArgument "max inflight messages must be greater than 0", c)
    else if c.readOnlyOption = .leaseBased && !c.checkQuorum then
      (.invalidArgument "check_quorum must be enabled when read_only_option is ReadOnlyLeaseBased", c)
    else (.ok, c)

inductive RaftState where
  | follower | candidate | leader | preCandidate
  deriving DecidableEq, Repr

inductive CampaignType where
  | preElection | election | transfer
  deriving DecidableEq, Repr

/-- The bytes of the string constant `kCampaignTransfer`. -/
def kCampaignTransfer : Bytes :=
  [107, 67, 97, 109, 112, 97, 105, 103, 110, 84, 114, 97, 110, 115, 102, 101, 114]

structure Raft where
  id : Nat
  term : Nat := 0
  vote : Nat := 0
  readStates : List ReadState := []
  raftLog : RaftLog
  maxMsgSize : Nat
  maxUncommittedSize : Nat
  maxInflight : Nat
  prs : AssocMap Nat Progress := ∅
  learnerPrs : AssocMap Nat Progress := ∅
  state : RaftState := .follower
  isLearner : Bool := false
  votes : AssocMap Nat Bool := ∅
  msgs : List Message := []
  lead : Nat := 0
  leadTransferee : Nat := 0
  pendingConfIndex : Nat := 0
  uncommittedSize : Nat := 0
  readOnly : ReadOnly
  electionElapsed : Nat := 0
  heartbeatElapsed : Nat := 0
  checkQuorum : Bool
  preVote : Bool
  heartbeatTimeout : Nat
  electionTimeout : Nat
  randomizedElectionTimeout : Nat := 0
  disableProposalForwarding : Bool
  randomDevice : RandomDevice

/-- The number of configuration changes among the entries. -/
def numOfPendingConf (entries : List Entry) : Nat :=
  (entries.filter fun e => e.type == entryConfChange).length % 2 ^ 32

/-- A sum of payload sizes in a `uint32_t`. -/
def payloadSum (entries : List Entry) : Nat :=
  entries.foldl (fun s e => (s + e.payloadSize) % 2 ^ 32) 0

namespace Raft

def quorum (r : Raft) : Nat := r.prs.keys.length / 2 + 1

def promotable (r : Raft) : Bool := (r.prs.lookup r.id).isSome

def pastElectionTimeout (r : Raft) : Bool := r.electionElapsed ≥ r.randomizedElectionTimeout

def getProgress (r : Raft) (id : Nat) : Option Progress :=
  match r.prs.lookup id with
  | some p => some p
  | none => r.learnerPrs.lookup id

/-- A write through the pointer that `get_progress` returns. -/
def modifyProgress (r : Raft) (id : Nat) (f : Progress → Progress) : Raft :=
  if (r.prs.lookup id).isSome then { r with prs := AssocMap.modify id f r.prs }
  else { r with learnerPrs := AssocMap.modify id f r.learnerPrs }

/-- The keys in the order of `for_each_progress`. -/
def progressIds (r : Raft) : List Nat := r.prs.keys ++ r.learnerPrs.keys

def nodes (r : Raft) : List Nat := r.prs.keys.insertionSort (· ≤ ·)

def learnerNodes (r : Raft) : List Nat := r.learnerPrs.keys.insertionSort (· ≤ ·)

def hardState (r : Raft) : HardState :=
  { term := r.term, vote := r.vote, commit := r.raftLog.committed }

def abortLeaderTransfer (r : Raft) : Raft := { r with leadTransferee := 0 }

def resetRandomizedElectionTimeout (r : Raft) : Raft :=
  let (x, d) := r.randomDevice.gen
  { r with randomizedElectionTimeout := r.electionTimeout + x, randomDevice := d }

/-- The fresh progress that `reset` gives to a peer. -/
def resetProgress (r : Raft) (id : Nat) (p : Progress) : Progress :=
  { Progress.new r.maxInflight with
    next := r.raftLog.lastIndex + 1
    isLearner := p.isLearner
    matched := if id = r.id then r.raftLog.lastIndex else 0 }

def reset (r : Raft) (term : Nat) : Raft :=
  let r := if r.term ≠ term then { r with term := term, vote := 0 } else r
  let r := { r with lead := 0, electionElapsed := 0, heartbeatElapsed := 0 }
  let r := r.resetRandomizedElectionTimeout.abortLeaderTransfer
  { r with
    votes := ∅
    prs := AssocMap.mapVal r.resetProgress r.prs
    learnerPrs := AssocMap.mapVal r.resetProgress r.learnerPrs
    pendingConfIndex := 0
    uncommittedSize := 0
    readOnly := { r.readOnly with pendingReadIndex := ∅, readIndexQueue := [] } }

def becomeFollower (r : Raft) (term lead : Nat) : Raft :=
  { r.reset term with lead := lead, state := .follower }

def becomeCandidate (r : Raft) : Result Raft :=
  if r.state = .leader then .error "invalid transition [leader->candidate]"
  else
    let r := r.reset (r.term + 1)
    .ok { r with vote := r.id, state := .candidate }

/-- Changes neither the term nor the vote. -/
def becomePreCandidate (r : Raft) : Result Raft :=
  if r.state = .leader then .error "invalid transition [leader->pre_candidate]"
  else .ok { r with votes := ∅, lead := 0, state := .preCandidate }

/-- Votes and pre-votes must carry a term; every other message must not, and gets the sender's
unless it is a read request. The guard compares the term, which is 0 here, with the number of
`MsgProp`, so a forwarded proposal gets the term too. -/
def send (r : Raft) (msg : Message) : Result Raft :=
  let msg := { msg with from_ := r.id }
  if msg.type = .msgVote ∨ msg.type = .msgVoteResp ∨ msg.type = .msgPreVote ∨
      msg.type = .msgPreVoteResp then
    if msg.term = 0 then .error "term should be set when sending %s"
    else .ok { r with msgs := r.msgs ++ [msg] }
  else if msg.term ≠ 0 then .error "term should not be set when sending %d (was %lu)"
  else
    let msg := if msg.type ≠ .msgReadIndex then { msg with term := r.term } else msg
    .ok { r with msgs := r.msgs ++ [msg] }

/-- Records the first answer of each peer and counts the granting ones. -/
def poll (r : Raft) (id : Nat) (v : Bool) : Raft × Nat :=
  let r := if (r.votes.lookup id).isSome then r else { r with votes := r.votes.insert id v }
  (r, (AssocMap.values r.votes).count true)

def increaseUncommittedSize (r : Raft) (entries : List Entry) : Raft × Bool :=
  let s := payloadSum entries
  if r.uncommittedSize > 0 ∧ r.uncommittedSize + s > r.maxUncommittedSize then (r, false)
  else ({ r with uncommittedSize := r.uncommittedSize + s }, true)

/-- Saturates at 0. -/
def reduceUncommittedSize (r : Raft) (entries : List Entry) : Raft :=
  if r.uncommittedSize = 0 then r
  else { r with uncommittedSize := r.uncommittedSize - payloadSum entries }

/-- The match index that a quorum of voters has reached. -/
def maybeCommit (r : Raft) : Result (Raft × Bool) :=
  let matchBuf := ((AssocMap.values r.prs).map Progress.matched).insertionSort (· ≤ ·)
  if matchBuf.length < r.quorum then .error "match_buf_[match_buf_.size() - quorum()] out of range"
  else
    match matchBuf[matchBuf.length - r.quorum]? with
    | none => .error "match_buf_[match_buf_.size() - quorum()] out of range"
    | some mci => do
        let (log, changed) ← r.raftLog.maybeCommit mci r.term
        .ok ({ r with raftLog := log }, changed)

/-- The entries of a proposal with the term and indexes they get in the log. -/
def stampEntries (term : Nat) : Nat → List Entry → List Entry
  | _, [] => []
  | index, e :: es =>
      { term := term, index := index, data := e.data, type := e.type } ::
        stampEntries term (index + 1) es

def appendEntry (r : Raft) (entries : List Entry) : Result (Raft × Bool) :=
  let ents := stampEntries r.term (r.raftLog.lastIndex + 1) entries
  match r.increaseUncommittedSize ents with
  | (r, false) => .ok (r, false)
  | (r, true) => do
      let log ← r.raftLog.append ents
      let r := { r with raftLog := log }
      match r.getProgress r.id with
      | none => .error "get_progress(id_) is null"
      | some _ =>
          let r := r.modifyProgress r.id fun p => (p.maybeUpdate log.lastIndex).1
          let (r, _) ← r.maybeCommit
          .ok (r, true)

def becomeLeader (r : Raft) : Result Raft :=
  if r.state = .follower then .error "invalid transition [follower -> leader]"
  else
    let r := r.reset r.term
    let r := { r with lead := r.id, state := .leader }
    match r.prs.lookup r.id with
    | none => .error "assert(it != prs_.end())"
    | some _ => do
        let r := { r with prs := AssocMap.modify r.id Progress.becomeReplicate r.prs }
        let r := { r with pendingConfIndex := r.raftLog.lastIndex }
        let (r, ok) ← r.appendEntry [{}]
        if !ok then .error "empty entry was dropped" else .ok (r.reduceUncommittedSize [{}])

/-- The requests that `campaign` sends to the other voters. `campaign` builds the transfer
context but never stores it in the message. -/
def sendVoteRequests (r : Raft) (voteMsg : MessageType) (term : Nat) : Result Raft :=
  (r.prs.keys.filter fun id => id ≠ r.id).foldlM (fun r id => do
    let logTerm ← r.raftLog.lastTerm
    r.send { term := term, to_ := id, type := voteMsg, index := r.raftLog.lastIndex, logTerm := logTerm }) r

/-- `campaign` for a real election, also one caused by a leadership transfer. -/
def campaignElection (r : Raft) : Result Raft := do
  let r ← r.becomeCandidate
  let (r, granted) := r.poll r.id true
  if r.quorum = granted then r.becomeLeader else r.sendVoteRequests .msgVote r.term

def campaign (r : Raft) (campaignType : CampaignType) : Result Raft :=
  match campaignType with
  | .preElection => do
      let r ← r.becomePreCandidate
      let (r, granted) := r.poll r.id true
      if r.quorum = granted then r.campaignElection else r.sendVoteRequests .msgPreVote (r.term + 1)
  | .election | .transfer => r.campaignElection

/-- The bound `min(match, committed)`: a follower must not learn of a commit beyond what it is
known to hold. -/
def sendHeartbeat (r : Raft) (id : Nat) (ctx : Bytes) : Result Raft :=
  match r.getProgress id with
  | none => .error "get_progress(to) is null"
  | some p =>
      r.send { to_ := id, type := .msgHeartbeat, commit := min p.matched r.raftLog.committed, context := ctx }

def bcastHeartbeatWithCtx (r : Raft) (ctx : Bytes) : Result Raft :=
  (r.progressIds.filter fun id => id ≠ r.id).foldlM (fun r id => r.sendHeartbeat id ctx) r

def bcastHeartbeat (r : Raft) : Result Raft := r.bcastHeartbeatWithCtx r.readOnly.lastPendingRequestCtx

/-- What sending the last of some entries does to the progress of the addressee. -/
def progressAfterSend (p : Progress) (last : Nat) : Result Progress :=
  match p.state with
  | .replicate => do
      let w ← p.inflights.add last
      .ok { p.optimisticUpdate last with inflights := w }
  | .probe => .ok p.setPause
  | .snapshot => .error "%lu is sending append in unhandled state %s"

def maybeSendAppend (r : Raft) (id : Nat) (sendIfEmpty : Bool) : Result (Raft × Bool) :=
  match r.getProgress id with
  | none => .error "get_progress(to) is null"
  | some p =>
      if p.isPaused then .ok (r, false)
      else do
        let statusTerm := r.raftLog.term (p.next - 1)
        let (statusEntries, entries) ← r.raftLog.entries p.next r.maxMsgSize []
        if entries = [] ∧ !sendIfEmpty then .ok (r, false)
        else
          match statusTerm, statusEntries.isOk with
          | .ok term, true => do
              let p' ← match entries.getLast? with
                | none => .ok p
                | some e => progressAfterSend p e.index
              let r ← (r.modifyProgress id fun _ => p').send
                { to_ := id, type := .msgApp, index := p.next - 1, logTerm := term, entries := entries,
                  commit := r.raftLog.committed }
              .ok (r, true)
          | _, _ =>
              -- the log is compacted below what the peer needs
              if !p.recentActive then .ok (r, false)
              else
                let snap := r.raftLog.snapshot
                if snap.isEmpty then .error "need non-empty snapshot"
                else do
                  let r ← (r.modifyProgress id fun p => p.becomeSnapshot snap.metadata.index).send
                    { to_ := id, type := .msgSnap, snapshot := snap }
                  .ok (r, true)

def sendAppend (r : Raft) (id : Nat) : Result Raft := do
  let (r, _) ← r.maybeSendAppend id true
  .ok r

def bcastAppend (r : Raft) : Result Raft :=
  (r.progressIds.filter fun id => id ≠ r.id).foldlM (fun r id => r.sendAppend id) r

/-- `while (maybe_send_append(from, false)) {}`. Each round that sends entries pauses the peer or
moves its `next` beyond them, so one round more than the log has entries is enough. -/
def sendAppendLoop (id : Nat) : Nat → Raft → Result Raft
  | 0, _ => .error "maybe_send_append keeps returning true"
  | fuel + 1, r => do
      let (r, sent) ← r.maybeSendAppend id false
      if sent then sendAppendLoop id fuel r else .ok r

def sendTimeoutNow (r : Raft) (id : Nat) : Result Raft := r.send { to_ := id, type := .msgTimeoutNow }

/-- Counts this node and the voters that were active since the last check. -/
def checkQuorumActive (r : Raft) : Bool :=
  ((r.prs.entries ++ r.learnerPrs.entries).filter fun s =>
    s.1 = r.id ∨ (s.2.recentActive ∧ !s.2.isLearner)).length ≥ r.quorum

/-- Refuses configuration changes while another one is pending. -/
def filterConfChanges (r : Raft) : Nat → List Entry → Raft × List Entry
  | _, [] => (r, [])
  | i, e :: es =>
      if e.type = entryConfChange then
        if r.pendingConfIndex > r.raftLog.applied then
          let (r, es) := r.filterConfChanges (i + 1) es
          (r, {} :: es)
        else
          let (r, es) := { r with pendingConfIndex := r.raftLog.lastIndex + i + 1 }.filterConfChanges (i + 1) es
          (r, e :: es)
      else
        let (r, es) := r.filterConfChanges (i + 1) es
        (r, e :: es)

def leaderProp (r : Raft) (msg : Message) : Result (Raft × Status) :=
  if msg.entries = [] then .error "%lu stepped empty MsgProp"
  else if (r.prs.lookup r.id).isNone then .ok (r, .invalidArgument "raft proposal dropped")
  else if r.leadTransferee ≠ 0 then .ok (r, .invalidArgument "raft proposal dropped")
  else do
    let (r, entries) := r.filterConfChanges 0 msg.entries
    let (r, ok) ← r.appendEntry entries
    if !ok then .ok (r, .invalidArgument "raft proposal dropped")
    else do
      let r ← r.bcastAppend
      .ok (r, .ok)

/-- The context of a read request. -/
def requestCtx (msg : Message) : Result Bytes :=
  match msg.entries with
  | [] => .error "entries[0] out of range"
  | e :: _ => .ok e.data

/-- The answer to a forwarded lease read goes to `m->from`, which is still 0, instead of the
sender of the request. -/
def leaderReadIndex (r : Raft) (msg : Message) : Result Raft := do
  if r.quorum > 1 then
    let term := match r.raftLog.term r.raftLog.committed with
      | .ok t => t
      | .error _ => 0
    if term ≠ r.term then .ok r
    else
      match r.readOnly.option with
      | .safe => do
          let readOnly ← r.readOnly.addRequest r.raftLog.committed msg
          let ctx ← requestCtx msg
          { r with readOnly := readOnly }.bcastHeartbeatWithCtx ctx
      | .leaseBased =>
          if msg.from_ = 0 ∨ msg.from_ = r.id then do
            let ctx ← requestCtx msg
            .ok { r with readStates := r.readStates ++ [{ index := r.raftLog.committed, requestCtx := ctx }] }
          else
            r.send { to_ := 0, type := .msgReadIndexResp, index := r.raftLog.committed, entries := msg.entries }
  else do
    let ctx ← requestCtx msg
    .ok { r with readStates := r.readStates ++ [{ index := r.raftLog.committed, requestCtx := ctx }] }

/-- The state of a progress after an acknowledgement that was news. -/
def progressAfterAck (pr : Progress) (index : Nat) : Result Progress :=
  if pr.state = .probe then .ok pr.becomeReplicate
  else if pr.state = .snapshot ∧ pr.needSnapshotAbort then .ok pr.becomeProbe
  else if pr.state = .replicate then do
    let w ← pr.inflights.freeTo index
    .ok { pr with inflights := w }
  else .ok pr

/-- What is sent after an acknowledgement: to all when the commit index moved, and to the peer
when it was paused before. -/
def sendAfterAck (r : Raft) (id : Nat) (changed oldPaused : Bool) : Result Raft :=
  if changed then r.bcastAppend
  else if oldPaused then r.sendAppend id
  else .ok r

def leaderAppResp (r : Raft) (msg : Message) : Result Raft :=
  let r := r.modifyProgress msg.from_ fun p => { p with recentActive := true }
  match r.getProgress msg.from_ with
  | none => .ok r
  | some pr =>
      if msg.reject then
        match pr.maybeDecreasesTo msg.index msg.rejectHint with
        | (_, false) => .ok r
        | (pr, true) =>
            let pr := if pr.state = .replicate then pr.becomeProbe else pr
            (r.modifyProgress msg.from_ fun _ => pr).sendAppend msg.from_
      else
        let oldPaused := pr.isPaused
        match pr.maybeUpdate msg.index with
        | (pr, false) => .ok (r.modifyProgress msg.from_ fun _ => pr)
        | (pr, true) => do
            let pr ← progressAfterAck pr msg.index
            let r := r.modifyProgress msg.from_ fun _ => pr
            let (r, changed) ← r.maybeCommit
            let r ← r.sendAfterAck msg.from_ changed oldPaused
            let r ← sendAppendLoop msg.from_ (r.raftLog.lastIndex + 2) r
            match r.getProgress msg.from_ with
            | none => .ok r
            | some pr =>
                if msg.from_ = r.leadTransferee ∧ pr.matched = r.raftLog.lastIndex then
                  r.sendTimeoutNow msg.from_
                else .ok r

/-- The answers to the reads that an acknowledged heartbeat confirms. -/
def answerReads (r : Raft) (rss : List ReadIndexStatus) : Result Raft :=
  rss.foldlM (fun r rs =>
    if rs.req.from_ = 0 ∨ rs.req.from_ = r.id then do
      let ctx ← requestCtx rs.req
      .ok { r with readStates := r.readStates ++ [{ index := rs.index, requestCtx := ctx }] }
    else
      r.send { to_ := rs.req.from_, type := .msgReadIndexResp, index := rs.index, entries := rs.req.entries }) r

/-- A heartbeat that came back resumes the peer and makes room for one message. -/
def progressAfterBeat (pr : Progress) : Result Progress :=
  let pr := { pr with recentActive := true }.resume
  if pr.state = .replicate ∧ pr.inflights.isFull then do
    let w ← pr.inflights.freeFirstOne
    .ok { pr with inflights := w }
  else .ok pr

def leaderHeartbeatResp (r : Raft) (msg : Message) : Result Raft :=
  match r.getProgress msg.from_ with
  | none => .ok r
  | some pr => do
      let pr ← progressAfterBeat pr
      let r := r.modifyProgress msg.from_ fun _ => pr
      let r ← (if pr.matched < r.raftLog.lastIndex then r.sendAppend msg.from_ else .ok r)
      if r.readOnly.option ≠ .safe ∨ msg.context = [] then .ok r
      else
        let (readOnly, ackCount) := r.readOnly.recvAck msg
        let r := { r with readOnly := readOnly }
        if ackCount < r.quorum then .ok r
        else do
          let (readOnly, rss) ← r.readOnly.advance msg
          { r with readOnly := readOnly }.answerReads rss

def leaderSnapStatus (r : Raft) (msg : Message) : Raft :=
  r.modifyProgress msg.from_ fun pr =>
    if pr.state ≠ .snapshot then pr
    else if !msg.reject then pr.becomeProbe.setPause
    else pr.snapshotFailure.becomeProbe.setPause

def leaderTransferLeader (r : Raft) (pr : Progress) (msg : Message) : Result Raft :=
  if pr.isLearner then .ok r
  else if r.leadTransferee ≠ 0 ∧ r.leadTransferee = msg.from_ then .ok r
  else
    let r := if r.leadTransferee ≠ 0 then r.abortLeaderTransfer else r
    if msg.from_ = r.id then .ok r
    else
      let r := { r with electionElapsed := 0, leadTransferee := msg.from_ }
      if pr.matched = r.raftLog.lastIndex then r.sendTimeoutNow msg.from_ else r.sendAppend msg.from_

/-- The message types of the second switch need a progress for the sender. -/
def stepLeaderProgress (r : Raft) (msg : Message) : Result Raft :=
  match r.getProgress msg.from_ with
  | none => .ok r
  | some pr =>
      match msg.type with
      | .msgAppResp => r.leaderAppResp msg
      | .msgHeartbeatResp => r.leaderHeartbeatResp msg
      | .msgSnapStatus => .ok (r.leaderSnapStatus msg)
      | .msgUnreachable =>
          .ok (r.modifyProgress msg.from_ fun pr => if pr.state = .replicate then pr.becomeProbe else pr)
      | .msgTransferLeader => r.leaderTransferLeader pr msg
      | _ => .ok r

/-- A handler whose status is ok whenever it returns. -/
def withOk (x : Result Raft) : Result (Raft × Status) := do
  let r ← x
  .ok (r, .ok)

def stepLeader (r : Raft) (msg : Message) : Result (Raft × Status) :=
  match msg.type with
  | .msgBeat => withOk r.bcastHeartbeat
  | .msgCheckQuorum => .ok (if !r.checkQuorumActive then r.becomeFollower r.term 0 else r, .ok)
  | .msgProp => r.leaderProp msg
  | .msgReadIndex => withOk (r.leaderReadIndex msg)
  | _ => withOk (r.stepLeaderProgress msg)

def handleAppendEntries (r : Raft) (msg : Message) : Result Raft :=
  if msg.index < r.raftLog.committed then
    r.send { to_ := msg.from_, type := .msgAppResp, index := r.raftLog.committed }
  else do
    let (log, ok) ← r.raftLog.maybeAppend msg.index msg.logTerm msg.commit msg.entries
    let r := { r with raftLog := log }
    match ok with
    | some lastIndex => r.send { to_ := msg.from_, type := .msgAppResp, index := lastIndex }
    | none =>
        r.send { to_ := msg.from_, type := .msgAppResp, index := msg.index, reject := true,
                 rejectHint := r.raftLog.lastIndex }

/-- The context of the request is not copied into the response. -/
def handleHeartbeat (r : Raft) (msg : Message) : Result Raft := do
  let log ← r.raftLog.commitTo msg.commit
  { r with raftLog := log }.send { to_ := msg.from_, type := .msgHeartbeatResp }

def setProgress (r : Raft) (id matched next : Nat) (isLearner : Bool) : Result Raft :=
  let p := { Progress.new r.maxInflight with next := next, matched := matched }
  if !isLearner then
    .ok { r with learnerPrs := r.learnerPrs.erase id, prs := r.prs.insert id p }
  else if (r.prs.lookup id).isSome then
    .error "%lu unexpected changing from voter to learner for %lu"
  else .ok { r with learnerPrs := r.learnerPrs.insert id { p with isLearner := true } }

/-- The log line of each round prints the progress of this node, present or not. -/
def restoreNode (r : Raft) (nodes : List Nat) (isLearner : Bool) : Result Raft :=
  nodes.foldlM (fun r node => do
    let next := r.raftLog.lastIndex + 1
    let matched := if node = r.id then next - 1 else 0
    let r := if node = r.id then { r with isLearner := isLearner } else r
    let r ← r.setProgress node matched next isLearner
    match r.getProgress r.id with
    | none => .error "get_progress(id_) is null"
    | some _ => .ok r) r

def restore (r : Raft) (s : Snapshot) : Result (Raft × Bool) :=
  if s.metadata.index ≤ r.raftLog.committed then .ok (r, false)
  else if r.raftLog.matchTerm s.metadata.index s.metadata.term then do
    let log ← r.raftLog.commitTo s.metadata.index
    .ok ({ r with raftLog := log }, false)
  else if !r.isLearner ∧ r.id ∈ s.metadata.confState.learners then .ok (r, false)
  else do
    let r := { r with raftLog := r.raftLog.restore s, prs := ∅, learnerPrs := ∅ }
    let r ← r.restoreNode s.metadata.confState.nodes false
    let r ← r.restoreNode s.metadata.confState.learners true
    .ok (r, true)

/-- The index is stored into the request, not into the response that is sent. -/
def handleSnapshot (r : Raft) (msg : Message) : Result Raft := do
  let (r, _) ← r.restore msg.snapshot
  r.send { to_ := msg.from_, type := .msgAppResp }

def stepCandidate (r : Raft) (msg : Message) : Result (Raft × Status) :=
  match msg.type with
  | .msgProp => .ok (r, .invalidArgument "raft proposal dropped")
  | .msgApp => withOk ((r.becomeFollower msg.term msg.from_).handleAppendEntries msg)
  | .msgHeartbeat => withOk ((r.becomeFollower msg.term msg.from_).handleHeartbeat msg)
  | .msgSnap => withOk ((r.becomeFollower msg.term msg.from_).handleSnapshot msg)
  | .msgPreVoteResp | .msgVoteResp =>
      -- one tally for both phases: the type of the answer is not compared with the state
      let (r, gr) := r.poll msg.from_ (!msg.reject)
      if r.quorum = gr then
        if r.state = .preCandidate then withOk (r.campaign .election)
        else if r.state = .candidate then withOk (do
          let r ← r.becomeLeader
          r.bcastAppend)
        else .error "assert(state_ == RaftState::Candidate)"
      else if r.quorum = r.votes.keys.length - gr then .ok (r.becomeFollower r.term 0, .ok)
      else .ok (r, .ok)
  | _ => .ok (r, .ok)

/-- A forwarded message keeps its fields, but `send` overwrites `from`. -/
def stepFollower (r : Raft) (msg : Message) : Result (Raft × Status) :=
  match msg.type with
  | .msgProp =>
      if r.lead = 0 then .ok (r, .invalidArgument "raft proposal dropped")
      else if r.disableProposalForwarding then .ok (r, .invalidArgument "raft proposal dropped")
      else withOk (r.send { msg with to_ := r.lead })
  | .msgApp => withOk ({ r with electionElapsed := 0, lead := msg.from_ }.handleAppendEntries msg)
  | .msgHeartbeat => withOk ({ r with electionElapsed := 0, lead := msg.from_ }.handleHeartbeat msg)
  | .msgSnap => withOk ({ r with electionElapsed := 0, lead := msg.from_ }.handleSnapshot msg)
  | .msgTransferLeader | .msgReadIndex =>
      if r.lead = 0 then .ok (r, .ok) else withOk (r.send { msg with to_ := r.lead })
  | .msgTimeoutNow => if r.promotable then withOk (r.campaign .transfer) else .ok (r, .ok)
  | .msgReadIndexResp =>
      match msg.entries with
      | [e] =>
          .ok ({ r with readStates := r.readStates ++ [{ index := msg.index, requestCtx := e.data }] }, .ok)
      | _ => .ok (r, .ok)
  | _ => .ok (r, .ok)

def stepHup (r : Raft) : Result Raft :=
  if r.state ≠ .leader then do
    let (status, entries) ←
      r.raftLog.slice (r.raftLog.applied + 1) (r.raftLog.committed + 1) unlimited []
    if !status.isOk then .error "unexpected error getting unapplied entries (%s)"
    else if numOfPendingConf entries > 0 ∧ r.raftLog.committed > r.raftLog.applied then .ok r
    else r.campaign (if r.preVote then .preElection else .election)
  else .ok r

/-- The answer to a vote or pre-vote request. A grant carries the term of the request. -/
def stepVote (r : Raft) (msg : Message) : Result Raft :=
  if r.isLearner then .ok r
  else do
    let canVote := r.vote = msg.from_ ∨ (r.vote = 0 ∧ r.lead = 0) ∨
      (msg.type = .msgPreVote ∧ msg.term > r.term)
    let upToDate ← r.raftLog.isUpToDate msg.index msg.logTerm
    let type ← voteRespMsgType msg.type
    if canVote ∧ upToDate then do
      let r ← r.send { to_ := msg.from_, term := msg.term, type := type }
      .ok (if msg.type = .msgVote then { r with electionElapsed := 0, vote := msg.from_ } else r)
    else r.send { to_ := msg.from_, term := r.term, type := type, reject := true }

/-- The switch of `step` after the term of the message has been dealt with. -/
def stepBody (r : Raft) (msg : Message) : Result (Raft × Status) :=
  match msg.type with
  | .msgHup => withOk r.stepHup
  | .msgVote | .msgPreVote => withOk (r.stepVote msg)
  | _ =>
      match r.state with
      | .follower => r.stepFollower msg
      | .candidate | .preCandidate => r.stepCandidate msg
      | .leader => r.stepLeader msg

/-- A leader heard from within the election timeout keeps its followers from voting. -/
def inLease (r : Raft) : Bool :=
  r.checkQuorum && r.lead != 0 && r.electionElapsed < r.electionTimeout

/-- The state in which a message of a higher term is handled. -/
def higherTerm (r : Raft) (msg : Message) : Raft :=
  match msg.type with
  | .msgPreVote => r
  | .msgPreVoteResp => if !msg.reject then r else r.becomeFollower msg.term 0
  | .msgApp | .msgHeartbeat | .msgSnap => r.becomeFollower msg.term msg.from_
  | _ => r.becomeFollower msg.term 0

def lowerTerm (r : Raft) (msg : Message) : Result Raft :=
  if (r.checkQuorum ∨ r.preVote) ∧ (msg.type = .msgHeartbeat ∨ msg.type = .msgApp) then
    r.send { to_ := msg.from_, type := .msgAppResp }
  else if msg.type = .msgPreVote then
    r.send { to_ := msg.from_, type := .msgPreVoteResp, reject := true, term := r.term }
  else .ok r

def step (r : Raft) (msg : Message) : Result (Raft × Status) :=
  if msg.term = 0 then r.stepBody msg
  else if msg.term > r.term then
    if (msg.type = .msgVote ∨ msg.type = .msgPreVote) ∧ msg.context ≠ kCampaignTransfer ∧ r.inLease then
      .ok (r, .ok)
    else (r.higherTerm msg).stepBody msg
  else if msg.term < r.term then withOk (r.lowerTerm msg)
  else r.stepBody msg

def tickElection (r : Raft) : Result Raft :=
  let r := { r with electionElapsed := (r.electionElapsed + 1) % 2 ^ 32 }
  if r.promotable && r.pastElectionTimeout then do
    let (r, _) ← { r with electionElapsed := 0 }.step { from_ := r.id, type := .msgHup }
    .ok r
  else .ok r

/-- The part of `tick_heartbeat` that runs once per election timeout. -/
def tickCheckQuorum (r : Raft) : Result Raft := do
  let r := { r with electionElapsed := 0 }
  let r ← (if r.checkQuorum then Prod.fst <$> r.step { from_ := r.id, type := .msgCheckQuorum } else .ok r)
  .ok (if r.state = .leader ∧ r.leadTransferee ≠ 0 then r.abortLeaderTransfer else r)

def tickHeartbeat (r : Raft) : Result Raft := do
  let r := { r with
    heartbeatElapsed := (r.heartbeatElapsed + 1) % 2 ^ 32
    electionElapsed := (r.electionElapsed + 1) % 2 ^ 32 }
  let r ← (if r.electionElapsed ≥ r.electionTimeout then r.tickCheckQuorum else .ok r)
  if r.state ≠ .leader then .ok r
  else if r.heartbeatElapsed ≥ r.heartbeatTimeout then do
    let (r, _) ← { r with heartbeatElapsed := 0 }.step { from_ := r.id, type := .msgBeat }
    .ok r
  else .ok r

def tick (r : Raft) : Result Raft :=
  match r.state with
  | .leader => r.tickHeartbeat
  | _ => r.tickElection

def loadState (r : Raft) (state : HardState) : Result Raft :=
  if state.commit < r.raftLog.committed ∨ state.commit > r.raftLog.lastIndex then
    .error "%lu state.commit %lu is out of range [%lu, %lu]"
  else
    .ok { r with raftLog := { r.raftLog with committed := state.commit }, term := state.term, vote := state.vote }

/-- The peers and learners to start with: those of the stored snapshot, or else the configured. -/
def initialPeers (c : Config) : Result (List Nat × List Nat) :=
  let cs := c.storage.snapshot.metadata.confState
  if cs.nodes ≠ [] ∨ cs.learners ≠ [] then
    if c.peers ≠ [] ∨ c.learners ≠ [] then
      .error "cannot specify both newRaft(peers, learners) and ConfState.(Nodes, Learners)"
    else .ok (cs.nodes, cs.learners)
  else .ok (c.peers, c.learners)

def addLearners (r : Raft) (learners : List Nat) : Result Raft :=
  learners.foldlM (fun r learner =>
    if (r.prs.lookup learner).isSome then .error "node %lu is in both learner and peer list"
    else
      .ok { r with
        learnerPrs := r.learnerPrs.insert learner { Progress.new r.maxInflight with next := 1, isLearner := true }
        isLearner := r.isLearner || r.id = learner }) r

/-- The constructor. -/
def new (c : Config) : Result Raft := do
  let (peers, learners) ← initialPeers c
  let r : Raft :=
    { id := c.id
      raftLog := RaftLog.new c.storage c.maxCommittedSizePerReady
      maxMsgSize := c.maxSizePerMsg
      maxUncommittedSize := c.maxUncommittedEntriesSize
      maxInflight := c.maxInflightMsgs
      readOnly := { option := c.readOnlyOption }
      checkQuorum := c.checkQuorum
      preVote := c.preVote
      heartbeatTimeout := c.heartbeatTick
      electionTimeout := c.electionTick
      disableProposalForwarding := c.disableProposalForwarding
      randomDevice := { draws := c.draws, max := c.electionTick }
      prs := peers.foldl (fun m peer => m.insert peer { Progress.new c.maxInflightMsgs with next := 1 }) ∅ }
  let r ← r.addLearners learners
  let hs := c.storage.hardState
  let r ← (if !hs.isEmptyState then r.loadState hs else .ok r)
  let r := if c.applied > 0 then { r with raftLog := r.raftLog.appliedTo c.applied } else r
  .ok (r.becomeFollower r.term 0)

end Raft

end RaftEtcd
