import Mathlib.Data.Finset.Basic
import Mathlib.Logic.Function.Basic
import Mathlib.Logic.Relation
import RaftEtcd.Node

/-! A cluster of servers with a fixed membership. Each server drives its `RawNode` the way
`RaftNode::pull_ready_events` does: everything runs on one thread, a `Ready` is made durable
before its messages are sent, and it is advanced before anything else happens. The network keeps
every message that was ever sent, so a message may arrive late, repeatedly or never. A fatal
error ends the process; what is left is the storage. -/
namespace RaftEtcd

/-- Voters and learners are the same on every node; all other settings are the node's own. -/
structure ClusterConfig where
  voters : List Nat
  learners : List Nat := []
  settings : Nat → Config
  nodup : (voters ++ learners).Nodup
  nonzero : 0 ∉ voters ++ learners

namespace ClusterConfig

def members (cfg : ClusterConfig) : List Nat := cfg.voters ++ cfg.learners

/-- The configuration with which a server starts on what its storage holds. -/
def config (cfg : ClusterConfig) (n : Nat) (storage : MemoryStorage) (applied : Nat) (draws : Nat → Nat) :
    Config :=
  { cfg.settings n with
    id := n
    peers := cfg.voters
    learners := cfg.learners
    storage := storage
    applied := applied
    draws := draws }

end ClusterConfig

/-- The settings that `RaftNode::RaftNode` chooses and `validate` completes, but for `pre_vote`. -/
def serverSettings (preVote : Bool) : Config :=
  (Config.validate
    { id := 1, electionTick := 10, heartbeatTick := 1, maxSizePerMsg := 1024 * 1024
      maxUncommittedEntriesSize := 2 ^ 30, maxInflightMsgs := 256, checkQuorum := true, preVote := preVote }).2

/-- Three voters with these settings. -/
def trio (preVote : Bool) : ClusterConfig where
  voters := [1, 2, 3]
  settings _ := serverSettings preVote
  nodup := by decide
  nonzero := by decide

inductive Server where
  | down (storage : MemoryStorage)
  | up (node : RawNode)

namespace Server

/-- What survives the process. -/
def storage : Server → MemoryStorage
  | down st => st
  | up node => node.raft.raftLog.storage

/-- The log of a node; one that is down has what is stored. -/
def log : Server → List Entry
  | down st => st.ents
  | up node => node.raft.raftLog.log

/-- The commit index of a node; one that is down has the stored one. -/
def committed : Server → Nat
  | down st => st.hardState.commit
  | up node => node.raft.raftLog.committed

/-- The entry at an index of the log; indexes start at 1. -/
def entry (s : Server) : Nat → Option Entry
  | 0 => none
  | i + 1 => s.log[i]?

end Server

/-- What `pull_ready_events` writes before it sends anything. -/
def persist (st : MemoryStorage) (rd : Ready) : Result MemoryStorage :=
  let st := if rd.hardState.isEmptyState then st else st.setHardState rd.hardState
  let st := if rd.snapshot.isEmpty then st else (st.applySnapshot rd.snapshot).2
  st.append rd.entries

/-- One round of `pull_ready_events`: the messages it sends and the node after `advance`. -/
def RawNode.handleReady (n : RawNode) : Result (List Message × RawNode) := do
  let (rd, n) ← n.ready
  let storage ← persist n.raft.raftLog.storage rd
  let n := { n with raft := { n.raft with raftLog := { n.raft.raftLog with storage := storage } } }
  .ok (rd.messages, n.advance rd)

structure Cluster where
  servers : Nat → Server
  net : List Message

/-- What can happen next. -/
inductive Action where
  | start (n applied : Nat) (draws : Nat → Nat)
  | crash (n : Nat)
  | tick (n : Nat)
  | campaign (n : Nat)
  | propose (n : Nat) (data : Bytes)
  | proposeConfChange (n : Nat) (data : Bytes)
  | transferLeadership (n lead transferee : Nat)
  | readIndex (n : Nat) (rctx : Bytes)
  | reportUnreachable (n id : Nat)
  | reportSnapshot (n id : Nat) (failure : Bool)
  | deliver (msg : Message)
  | ready (n : Nat)

namespace Cluster

/-- Every storage is fresh and nothing runs. -/
def init : Cluster := { servers := fun _ => .down {}, net := [] }

def set (c : Cluster) (n : Nat) (s : Server) : Cluster :=
  { c with servers := Function.update c.servers n s }

/-- A call on a running node; a fatal error leaves its storage. -/
def call (c : Cluster) (n : Nat) (f : RawNode → Result RawNode) : Cluster :=
  match c.servers n with
  | .down _ => c
  | .up node =>
      match f node with
      | .ok node' => c.set n (.up node')
      | .error _ => c.set n (.down node.raft.raftLog.storage)

/-- A call whose status goes to the client. -/
def callStatus (c : Cluster) (n : Nat) (f : RawNode → Result (RawNode × Status)) : Cluster :=
  c.call n fun node => Prod.fst <$> f node

def start (cfg : ClusterConfig) (c : Cluster) (n applied : Nat) (draws : Nat → Nat) : Cluster :=
  match c.servers n with
  | .up _ => c
  | .down storage =>
      if n ∈ cfg.members then
        match RawNode.restartNode (cfg.config n storage applied draws) with
        | .ok node => c.set n (.up node)
        | .error _ => c
      else c

def ready (c : Cluster) (n : Nat) : Cluster :=
  match c.servers n with
  | .down _ => c
  | .up node =>
      match node.handleReady with
      | .ok (msgs, node') => { c.set n (.up node') with net := c.net ++ msgs }
      | .error _ => c.set n (.down node.raft.raftLog.storage)

/-- An action that does not apply changes nothing. -/
def step (cfg : ClusterConfig) (c : Cluster) : Action → Cluster
  | .start n applied draws => c.start cfg n applied draws
  | .crash n => c.set n (.down (c.servers n).storage)
  | .tick n => c.call n RawNode.tick
  | .campaign n => c.callStatus n RawNode.campaign
  | .propose n data => c.callStatus n fun node => node.propose data
  | .proposeConfChange n data => c.callStatus n fun node => node.proposeConfChange data
  | .transferLeadership n lead transferee => c.callStatus n fun node => node.transferLeadership lead transferee
  | .readIndex n rctx => c.callStatus n fun node => node.readIndex rctx
  | .reportUnreachable n id => c.callStatus n fun node => node.reportUnreachable id
  | .reportSnapshot n id failure => c.callStatus n fun node => node.reportSnapshot id failure
  | .deliver msg => if msg ∈ c.net then c.callStatus msg.to_ fun node => node.step msg else c
  | .ready n => c.ready n

/-- The runs whose steps all meet a condition on the state before them. -/
def Runs (cfg : ClusterConfig) (P : Cluster → Action → Prop) : Cluster → Cluster → Prop :=
  Relation.ReflTransGen fun c c' => ∃ a, P c a ∧ c' = c.step cfg a

/-- The states reached from fresh storage. -/
def Reachable (cfg : ClusterConfig) (P : Cluster → Action → Prop) (c : Cluster) : Prop :=
  Runs cfg P init c

/-- No condition. -/
def AnyStep (_ : Cluster) (_ : Action) : Prop := True

/-- The step leaves the node running. -/
def StaysUp (cfg : ClusterConfig) (n : Nat) (c : Cluster) (a : Action) : Prop :=
  ∃ node, (c.step cfg a).servers n = .up node

/-- No granted pre-vote reaches a node that already stands for election in a term that the answer
does not precede: such a node would count it as a vote. -/
def NoStalePreVote (c : Cluster) : Action → Prop
  | .deliver msg => msg ∈ c.net → ∀ node, c.servers msg.to_ = .up node → node.raft.state = .candidate →
      msg.type = .msgPreVoteResp → node.raft.term ≤ msg.term → msg.reject = true
  | _ => True

/-- The node runs and leads in the term. -/
def Leads (c : Cluster) (n t : Nat) : Prop :=
  ∃ node, c.servers n = .up node ∧ node.raft.state = .leader ∧ node.raft.term = t

/-- The step leaves the node leading in the term. -/
def StaysLeader (cfg : ClusterConfig) (n t : Nat) (c : Cluster) (a : Action) : Prop := (c.step cfg a).Leads n t

instance (c : Cluster) (n t : Nat) : Decidable (c.Leads n t) :=
  match h : c.servers n with
  | .down _ => isFalse fun ⟨_, hup, _⟩ => by rw [h] at hup; cases hup
  | .up node =>
      if hl : node.raft.state = .leader ∧ node.raft.term = t then isTrue ⟨node, h, hl.1, hl.2⟩
      else isFalse fun ⟨_, hup, hs, ht⟩ => by
        rw [h] at hup
        obtain rfl := Server.up.inj hup
        exact hl ⟨hs, ht⟩

instance (c : Cluster) (a : Action) : Decidable (c.NoStalePreVote a) :=
  match a with
  | .deliver msg =>
      match h : c.servers msg.to_ with
      | .down _ => isTrue fun _ _ hup => by rw [h] at hup; cases hup
      | .up node =>
          decidable_of_iff (msg ∈ c.net → node.raft.state = .candidate → msg.type = .msgPreVoteResp →
              node.raft.term ≤ msg.term → msg.reject = true) <| by
            constructor
            · intro hyp hm node' hup
              rw [h] at hup
              obtain rfl := Server.up.inj hup
              exact hyp hm
            · intro hyp hm
              exact hyp hm node h
  | .start .. | .crash _ | .tick _ | .campaign _ | .propose .. | .proposeConfChange .. | .transferLeadership ..
  | .readIndex .. | .reportUnreachable .. | .reportSnapshot .. | .ready _ => isTrue trivial

/-- The actions of a list, one after the other. -/
def exec (cfg : ClusterConfig) : Cluster → List Action → Cluster
  | c, [] => c
  | c, a :: as => exec cfg (c.step cfg a) as

/-- The condition is met by every action of the list. -/
def Allows (cfg : ClusterConfig) (P : Cluster → Action → Prop) : Cluster → List Action → Prop
  | _, [] => True
  | c, a :: as => P c a ∧ Allows cfg P (c.step cfg a) as

instance decidableAllows (cfg : ClusterConfig) (P : Cluster → Action → Prop) [∀ c a, Decidable (P c a)] :
    (c : Cluster) → (as : List Action) → Decidable (Allows cfg P c as)
  | _, [] => isTrue trivial
  | c, a :: as => @instDecidableAnd _ _ _ (decidableAllows cfg P (c.step cfg a) as)

theorem exec_runs (cfg : ClusterConfig) (P : Cluster → Action → Prop) (c : Cluster) (as : List Action)
    (h : Allows cfg P c as) : Runs cfg P c (c.exec cfg as) := by
  induction as generalizing c with
  | nil => exact .refl
  | cons a as ih => exact .head ⟨a, h.1, rfl⟩ (ih _ h.2)

theorem allows_any (cfg : ClusterConfig) (c : Cluster) (as : List Action) : Allows cfg AnyStep c as := by
  induction as generalizing c with
  | nil => trivial
  | cons a as ih => exact ⟨trivial, ih _⟩

/-- The state in which the actions leave a fresh cluster. -/
def after (cfg : ClusterConfig) (as : List Action) : Cluster := init.exec cfg as

theorem after_reachable (cfg : ClusterConfig) (as : List Action) : Reachable cfg AnyStep (after cfg as) :=
  exec_runs _ _ _ _ (allows_any _ _ _)

theorem exec_any (cfg : ClusterConfig) (c : Cluster) (as : List Action) : Runs cfg AnyStep c (c.exec cfg as) :=
  exec_runs _ _ _ _ (allows_any _ _ _)

end Cluster

end RaftEtcd
