import RaftEtcd.Cluster
import RaftEtcd.Lib.Consensus.Model
import RaftEtcd.Refine.Log

/-! How a raft node is seen by the abstract protocol, and the invariant of one node. A node that
only asks for pre-votes is a follower there, and pre-votes are no messages at all. -/
namespace RaftEtcd
open Consensus

/-- The messages that peers exchange about votes, entries and heartbeats. -/
def MessageType.isPeer : MessageType → Bool
  | .msgApp | .msgAppResp | .msgVote | .msgVoteResp | .msgHeartbeat | .msgHeartbeatResp
  | .msgPreVote | .msgPreVoteResp => true
  | _ => false

def MessageType.isPre : MessageType → Bool
  | .msgPreVote | .msgPreVoteResp => true
  | _ => false

/-- A request for votes carries the candidate's own vote, and entries carry the leader's own
acknowledgement. -/
def absMsg (m : Message) : Set (Msg Nat Entry) :=
  match m.type with
  | .msgVote => {.vote m.from_ m.term m.index m.logTerm, .grant m.from_ m.from_ m.term}
  | .msgVoteResp => if m.reject then ∅ else {.grant m.from_ m.to_ m.term}
  | .msgApp =>
      {.app m.from_ m.term m.index m.logTerm m.entries m.commit,
        .ack m.from_ m.term (m.index + m.entries.length)}
  | .msgAppResp => if m.reject then ∅ else {.ack m.from_ m.term m.index}
  | .msgHeartbeat => {.beat m.from_ m.to_ m.term m.commit}
  | _ => ∅

def absMsgs (ms : List Message) : Set (Msg Nat Entry) := { x | ∃ m ∈ ms, x ∈ absMsg m }

theorem absMsgs_append (ms ms' : List Message) : absMsgs (ms ++ ms') = absMsgs ms ∪ absMsgs ms' := by
  ext x
  simp only [absMsgs, List.mem_append, Set.mem_ofPred_eq, Set.mem_union]
  constructor
  · rintro ⟨m, hm | hm, hx⟩
    · exact Or.inl ⟨m, hm, hx⟩
    · exact Or.inr ⟨m, hm, hx⟩
  · rintro (⟨m, hm, hx⟩ | ⟨m, hm, hx⟩)
    · exact ⟨m, Or.inl hm, hx⟩
    · exact ⟨m, Or.inr hm, hx⟩

@[simp] theorem absMsgs_nil : absMsgs [] = ∅ := by
  ext x
  simp [absMsgs]

@[simp] theorem absMsgs_singleton (m : Message) : absMsgs [m] = absMsg m := by
  ext x
  simp [absMsgs]

theorem absMsg_subset {m : Message} {ms : List Message} (h : m ∈ ms) : absMsg m ⊆ absMsgs ms :=
  fun _ hx => ⟨m, h, hx⟩

def absVote (v : Nat) : Option Nat := if v = 0 then none else some v

def absRole : RaftState → Role
  | .follower | .preCandidate => .follower
  | .candidate => .candidate
  | .leader => .leader

namespace Raft

/-- The progress of the node itself is not part of the abstract state. -/
def abs (r : Raft) : Node Nat Entry where
  term := r.term
  vote := absVote r.vote
  role := absRole r.state
  log := r.raftLog.log
  commit := r.raftLog.committed
  votes := { m | r.state = .candidate ∧ r.votes.lookup m = some true }
  matched m := if r.state = .leader ∧ m ≠ r.id then ((r.getProgress m).map Progress.matched).getD 0 else 0
  out := absMsgs r.msgs

theorem abs_role_leader {r : Raft} : r.abs.role = .leader ↔ r.state = .leader := by
  cases h : r.state <;> simp [abs, absRole, h]

theorem abs_role_candidate {r : Raft} : r.abs.role = .candidate ↔ r.state = .candidate := by
  cases h : r.state <;> simp [abs, absRole, h]

theorem abs_votes_of_ne {r : Raft} (h : r.state ≠ .candidate) : r.abs.votes = ∅ := by
  ext m
  simp [abs, h]

theorem abs_matched_of_ne {r : Raft} (h : r.state ≠ .leader) : r.abs.matched = fun _ => 0 := by
  funext m
  simp [abs, h]

end Raft

/-- Some node asks for pre-votes. -/
def ClusterConfig.UsesPreVote (cfg : ClusterConfig) : Prop := ∃ n, (cfg.settings n).preVote = true

/-- What holds of every message on the net. -/
structure MsgGood (cfg : ClusterConfig) (m : Message) : Prop where
  src : m.from_ ∈ cfg.members
  peer : m.type.isPeer = true → m.term ≠ 0 ∧ m.to_ ≠ m.from_ ∧ m.to_ ∈ cfg.members
  snap : m.type ≠ .msgSnap
  app : m.type = .msgApp → IndexedFrom (m.index + 1) m.entries
  pre : m.type.isPre = true → cfg.UsesPreVote

/-- The invariant that a node keeps by itself, whatever it receives from peers that keep theirs. -/
structure Good (cfg : ClusterConfig) (r : Raft) : Prop where
  whole : r.raftLog.Whole
  member : r.id ∈ cfg.members
  keys : r.prs.keys.Perm cfg.voters
  learnerKeys : ∀ id ∈ r.learnerPrs.keys, id ∈ cfg.learners
  voter : r.isLearner = false → r.id ∈ cfg.voters
  term_pos : r.state = .candidate ∨ r.state = .leader → r.term ≠ 0
  leader_voter : r.state = .leader → r.id ∈ cfg.voters
  vote_zero : r.term = 0 → r.vote = 0
  next_pos : r.state = .leader → ∀ id p, r.getProgress id = some p → 1 ≤ p.next ∧ p.state ≠ .snapshot
  msgs : ∀ m ∈ r.msgs, MsgGood cfg m ∧ m.from_ = r.id
  pre : r.preVote = true → cfg.UsesPreVote

/-- A leader expects no follower to be ahead of its own log. This rests on the acknowledgements
that the leader receives, so it is not part of `Good`. -/
def Bounded (r : Raft) : Prop :=
  r.state = .leader → ∀ id p, r.getProgress id = some p →
    p.next ≤ r.raftLog.log.length + 1 ∧ p.matched ≤ r.raftLog.log.length

/-- One node moves from `r` to `r'`: it keeps its invariant, and where `B` holds it also keeps the
bounds and makes steps of the abstract protocol only. -/
structure Sim (cfg : ClusterConfig) (N : Set (Msg Nat Entry)) (B : Prop) (r r' : Raft) : Prop where
  good : Good cfg r'
  id : r'.id = r.id
  storage : r'.raftLog.storage = r.raftLog.storage
  steps : B → Bounded r → Bounded r' ∧
    Relation.ReflTransGen (LocalStep cfg.voters.toFinset Entry.term N r.id) r.abs r'.abs

namespace Sim
variable {cfg : ClusterConfig} {N : Set (Msg Nat Entry)} {B : Prop} {r r' r'' : Raft}

theorem refl (h : Good cfg r) : Sim cfg N B r r := ⟨h, rfl, rfl, fun _ hb => ⟨hb, .refl⟩⟩

theorem trans (h : Sim cfg N B r r') (h' : Sim cfg N B r' r'') : Sim cfg N B r r'' where
  good := h'.good
  id := h'.id.trans h.id
  storage := h'.storage.trans h.storage
  steps hB hb := by
    obtain ⟨hb', hs⟩ := h.steps hB hb
    obtain ⟨hb'', hs'⟩ := h'.steps hB hb'
    rw [h.id] at hs'
    exact ⟨hb'', hs.trans hs'⟩

end Sim

/-- Nothing that matters for the protocol is different; timers, reads and limits may be. -/
structure SameCore (r r' : Raft) : Prop where
  id : r'.id = r.id
  term : r'.term = r.term
  vote : r'.vote = r.vote
  raftLog : r'.raftLog = r.raftLog
  prs : r'.prs = r.prs
  learnerPrs : r'.learnerPrs = r.learnerPrs
  state : r'.state = r.state
  isLearner : r'.isLearner = r.isLearner
  votes : r'.votes = r.votes
  msgs : r'.msgs = r.msgs
  preVote : r'.preVote = r.preVote

namespace SameCore
variable {cfg : ClusterConfig} {N : Set (Msg Nat Entry)} {B : Prop} {r r' : Raft}

theorem trans {r'' : Raft} (h : SameCore r r') (h' : SameCore r' r'') : SameCore r r'' where
  id := h'.id.trans h.id
  term := h'.term.trans h.term
  vote := h'.vote.trans h.vote
  raftLog := h'.raftLog.trans h.raftLog
  prs := h'.prs.trans h.prs
  learnerPrs := h'.learnerPrs.trans h.learnerPrs
  state := h'.state.trans h.state
  isLearner := h'.isLearner.trans h.isLearner
  votes := h'.votes.trans h.votes
  msgs := h'.msgs.trans h.msgs
  preVote := h'.preVote.trans h.preVote

theorem getProgress (h : SameCore r r') (id : Nat) : r'.getProgress id = r.getProgress id := by
  rw [Raft.getProgress, Raft.getProgress, h.prs, h.learnerPrs]

theorem abs (h : SameCore r r') : r'.abs = r.abs := by
  simp only [Raft.abs, h.term, h.vote, h.raftLog, h.state, h.votes, h.msgs, h.id, h.getProgress]

theorem good (h : SameCore r r') (hg : Good cfg r) : Good cfg r' where
  whole := h.raftLog ▸ hg.whole
  member := h.id ▸ hg.member
  keys := h.prs ▸ hg.keys
  learnerKeys := h.learnerPrs ▸ hg.learnerKeys
  voter := by
    rw [h.isLearner, h.id]
    exact hg.voter
  term_pos := by
    rw [h.state, h.term]
    exact hg.term_pos
  leader_voter := by
    rw [h.state, h.id]
    exact hg.leader_voter
  vote_zero := by
    rw [h.term, h.vote]
    exact hg.vote_zero
  next_pos := by
    rw [h.state]
    intro hl id p
    rw [h.getProgress]
    exact hg.next_pos hl id p
  msgs := by
    rw [h.msgs, h.id]
    exact hg.msgs
  pre := h.preVote ▸ hg.pre

theorem bounded (h : SameCore r r') (hb : Bounded r) : Bounded r' := by
  intro hl id p hp
  rw [h.state] at hl
  rw [h.getProgress] at hp
  rw [h.raftLog]
  exact hb hl id p hp

theorem sim (h : SameCore r r') (hg : Good cfg r) : Sim cfg N B r r' where
  good := h.good hg
  id := h.id
  storage := by rw [h.raftLog]
  steps _ hb := by
    rw [h.abs]
    exact ⟨h.bounded hb, .refl⟩

end SameCore

end RaftEtcd
