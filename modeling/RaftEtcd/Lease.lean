import RaftEtcd.Clocks
import RaftEtcd.Durability
import RaftEtcd.Election

/-! The lease that `Raft::step` gives a leader: with `check_quorum` a follower that hears from its leader within the
election timeout does not look at requests for votes of later terms. -/
namespace RaftEtcd
open Consensus
variable {cfg : ClusterConfig} {c c' : Cluster} {r r' : Raft} {msg : Message} {st : Status}
variable {n m t : Nat} {node node' : RawNode} {b : NodeAction}

/-- A follower that has heard from its leader within the election timeout. -/
structure Raft.Leased (r : Raft) : Prop where
  follows : r.state = .follower
  led : r.lead ≠ 0
  checks : r.checkQuorum = true
  heard : r.electionElapsed < r.electionTimeout

/-- Of later terms the message is a request for a vote, not for the sake of a transfer, or an answer that is ignored. -/
structure Message.Respects (msg : Message) (r : Raft) : Prop where
  unhurried : msg.Unhurried
  src : msg.type = .msgApp ∨ msg.type = .msgHeartbeat ∨ msg.type = .msgSnap → msg.from_ ≠ 0
  later : r.term < msg.term → (msg.type = .msgVote ∨ msg.type = .msgPreVote) ∧ msg.context ≠ kCampaignTransfer ∨
    msg.type = .msgPreVoteResp ∧ msg.reject = false

/-- What a lease keeps as it is. -/
structure Stays (r r' : Raft) : Prop where
  leased : r'.Leased
  term : r'.term = r.term
  vote : r'.vote = r.vote

namespace Raft.Leased

theorem refl (h : r.Leased) : Stays r r := ⟨h, rfl, rfl⟩

theorem inLease (h : r.Leased) : r.inLease = true := by
  unfold Raft.inLease
  rw [h.checks]
  simpa using ⟨h.led, h.heard⟩

theorem serviced (h : r.Leased) (hs : Serviced r r') : Stays r r' := by
  obtain ⟨_, _, _, _, _, _, rfl⟩ := hs
  exact ⟨⟨h.follows, h.led, h.checks, h.heard⟩, rfl, rfl⟩

theorem minds (h : r.Leased) (hm : msg.Respects r) (hh : Minds msg r r') : Stays r r' := by
  have hpos : 0 < r.electionTimeout := Nat.lt_of_le_of_lt (Nat.zero_le _) h.heard
  cases hh with
  | serves serviced => exact h.serviced serviced
  | hears type serviced =>
      obtain ⟨_, _, _, _, _, _, rfl⟩ := serviced
      exact ⟨⟨h.follows, hm.src type, h.checks, hpos⟩, rfl, rfl⟩
  | votes type free msgs noted =>
      have hvote : r.vote = msg.from_ := free.resolve_right fun hfree => h.led hfree.2
      rw [noted]
      exact ⟨⟨h.follows, h.led, h.checks, hpos⟩, rfl, hvote.symm⟩

theorem step (h : r.Leased) (hm : msg.Respects r) (hstep : r.step msg = .ok (r', st)) : Stays r r' := by
  have hbody : r.stepBody msg = .ok (r', st) → Stays r r' := fun hbody =>
    h.minds hm (stepBody_minds h.follows hm.unhurried hbody)
  cases step_way hstep with
  | stays term body => exact hbody body
  | follows later lead heard body =>
      -- a vote request is not looked at, and the answer changes no term
      rcases hm.later later with ⟨hty, hcontext⟩ | ⟨hty, hgrant⟩
      · have hzero : msg.term ≠ 0 := by omega
        rw [Raft.step, if_neg hzero, if_pos later, if_pos ⟨hty, hcontext, h.inLease⟩] at hstep
        rw [← (Prod.mk.inj (Except.ok.inj hstep)).1]
        exact h.refl
      · have hsame : r.higherTerm msg = r := by
          unfold Raft.higherTerm
          rw [hty, hgrant]
          rfl
        rw [hsame] at heard
        rw [← heard] at body
        exact hbody body
  | leased later type same =>
      rw [same]
      exact h.refl
  | stale sent earlier lower =>
      rcases lowerTerm_cases lower with rfl | ⟨m, -, hsent⟩
      · exact h.refl
      · exact h.serviced (send_serviced hsent)

end Raft.Leased

/-! ### One server of a cluster -/

/-- Nothing makes the node stand for election, or takes it to a later term before it looks at its lease. -/
structure Action.Spares (a : Action) (n : Nat) (r : Raft) : Prop where
  campaign : a ≠ .campaign n
  tick : a = .tick n → r.electionElapsed + 1 < r.electionTimeout
  urged : ∀ msg, a = .deliver msg → msg.to_ = n → msg.type ≠ .msgTimeoutNow
  later : ∀ msg, a = .deliver msg → msg.to_ = n → r.term < msg.term →
    (msg.type = .msgVote ∨ msg.type = .msgPreVote) ∧ msg.context ≠ kCampaignTransfer ∨
      msg.type = .msgPreVoteResp ∧ msg.reject = false

/-- The nodes of the group go on running, and their leases are spared. -/
def Cluster.Undisturbed (cfg : ClusterConfig) (Q : Finset Nat) (c : Cluster) (a : Action) : Prop :=
  c.NoStalePreVote a ∧ ∀ n ∈ Q, Cluster.StaysUp cfg n c a ∧ ∀ node, c.servers n = .up node → a.Spares n node.raft

theorem handleReady_frame {msgs : List Message} (h : node.handleReady = .ok (msgs, node')) :
    ∃ log readStates u, node'.raft = { node.raft with
      raftLog := log, msgs := [], readStates := readStates, uncommittedSize := u } := by
  obtain ⟨⟨rd, n₁⟩, hready, h⟩ := bind_ok h
  obtain ⟨storage, -, h⟩ := bind_ok h
  rw [ready_frame hready] at h
  rw [← (Prod.mk.inj (Except.ok.inj h)).2]
  exact ⟨_, _, _, rfl⟩

/-- A call that brings nothing in is respectful. -/
theorem Raft.Leased.quiet (h : node.raft.Leased) (hb : b.Quiet) (htick : b ≠ .tick) (hrun : node.run b = .ok node') :
    Stays node.raft node'.raft := by
  cases run_operates hrun with
  | refuses message same =>
      rw [same]
      exact h.refl
  | steps msg message r' st step node =>
      rw [node]
      obtain ⟨hterm, hown, hhup⟩ := message_quiet hb message
      have hother : ∀ ty : MessageType, ty.isOwn = false → msg.type ≠ ty := by
        intro ty hty heq
        rw [heq, hty] at hown
        cases hown
      refine h.step ⟨⟨hhup, hother _ rfl⟩, fun hty => ?_, fun hlater => ?_⟩ step
      · rcases hty with hty | hty | hty <;> exact absurd hty (hother _ rfl)
      · omega
  | ticks action r' tick node => exact absurd action htick
  | configures cc action cs apply =>
      rw [action] at hb
      exact hb.elim
  | readies action rd ready =>
      rw [ready_frame ready]
      exact ⟨⟨h.follows, h.led, h.checks, h.heard⟩, rfl, rfl⟩
  | advances rd action node =>
      rw [node]
      exact ⟨⟨h.follows, h.led, h.checks, h.heard⟩, rfl, rfl⟩
  | stores storage action node =>
      rw [node]
      exact ⟨⟨h.follows, h.led, h.checks, h.heard⟩, rfl, rfl⟩

theorem Cluster.Runs.clean {Q : Finset Nat} (hr : Cluster.Runs cfg (Cluster.Undisturbed cfg Q) c c') :
    Cluster.Runs cfg Cluster.NoStalePreVote c c' := by
  induction hr with
  | refl => exact .refl
  | tail _ hstep ih =>
      obtain ⟨a, ha, h⟩ := hstep
      exact ih.tail ⟨a, ha.1, h⟩

/-- The node is up and leased, in a term up to `t`. -/
def Server.leased (t : Nat) : Server → Bool
  | .down _ => false
  | .up node => decide (node.raft.state = .follower ∧ node.raft.lead ≠ 0 ∧ node.raft.checkQuorum = true ∧
      node.raft.electionElapsed < node.raft.electionTimeout ∧ node.raft.term ≤ t)

end RaftEtcd
