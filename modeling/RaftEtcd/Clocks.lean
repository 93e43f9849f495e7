import RaftEtcd.Leading
import RaftEtcd.NodeRun

/-! The clocks of `raft/raft.cpp`. The timeout of an election is drawn anew whenever the clocks are reset, and never lies
below the configured one; a follower stands for election when it has run out, and not before. -/
namespace RaftEtcd
variable {r r' r'' : Raft} {msg : Message} {st : Status} {n n' : RawNode} {a : NodeAction}

/-- The settings stay, and the timeout of an election stays or is drawn anew. -/
structure Winds (r r' : Raft) : Prop where
  electionTimeout : r'.electionTimeout = r.electionTimeout
  checkQuorum : r'.checkQuorum = r.checkQuorum
  drawn : r'.randomizedElectionTimeout = r.randomizedElectionTimeout ∨
    r.electionTimeout ≤ r'.randomizedElectionTimeout

namespace Winds

theorem refl (r : Raft) : Winds r r := ⟨rfl, rfl, Or.inl rfl⟩

theorem trans (h : Winds r r') (h' : Winds r' r'') : Winds r r'' where
  electionTimeout := h'.electionTimeout.trans h.electionTimeout
  checkQuorum := h'.checkQuorum.trans h.checkQuorum
  drawn := by
    rcases h'.drawn with hsame | hnew
    · rw [hsame]
      exact h.drawn
    · rw [h.electionTimeout] at hnew
      exact Or.inr hnew

theorem of_posts (h : Posts r r') : Winds r r' := by
  obtain ⟨prs, lprs, msgs, rfl⟩ := h.rest
  exact ⟨rfl, rfl, Or.inl rfl⟩

theorem send {m : Message} (h : r.send m = .ok r') : Winds r r' := by
  obtain ⟨t, rfl, -, -⟩ := send_spec h
  exact ⟨rfl, rfl, Or.inl rfl⟩

end Winds

section Roles

end Roles

section Handlers

/-- The log, the peers and what goes out may change, and nothing else. -/
def Serviced (r r' : Raft) : Prop :=
  ∃ log prs lprs learner msgs readStates, r' = { r with
    raftLog := log, prs := prs, learnerPrs := lprs, isLearner := learner, msgs := msgs, readStates := readStates }

theorem Serviced.refl (r : Raft) : Serviced r r := ⟨_, _, _, _, _, _, rfl⟩

theorem send_serviced {m : Message} (h : r.send m = .ok r') : Serviced r r' := by
  obtain ⟨t, rfl, -, -⟩ := send_spec h
  exact ⟨_, _, _, _, _, _, rfl⟩

theorem handleAppendEntries_serviced (h : r.handleAppendEntries msg = .ok r') : Serviced r r' := by
  obtain ⟨log, m, -, -, hsent⟩ := handleAppendEntries_cases h
  obtain ⟨_, _, _, _, _, _, rfl⟩ := send_serviced hsent
  exact ⟨_, _, _, _, _, _, rfl⟩

theorem handleHeartbeat_serviced (h : r.handleHeartbeat msg = .ok r') : Serviced r r' := by
  obtain ⟨log, -, h⟩ := bind_ok h
  obtain ⟨_, _, _, _, _, _, rfl⟩ := send_serviced h
  exact ⟨_, _, _, _, _, _, rfl⟩

theorem handleSnapshot_serviced (h : r.handleSnapshot msg = .ok r') : Serviced r r' := by
  obtain ⟨⟨r₁, b⟩, h₁, h⟩ := bind_ok h
  obtain ⟨_, _, _, _, _, _, rfl⟩ := send_serviced h
  rcases restore_spec h₁ with rfl | ⟨log, -, rfl⟩ | ⟨-, prs, lprs, l, rfl⟩
  · exact ⟨_, _, _, _, _, _, rfl⟩
  · exact ⟨_, _, _, _, _, _, rfl⟩
  · exact ⟨_, _, _, _, _, _, rfl⟩

end Handlers

/-- What a follower does with a message that does not make it stand for election. -/
inductive Minds (msg : Message) (r r' : Raft) : Prop
  | serves (serviced : Serviced r r')
  | hears (type : msg.type = .msgApp ∨ msg.type = .msgHeartbeat ∨ msg.type = .msgSnap)
      (serviced : Serviced { r with electionElapsed := 0, lead := msg.from_ } r')
  | votes (type : msg.type = .msgVote) (free : r.vote = msg.from_ ∨ r.vote = 0 ∧ r.lead = 0) (msgs : List Message)
      (noted : r' = { r with msgs := msgs, electionElapsed := 0, vote := msg.from_ })

/-- Nothing in the message makes a follower stand for election. -/
def Message.Unhurried (msg : Message) : Prop := msg.type ≠ .msgHup ∧ msg.type ≠ .msgTimeoutNow

theorem stepVote_minds (h : r.stepVote msg = .ok r') :
    Minds msg r r' := by
  cases stepVote_votes h with
  | learns learner same =>
      rw [same]
      exact .serves (.refl r)
  | grants voter type answer free upToDate r₁ sent noted =>
      obtain ⟨t, rfl, -, -⟩ := send_spec sent
      split at noted
      · rename_i hvote
        refine .votes hvote ?_ _ noted
        rcases free with hsame | hfree | ⟨hpre, -⟩
        · exact Or.inl hsame
        · exact Or.inr hfree
        · rw [hvote] at hpre
          cases hpre
      · rw [noted]
        exact .serves ⟨_, _, _, _, _, _, rfl⟩
  | refuses type answer sent => exact .serves (send_serviced sent)

theorem stepFollower_minds (hty : msg.type ≠ .msgTimeoutNow) (h : r.stepFollower msg = .ok (r', st)) :
    Minds msg r r' := by
  cases stepFollower_step h with
  | keeps unread same =>
      rw [same]
      exact .serves (.refl r)
  | forwards type sent => exact .serves (send_serviced sent)
  | appends type handled => exact .hears (Or.inl type) (handleAppendEntries_serviced handled)
  | beats type handled => exact .hears (Or.inr (Or.inl type)) (handleHeartbeat_serviced handled)
  | restores type handled => exact .hears (Or.inr (Or.inr type)) (handleSnapshot_serviced handled)
  | stands type promotable campaign => exact absurd type hty
  | reads type e one noted =>
      rw [noted]
      exact .serves ⟨_, _, _, _, _, _, rfl⟩

theorem stepBody_minds (hf : r.state = .follower) (hty : msg.Unhurried) (h : r.stepBody msg = .ok (r', st)) :
    Minds msg r r' := by
  unfold Raft.stepBody at h
  split at h
  · rename_i hhup
    exact absurd hhup hty.1
  · exact stepVote_minds (withOk_ok h)
  · exact stepVote_minds (withOk_ok h)
  · rw [hf] at h
    exact stepFollower_minds hty.2 h

theorem Minds.follower (h : Minds msg r r') : r'.state = r.state ∧ r'.electionElapsed ≤ r.electionElapsed := by
  cases h with
  | serves serviced =>
      obtain ⟨_, _, _, _, _, _, rfl⟩ := serviced
      exact ⟨rfl, le_rfl⟩
  | hears type serviced =>
      obtain ⟨_, _, _, _, _, _, rfl⟩ := serviced
      exact ⟨rfl, Nat.zero_le _⟩
  | votes type free msgs noted =>
      rw [noted]
      exact ⟨rfl, Nat.zero_le _⟩

namespace NodeAction

def isTick : NodeAction → Bool
  | tick => true
  | _ => false

/-- Nobody tells the node to stand for election. -/
def Unhurried : NodeAction → Prop
  | step msg => msg.type ≠ .msgTimeoutNow
  | campaign => False
  | _ => True

/-- Nothing comes in, and the members stay. -/
def Quiet : NodeAction → Prop
  | step _ | campaign | applyConfChange _ => False
  | _ => True

end NodeAction

/-- The time that passes. -/
def ticks (as : List NodeAction) : Nat := as.countP NodeAction.isTick

theorem message_quiet (ha : a.Quiet) (h : a.message n = some msg) :
    msg.term = 0 ∧ msg.type.isOwn = true ∧ msg.type ≠ .msgHup := by
  cases a with
  | step m => exact ha.elim
  | campaign => exact ha.elim
  | propose data | proposeConfChange data | transferLeadership lead transferee | readIndex rctx
  | reportUnreachable id | reportSnapshot id failure =>
      obtain rfl := Option.some.inj h
      exact ⟨rfl, rfl, nofun⟩
  | _ => cases h

theorem NodeAction.Quiet.unhurried (ha : a.Quiet) : a.Unhurried := by
  cases a with
  | step m => exact ha.elim
  | campaign => exact ha.elim
  | _ => trivial

end RaftEtcd
