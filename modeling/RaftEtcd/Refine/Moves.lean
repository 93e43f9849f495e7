import RaftEtcd.Refine.Abs

/-! The moves of one node that change its role, its tallies or its messages, seen as steps of the
abstract protocol. -/
namespace RaftEtcd
open Consensus

theorem withOk_ok {x : Result Raft} {r' : Raft} {st : Status} (h : Raft.withOk x = .ok (r', st)) :
    x = .ok r' := by
  obtain ⟨a, ha, h⟩ := bind_ok h
  rw [ha, (Prod.mk.inj (Except.ok.inj h)).1]

namespace Raft

@[simp] theorem reset_id (r : Raft) (t : Nat) : (r.reset t).id = r.id := by
  unfold reset
  split <;> rfl

@[simp] theorem reset_term (r : Raft) (t : Nat) : (r.reset t).term = t := by
  unfold reset
  split
  · rfl
  · rename_i h
    exact not_not.mp h

theorem reset_vote (r : Raft) (t : Nat) : (r.reset t).vote = if r.term = t then r.vote else 0 := by
  unfold reset
  by_cases h : r.term = t
  · simp [h, resetRandomizedElectionTimeout, abortLeaderTransfer]
  · simp [h, resetRandomizedElectionTimeout, abortLeaderTransfer]

@[simp] theorem reset_raftLog (r : Raft) (t : Nat) : (r.reset t).raftLog = r.raftLog := by
  unfold reset
  split <;> rfl

@[simp] theorem reset_state (r : Raft) (t : Nat) : (r.reset t).state = r.state := by
  unfold reset
  split <;> rfl

@[simp] theorem reset_isLearner (r : Raft) (t : Nat) : (r.reset t).isLearner = r.isLearner := by
  unfold reset
  split <;> rfl

@[simp] theorem reset_preVote (r : Raft) (t : Nat) : (r.reset t).preVote = r.preVote := by
  unfold reset
  split <;> rfl

@[simp] theorem reset_msgs (r : Raft) (t : Nat) : (r.reset t).msgs = r.msgs := by
  unfold reset
  split <;> rfl

@[simp] theorem reset_votes (r : Raft) (t : Nat) : (r.reset t).votes = ∅ := by
  unfold reset
  split <;> rfl

@[simp] theorem reset_prs_keys (r : Raft) (t : Nat) : (r.reset t).prs.keys = r.prs.keys := by
  unfold reset
  split <;> exact AssocMap.keys_mapVal _ _

@[simp] theorem reset_learnerPrs_keys (r : Raft) (t : Nat) :
    (r.reset t).learnerPrs.keys = r.learnerPrs.keys := by
  unfold reset
  split <;> exact AssocMap.keys_mapVal _ _

theorem reset_prs (r : Raft) (t : Nat) : (r.reset t).prs = AssocMap.mapVal r.resetProgress r.prs := by
  unfold reset
  split <;> rfl

theorem reset_learnerPrs (r : Raft) (t : Nat) :
    (r.reset t).learnerPrs = AssocMap.mapVal r.resetProgress r.learnerPrs := by
  unfold reset
  split <;> rfl

theorem reset_getProgress (r : Raft) (t id : Nat) :
    (r.reset t).getProgress id = (r.getProgress id).map (r.resetProgress id) := by
  rw [getProgress, getProgress, reset_prs, reset_learnerPrs, AssocMap.lookup_mapVal, AssocMap.lookup_mapVal]
  cases r.prs.lookup id <;> rfl

theorem getProgress_modifyProgress (r : Raft) (id id' : Nat) (f : Progress → Progress) :
    (r.modifyProgress id f).getProgress id' =
      if id' = id then (r.getProgress id).map f else r.getProgress id' := by
  unfold modifyProgress getProgress
  cases hp : r.prs.lookup id with
  | some p =>
      simp only [Option.isSome_some, if_true]
      by_cases he : id' = id
      · subst id'
        rw [AssocMap.lookup_modify_self, hp, if_pos rfl]
        rfl
      · rw [AssocMap.lookup_modify_ne he, if_neg he]
  | none =>
      simp only [Option.isSome_none, Bool.false_eq_true, if_false]
      by_cases he : id' = id
      · subst id'
        rw [hp, AssocMap.lookup_modify_self, if_pos rfl]
      · rw [AssocMap.lookup_modify_ne he, if_neg he]

@[simp] theorem modifyProgress_prs_keys (r : Raft) (id : Nat) (f : Progress → Progress) :
    (r.modifyProgress id f).prs.keys = r.prs.keys := by
  unfold modifyProgress
  split
  · exact AssocMap.keys_modify _ _ _
  · rfl

@[simp] theorem modifyProgress_learnerPrs_keys (r : Raft) (id : Nat) (f : Progress → Progress) :
    (r.modifyProgress id f).learnerPrs.keys = r.learnerPrs.keys := by
  unfold modifyProgress
  split
  · rfl
  · exact AssocMap.keys_modify _ _ _

/-- Everything but the progress of peers is as before. -/
theorem modifyProgress_eq (r : Raft) (id : Nat) (f : Progress → Progress) :
    ∃ prs learnerPrs, r.modifyProgress id f = { r with prs := prs, learnerPrs := learnerPrs } := by
  unfold modifyProgress
  split
  · exact ⟨_, _, rfl⟩
  · exact ⟨_, _, rfl⟩

end Raft

section Roles
variable {cfg : ClusterConfig} {N : Set (Msg Nat Entry)} {B : Prop} {r r' : Raft}

/-- A node that neither stands nor leads, seen abstractly. -/
theorem abs_eq_retire {a : Node Nat Entry} (hr : r.state = .follower ∨ r.state = .preCandidate)
    (ht : r.term = a.term) (hv : absVote r.vote = a.vote) (hl : r.raftLog.log = a.log)
    (hc : r.raftLog.committed = a.commit) (ho : absMsgs r.msgs = a.out) : r.abs = a.retire := by
  have hnl : r.state ≠ .leader := by
    rcases hr with hr | hr <;> rw [hr] <;> decide
  have hnc : r.state ≠ .candidate := by
    rcases hr with hr | hr <;> rw [hr] <;> decide
  ext1
  · exact ht
  · exact hv
  · rcases hr with hr | hr <;> simp [Raft.abs, absRole, hr, Node.retire]
  · exact hl
  · exact hc
  · exact Raft.abs_votes_of_ne hnc
  · exact Raft.abs_matched_of_ne hnl
  · exact ho

theorem Bounded.of_ne (h : r.state ≠ .leader) : Bounded r := fun hl => absurd hl h

/-- The invariant of a node after a reset to a role other than leader. -/
theorem Good.of_reset (hg : Good cfg r) (hr : (r'.state = .candidate → r'.term ≠ 0) ∧ r'.state ≠ .leader)
    (hid : r'.id = r.id) (hlog : r'.raftLog = r.raftLog) (hkeys : r'.prs.keys = r.prs.keys)
    (hlkeys : r'.learnerPrs.keys = r.learnerPrs.keys) (hlr : r'.isLearner = r.isLearner)
    (hmsgs : r'.msgs = r.msgs) (hvote : r'.term = 0 → r'.vote = 0) (hpre : r'.preVote = r.preVote) :
    Good cfg r' where
  whole := hlog ▸ hg.whole
  member := hid ▸ hg.member
  keys := hkeys ▸ hg.keys
  learnerKeys := hlkeys ▸ hg.learnerKeys
  voter := by
    rw [hlr, hid]
    exact hg.voter
  term_pos h := h.elim hr.1 fun h => absurd h hr.2
  leader_voter h := absurd h hr.2
  vote_zero := hvote
  next_pos h := absurd h hr.2
  msgs := by
    rw [hmsgs, hid]
    exact hg.msgs
  pre := hpre ▸ hg.pre

theorem becomeFollower_sim (hg : Good cfg r) {term lead : Nat} (ht : r.term ≤ term) :
    Sim cfg N B r (r.becomeFollower term lead) where
  good := by
    refine hg.of_reset ⟨fun h => (by cases h), (by simp [Raft.becomeFollower])⟩ (by simp [Raft.becomeFollower])
      (by simp [Raft.becomeFollower]) (by simp [Raft.becomeFollower]) (by simp [Raft.becomeFollower])
      (by simp [Raft.becomeFollower]) (by simp [Raft.becomeFollower]) ?_ (by simp [Raft.becomeFollower])
    intro h0
    have h0' : term = 0 := by simpa [Raft.becomeFollower] using h0
    have hr0 : r.term = 0 := by omega
    simp only [Raft.becomeFollower, Raft.reset_vote]
    rw [if_pos (by omega)]
    exact hg.vote_zero hr0
  id := by simp [Raft.becomeFollower]
  storage := by simp [Raft.becomeFollower]
  steps _ _ := by
    refine ⟨.of_ne (by simp [Raft.becomeFollower]), .single ?_⟩
    rcases Nat.eq_or_lt_of_le ht with heq | hlt
    · have habs : (r.becomeFollower term lead).abs = r.abs.retire := by
        refine abs_eq_retire (Or.inl rfl) ?_ ?_ ?_ ?_ ?_ <;>
          simp [Raft.becomeFollower, Raft.abs, Raft.reset_vote, heq]
      rw [habs]
      exact .stepDown _
    · have habs : (r.becomeFollower term lead).abs = { r.abs.retire with term := term, vote := none } := by
        refine abs_eq_retire (a := { r.abs with term := term, vote := none }) (Or.inl rfl) ?_ ?_ ?_ ?_ ?_ <;>
          simp [Raft.becomeFollower, Raft.abs, Raft.reset_vote, absVote, Nat.ne_of_lt hlt]
      rw [habs]
      exact .newTerm _ _ hlt

theorem becomePreCandidate_sim (hg : Good cfg r) (h : r.becomePreCandidate = .ok r') :
    Sim cfg N B r r' ∧ r'.state = .preCandidate ∧ r'.raftLog = r.raftLog ∧ r'.term = r.term := by
  rw [Raft.becomePreCandidate] at h
  split at h
  · cases h
  obtain rfl := Except.ok.inj h
  refine ⟨⟨?_, rfl, rfl, fun _ _ => ⟨.of_ne (by simp), .single ?_⟩⟩, rfl, rfl, rfl⟩
  · exact hg.of_reset ⟨fun h => (by cases h), by simp⟩ rfl rfl rfl rfl rfl rfl hg.vote_zero rfl
  · rw [abs_eq_retire (r := { r with votes := ∅, lead := 0, state := .preCandidate }) (a := r.abs)
      (Or.inr rfl) rfl rfl rfl rfl rfl]
    exact .stepDown _

theorem becomeCandidate_sim (hg : Good cfg r) (hid : r.id ≠ 0) (h : r.becomeCandidate = .ok r') :
    Sim cfg N B r r' ∧ r'.state = .candidate ∧ r'.raftLog = r.raftLog ∧ r'.term = r.term + 1 ∧
      r'.prs.keys = r.prs.keys := by
  rw [Raft.becomeCandidate] at h
  split at h
  · cases h
  obtain rfl := Except.ok.inj h
  refine ⟨⟨?_, by simp, by simp, fun _ _ => ⟨.of_ne (by simp), .single ?_⟩⟩, rfl, by simp, by simp, by simp⟩
  · exact hg.of_reset ⟨fun _ => by simp, by simp⟩ (by simp) (by simp) (by simp) (by simp) (by simp)
      (by simp) (by simp) (by simp)
  · have habs : ({ r.reset (r.term + 1) with vote := (r.reset (r.term + 1)).id, state := .candidate } : Raft).abs =
        { r.abs.retire with term := r.abs.term + 1, vote := some r.id, role := .candidate } := by
      ext1
      · simp [Raft.abs]
      · simp [Raft.abs, absVote, hid]
      · simp [Raft.abs, absRole]
      · simp [Raft.abs, Node.retire]
      · simp [Raft.abs, Node.retire]
      · ext m
        simp [Raft.abs, Node.retire]
      · exact Raft.abs_matched_of_ne (by simp)
      · simp [Raft.abs, Node.retire]
    rw [habs]
    exact .stand _

end Roles

end RaftEtcd
