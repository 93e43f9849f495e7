import RaftEtcd.Reshape
import RaftEtcd.Windowed

/-! A node that has not seen a term yet: it neither stands nor leads, and what it counts on at a peer does
not go beyond its own log. An index outside the log has term 0, so for this node alone the comparison of
terms does not tell whether an index may be committed. -/
namespace RaftEtcd
variable {r r' r'' : Raft} {msg : Message}

structure Raft.Dormant (r : Raft) : Prop where
  role : r.state = .follower ∨ r.state = .preCandidate
  peers : r.EachPeer fun p => p.matched ≤ r.raftLog.lastIndex

def Raft.Termless (r : Raft) : Prop := r.term = 0 → r.Dormant

namespace Raft.Dormant

theorem congr (h : r.Dormant) (hstate : r'.state = r.state) (hlast : r'.raftLog.lastIndex = r.raftLog.lastIndex)
    (hpeers : SamePeers r r') : r'.Dormant where
  role := hstate ▸ h.role
  peers := by
    rw [hlast]
    exact h.peers.congr hpeers

theorem send (h : r.Dormant) {m : Message} (hs : r.send m = .ok r') : r'.Dormant := by
  obtain ⟨t, rfl, -, -⟩ := send_spec hs
  exact h.congr rfl rfl ⟨rfl, rfl⟩

theorem not_leader (h : r.Dormant) : r.state ≠ .leader := by
  intro hl
  rcases h.role with hrole | hrole
  · cases hl.symm.trans hrole
  · cases hl.symm.trans hrole

end Raft.Dormant

theorem becomeFollower_dormant (r : Raft) (t lead : Nat) : (r.becomeFollower t lead).Dormant where
  role := Or.inl rfl
  peers := by
    have hfresh : (r.reset t).EachPeer fun p => p.matched ≤ r.raftLog.lastIndex := by
      refine .reset (fun id p => ?_) t
      unfold Raft.resetProgress
      split
      · exact le_rfl
      · exact Nat.zero_le _
    have hlog : (r.becomeFollower t lead).raftLog = r.raftLog := Raft.reset_raftLog r t
    rw [hlog]
    exact hfresh.congr ⟨rfl, rfl⟩

section Campaigns

theorem campaignElection_term (hl : r.state ≠ .leader) (h : r.campaignElection = .ok r') : r'.term = r.term + 1 := by
  have hstanding : r.standing.term = r.term + 1 := Raft.reset_term r _
  rw [campaignElection_eq hl] at h
  split at h
  · exact (becomeLeader_new h).term.trans hstanding
  · obtain ⟨ms, rfl, -⟩ := sendVoteRequests_spec h
    exact hstanding

/-- Only a preliminary campaign leaves the term alone. -/
theorem campaign_dormant {ty : CampaignType} (hr : r.Dormant) (h : r.campaign ty = .ok r') (hzero : r'.term = 0) : r'.Dormant := by
  rw [campaign_eq hr.not_leader] at h
  split at h
  · split at h
    · have hterm := campaignElection_term (r := r.asking) nofun h
      omega
    · obtain ⟨ms, rfl, -⟩ := sendVoteRequests_spec h
      exact ⟨Or.inr rfl, hr.peers.congr ⟨rfl, rfl⟩⟩
  · have hterm := campaignElection_term hr.not_leader h
    omega

theorem stepHup_dormant (hr : r.Dormant) (h : r.stepHup = .ok r') (hzero : r'.term = 0) : r'.Dormant := by
  rcases stepHup_cases h with rfl | ⟨-, hcampaign⟩
  · exact hr
  · exact campaign_dormant hr hcampaign hzero

theorem stepVote_dormant (hr : r.Dormant) (h : r.stepVote msg = .ok r') : r'.Dormant := by
  obtain ⟨ms, elapsed, vote, rfl⟩ := stepVote_frame h
  exact hr.congr rfl rfl ⟨rfl, rfl⟩

end Campaigns

section Steps

theorem ne_of_fromLeader {ty : MessageType} (hkind : msg.type.isFromLeader = false) (hty : ty.isFromLeader = true) :
    msg.type ≠ ty := by
  rintro rfl
  cases hty.symm.trans hkind

theorem stepFollower_dormant {st : Status} (hr : r.Dormant) (hkind : msg.type.isFromLeader = false)
    (h : r.stepFollower msg = .ok (r', st)) (hzero : r'.term = 0) : r'.Dormant := by
  cases stepFollower_step h with
  | keeps unread same => rwa [same]
  | forwards type sent => exact hr.send sent
  | appends type handled => exact absurd type (ne_of_fromLeader hkind rfl)
  | beats type handled => exact absurd type (ne_of_fromLeader hkind rfl)
  | restores type handled => exact absurd type (ne_of_fromLeader hkind rfl)
  | stands type promotable campaign => exact campaign_dormant hr campaign hzero
  | reads type e one noted =>
      rw [noted]
      exact hr.congr rfl rfl ⟨rfl, rfl⟩

theorem stepCandidate_dormant {st : Status} (hr : r.Dormant) (hkind : msg.type.isFromLeader = false)
    (h : r.stepCandidate msg = .ok (r', st)) (hzero : r'.term = 0) : r'.Dormant := by
  cases stepCandidate_step h with
  | keeps same => rwa [same]
  | appends type handled => exact absurd type (ne_of_fromLeader hkind rfl)
  | beats type handled => exact absurd type (ne_of_fromLeader hkind rfl)
  | restores type handled => exact absurd type (ne_of_fromLeader hkind rfl)
  | counts type c polled votes frame tally =>
      have hcount : c.Dormant := by
        rw [frame]
        exact hr.congr rfl rfl ⟨rfl, rfl⟩
      cases tally with
      | stands quorum role campaign => exact campaign_dormant hcount campaign hzero
      | wins quorum role l lead cast =>
          rcases hcount.role with hrole | hrole
          · cases role.symm.trans hrole
          · cases role.symm.trans hrole
      | loses follows =>
          rw [follows]
          exact becomeFollower_dormant _ _ _
      | waits same => rwa [same]

theorem stepBody_dormant {st : Status} (hr : r.Dormant) (hkind : msg.type.isFromLeader = false)
    (h : r.stepBody msg = .ok (r', st)) (hzero : r'.term = 0) : r'.Dormant := by
  unfold Raft.stepBody at h
  split at h
  · exact stepHup_dormant hr (withOk_ok h) hzero
  · exact stepVote_dormant hr (withOk_ok h)
  · exact stepVote_dormant hr (withOk_ok h)
  · split at h
    · exact stepFollower_dormant hr hkind h hzero
    · exact stepCandidate_dormant hr hkind h hzero
    · exact stepCandidate_dormant hr hkind h hzero
    · rename_i hl
      exact absurd hl hr.not_leader

/-- A step that leaves a node without a term ignores the message, or takes it at once; no leader sent it. -/
theorem step_without_term {st : Status} (hterm : msg.type.isFromLeader = true → msg.term ≠ 0)
    (h : r.step msg = .ok (r', st)) (hzero : r'.term = 0) :
    r' = r ∨ msg.type.isFromLeader = false ∧ r.stepBody msg = .ok (r', st) := by
  have hle := (step_handles hterm h).term
  cases step_way h with
  | stays term body =>
      refine Or.inr ⟨?_, body⟩
      cases hkind : msg.type.isFromLeader with
      | false => rfl
      | true =>
          have hset := hterm hkind
          rcases term with hnone | hsame | ⟨-, -, hty | hty⟩
          · exact absurd hnone hset
          · omega
          · rw [hty] at hkind
            cases hkind
          · rw [hty] at hkind
            cases hkind
  | follows later lead heard body =>
      -- a node that follows has the term of the message from then on
      have hlater := (stepBody_handles (fun _ => by simp [Raft.becomeFollower]) body).term
      rw [Raft.becomeFollower, Raft.reset_term] at hlater
      omega
  | leased later type same => exact Or.inl same
  | stale sent earlier lower => omega

theorem step_termless {st : Status} (hr : r.Termless) (hterm : msg.type.isFromLeader = true → msg.term ≠ 0)
    (h : r.step msg = .ok (r', st)) : r'.Termless := by
  intro hzero
  have hle := (step_handles hterm h).term
  have hdormant := hr (by omega)
  rcases step_without_term hterm h hzero with same | ⟨hkind, body⟩
  · rwa [same]
  · exact stepBody_dormant hdormant hkind body hzero

theorem tick_termless (hr : r.Termless) (h : r.tick = .ok r') : r'.Termless := by
  intro hzero
  have hle := (tick_evolves (W := True) h).toAdvances.term
  have hdormant := hr (by omega)
  cases tick_ticks h with
  | waits timed =>
      obtain ⟨_, _, _, rfl⟩ := timed
      exact hdormant.congr rfl rfl ⟨rfl, rfl⟩
  | stands r₁ timed role promotable st step =>
      obtain ⟨_, _, _, rfl⟩ := timed
      refine step_termless (fun _ => ?_) (by rintro ⟨⟩) step hzero
      exact hdormant.congr rfl rfl ⟨rfl, rfl⟩
  | beats r₁ r₂ r₃ role timed check timed' beat => exact absurd role hdormant.not_leader

end Steps

section Operations
variable {n n₀ n' : RawNode}

theorem Progress.matched_posted (k : Nat) : Progress.Posted fun p => p.matched ≤ k where
  entries p last p' hp h := by
    unfold Raft.progressAfterSend at h
    split at h
    · obtain ⟨w, -, h⟩ := bind_ok h
      rw [← Except.ok.inj h]
      exact hp
    · rw [← Except.ok.inj h]
      exact hp
    · cases h
  snapshot _ _ hp := hp

theorem addNodeOrLearner_dormant {id : Nat} {b : Bool} (hr : r.Dormant) (h : r.addNodeOrLearner id b = .ok r') : r'.Dormant := by
  have hpeers := hr.peers.addNodeOrLearner (fun _ => Nat.zero_le _) (fun _ _ _ hp => hp) h
  obtain ⟨prs, lprs, l, rfl⟩ := addNodeOrLearner_frame h
  exact ⟨hr.role, hpeers⟩

theorem removeNode_dormant {id : Nat} (hr : r.Dormant) (h : r.removeNode id = .ok r') : r'.Dormant := by
  have hdel : (r.delProgress id).Dormant := ⟨hr.role, hr.peers.delProgress id⟩
  rcases removeNode_cases h with rfl | ⟨r₁, changed, r₂, hcommit, hsent, htimed⟩
  · exact hdel
  obtain ⟨c, rfl⟩ := maybeCommit_frame hcommit
  have hr₁ : Raft.Dormant { r.delProgress id with raftLog := { (r.delProgress id).raftLog with committed := c } } :=
    hdel.congr rfl rfl ⟨rfl, rfl⟩
  have hr₂ : r₂.Dormant := by
    rcases hsent with ⟨-, rfl⟩ | ⟨-, hbcast⟩
    · exact hr₁
    · have hposts := bcastAppend_posts hbcast
      refine ⟨by rw [hposts.state]; exact hr₁.role, ?_⟩
      rw [hposts.raftLog]
      exact bcastAppend_keeps (Progress.matched_posted _).kept hr₁.peers hbcast
  obtain ⟨_, _, _, rfl⟩ := htimed
  exact hr₂.congr rfl rfl ⟨rfl, rfl⟩

theorem applyConfChange_dormant {cc : ConfChange} {cs : ConfState} (hr : n.raft.Dormant)
    (h : n.applyConfChange cc = .ok (n', cs)) : n'.raft.Dormant := by
  cases (applyConfChange_configures h).1 with
  | ignores change same => rwa [same]
  | adds node type add => exact addNodeOrLearner_dormant hr add
  | addsLearner node type add => exact addNodeOrLearner_dormant hr add
  | removes node type remove => exact removeNode_dormant hr remove

/-- No call makes a node without a term stand, lead or count on entries. -/
theorem call_termless {a : NodeAction} (ha : a.IsCall) (hr : n.raft.Termless) (h : n.run a = .ok n') :
    n'.raft.Termless := by
  cases call_called ha h with
  | refuses same => rwa [same]
  | steps msg message led numbered r' st step node =>
      rw [node]
      exact step_termless hr led step
  | ticks r' tick node =>
      rw [node]
      exact tick_termless hr tick
  | configures cc cs apply =>
      intro hzero
      have hle := (applyConfChange_advances (W := True) apply).term
      exact applyConfChange_dormant (hr (by omega)) apply

theorem new_dormant {c : Config} (h : Raft.new c = .ok r) : r.Dormant := by
  obtain ⟨⟨peers, learners⟩, -, h⟩ := bind_ok h
  obtain ⟨r₁, -, h⟩ := bind_ok h
  obtain ⟨r₂, -, h⟩ := bind_ok h
  rw [← Except.ok.inj h]
  exact becomeFollower_dormant _ _ _

theorem started_termless {c : Config}
    (h : RawNode.restartNode c = .ok n ∨ ∃ serialize peers, RawNode.startNode serialize c peers = .ok n) :
    n.raft.Termless := by
  refine started_holds h (fun r hr _ => new_dormant hr) (fun r es log hr _ _ _ hzero => ?_) fun r r' id hr hadd hzero => ?_
  · rw [show ({ r.becomeFollower 1 0 with raftLog := { log with committed := es.length } } : Raft).term = 1 from
      Raft.reset_term r 1] at hzero
    cases hzero
  · obtain ⟨prs, lprs, l, rfl⟩ := addNodeOrLearner_frame hadd
    exact addNodeOrLearner_dormant (hr hzero) hadd

end Operations

end RaftEtcd
