import RaftEtcd.Refine.Lead

/-! Every call on a node, from the message or the tick that comes in to the state it leaves. -/
namespace RaftEtcd
open Consensus
variable {cfg : ClusterConfig} {N : Set (Msg Nat Entry)} {B : Prop} {r r' : Raft} {msg : Message}

theorem stepHup_sim (hg : Good cfg r) (h : r.stepHup = .ok r') : Sim cfg N B r r' := by
  rcases stepHup_cases h with rfl | ⟨-, hcampaign⟩
  · exact .refl hg
  · refine campaign_sim hg ?_ hcampaign
    intro hct
    by_contra hpre
    rw [if_neg hpre] at hct
    cases hct

/-- What keeps the answers to pre-votes out of the tally of an election. -/
def CleanTally (r : Raft) (msg : Message) : Prop :=
  msg.type = .msgPreVoteResp → r.state = .candidate → msg.reject = true

/-- An acknowledgement that reaches a leader is inside its log. -/
def AckBound (r : Raft) (msg : Message) : Prop :=
  r.state = .leader → msg.type = .msgAppResp → msg.reject = false → msg.index ≤ r.raftLog.log.length

theorem stepBody_sim (hg : Good cfg r) (hin : Input cfg N r msg) (hpre : CleanTally r msg)
    (hB : B → AckBound r msg) {st : Status} (h : r.stepBody msg = .ok (r', st)) : Sim cfg N B r r' := by
  unfold Raft.stepBody at h
  split at h
  · exact stepHup_sim hg (withOk_ok h)
  · rename_i hty
    exact stepVote_sim hg hin (Or.inl hty) (withOk_ok h)
  · rename_i hty
    exact stepVote_sim hg hin (Or.inr hty) (withOk_ok h)
  · split at h
    · rename_i hs
      exact stepFollower_sim hg hs hin h
    · exact stepCandidate_sim hg hin hpre h
    · exact stepCandidate_sim hg hin hpre h
    · rename_i hs
      exact stepLeader_sim hg hs hin (fun hB' => hB hB' hs) h

/-- What a node may rely on when a message arrives, whatever its term. -/
structure Arrives (cfg : ClusterConfig) (N : Set (Msg Nat Entry)) (r : Raft) (msg : Message) : Prop where
  peer : msg.type.isPeer = true → msg.term ≠ 0 ∧ msg.from_ ∈ cfg.members ∧ msg.from_ ≠ r.id ∧ msg.to_ = r.id
  known : absMsg msg ⊆ N
  snap : msg.type ≠ .msgSnap
  app : msg.type = .msgApp → IndexedFrom (msg.index + 1) msg.entries
  pre : msg.type.isPre = true → cfg.UsesPreVote

theorem MessageType.isPeer_of_isTermed {t : MessageType} (h : t.isTermed = true) : t.isPeer = true := by
  cases t <;> first | rfl | cases h

/-- Messages that a node makes for itself. -/
theorem Arrives.of_local (hp : msg.type.isPeer = false) (hs : msg.type ≠ .msgSnap) : Arrives cfg N r msg where
  peer h := by
    rw [hp] at h
    cases h
  known := by
    have habs : absMsg msg = ∅ := by
      cases hm : msg.type <;> simp_all [absMsg, MessageType.isPeer]
    rw [habs]
    exact Set.empty_subset _
  snap := hs
  app h := by
    rw [h] at hp
    cases hp
  pre h := by
    cases hm : msg.type <;> simp_all [MessageType.isPre, MessageType.isPeer]

theorem Arrives.input (ha : Arrives cfg N r msg) (hid : r'.id = r.id)
    (ht : msg.type.isTermed = true → msg.term ≠ 0 → msg.term = r'.term) : Input cfg N r' msg where
  peer h := by
    rw [hid]
    exact (ha.peer h).2
  known := ha.known
  term h := by
    have h0 := (ha.peer (MessageType.isPeer_of_isTermed h)).1
    have heq := ht h h0
    exact ⟨heq, heq ▸ h0⟩
  snap := ha.snap
  app := ha.app
  pre := ha.pre

theorem lowerTerm_sim (hg : Good cfg r) (ha : Arrives cfg N r msg) (ht : r.term ≠ 0)
    (h : r.lowerTerm msg = .ok r') : Sim cfg N B r r' := by
  unfold Raft.lowerTerm at h
  split at h
  · rename_i hty
    obtain ⟨-, hmem, hne, -⟩ := ha.peer (by rcases hty.2 with hty | hty <;> rw [hty] <;> rfl)
    refine (send_tells hg h rfl (by simp) hmem hne (fun _ => ht) nofun ?_).toSim
    intro t _ ht _ _
    right
    rw [ht rfl]
    exact .ack 0 (Nat.zero_le _) (Or.inl rfl)
  · split at h
    · rename_i hty
      obtain ⟨-, hmem, hne, -⟩ := ha.peer (by rw [hty]; rfl)
      refine (send_tells hg h rfl (by simp) hmem hne nofun (fun _ => ha.pre (by rw [hty]; rfl)) ?_).toSim
      intro t _ _ _ _
      exact Or.inl rfl
    · obtain rfl := Except.ok.inj h
      exact .refl hg

theorem step_sim (hg : Good cfg r) (ha : Arrives cfg N r msg) (hpre : r.term ≤ msg.term → CleanTally r msg)
    (hB : B → msg.term = r.term → AckBound r msg) {st : Status} (h : r.step msg = .ok (r', st)) :
    Sim cfg N B r r' := by
  cases step_way h with
  | stays term body =>
      rcases term with hzero | hsame | ⟨hlater, -, hvote⟩
      · -- without a term: no message of a peer
        have hnp : msg.type.isPeer = false := by
          cases hp : msg.type.isPeer with
          | false => rfl
          | true => exact absurd hzero (ha.peer hp).1
        refine stepBody_sim hg (ha.input rfl fun _ hne => absurd hzero hne) ?_ ?_ body
        · intro hty
          rw [hty] at hnp
          cases hnp
        · intro _ _ hty
          rw [hty] at hnp
          cases hnp
      · exact stepBody_sim hg (ha.input rfl fun _ _ => hsame) (hpre hsame.ge) (fun hB' => hB hB' hsame) body
      · refine stepBody_sim hg (ha.input rfl fun ht => ?_) (hpre hlater.le) ?_ body
        · rcases hvote with hty | hty <;> rw [hty] at ht <;> cases ht
        · intro _ _ hty
          rcases hvote with hty' | hty' <;> cases hty.symm.trans hty'
  | follows later lead heard body =>
      have hf : Sim cfg N B r (r.becomeFollower msg.term lead) := becomeFollower_sim hg later.le
      refine hf.trans (stepBody_sim hf.good (ha.input hf.id fun _ _ => ?_) ?_ ?_ body)
      · simp [Raft.becomeFollower]
      · intro _ hs
        cases hs
      · intro _ hs
        cases hs
  | leased later type same =>
      rw [same]
      exact .refl hg
  | stale sent earlier lower => exact lowerTerm_sim hg ha (by omega) lower

/-- A message that the node makes for itself asks for nothing more. -/
theorem step_local_sim (hg : Good cfg r) (hp : msg.type.isPeer = false) (hs : msg.type ≠ .msgSnap) {st : Status}
    (h : r.step msg = .ok (r', st)) : Sim cfg N B r r' := by
  refine step_sim hg (.of_local hp hs) ?_ ?_ h
  · intro _ hty
    rw [hty] at hp
    cases hp
  · intro _ _ _ hty
    rw [hty] at hp
    cases hp

theorem tickElection_sim (hg : Good cfg r) (h : r.tickElection = .ok r') : Sim cfg N B r r' := by
  unfold Raft.tickElection at h
  have hsame : ∀ e, SameCore r { r with electionElapsed := e } := fun e => by constructor <;> rfl
  simp only at h
  split at h
  · obtain ⟨⟨r₁, st⟩, h₁, h⟩ := bind_ok h
    obtain rfl := Except.ok.inj h
    exact ((hsame 0).sim hg).trans (step_local_sim ((hsame 0).good hg) rfl (by simp) h₁)
  · obtain rfl := Except.ok.inj h
    exact (hsame _).sim hg

theorem map_fst_ok {α β : Type} {x : Result (α × β)} {a : α} (h : Prod.fst <$> x = .ok a) : ∃ b, x = .ok (a, b) := by
  cases x with
  | error e => cases h
  | ok p =>
      obtain rfl := Except.ok.inj h
      exact ⟨p.2, rfl⟩

theorem tickCheckQuorum_sim (hg : Good cfg r) (h : r.tickCheckQuorum = .ok r') : Sim cfg N B r r' := by
  unfold Raft.tickCheckQuorum at h
  have hsame : SameCore r { r with electionElapsed := 0 } := by constructor <;> rfl
  obtain ⟨r₁, h₁, h⟩ := bind_ok h
  have hr₁ : Sim cfg N B r r₁ := by
    split at h₁
    · obtain ⟨st, h₁⟩ := map_fst_ok h₁
      exact (hsame.sim hg).trans (step_local_sim (hsame.good hg) rfl (by simp) h₁)
    · obtain rfl := Except.ok.inj h₁
      exact hsame.sim hg
  obtain rfl := Except.ok.inj h
  split
  · exact hr₁.trans (SameCore.sim (by constructor <;> rfl) hr₁.good)
  · exact hr₁

theorem tickHeartbeat_sim (hg : Good cfg r) (h : r.tickHeartbeat = .ok r') : Sim cfg N B r r' := by
  unfold Raft.tickHeartbeat at h
  have hsame : SameCore r { r with
      heartbeatElapsed := (r.heartbeatElapsed + 1) % 2 ^ 32
      electionElapsed := (r.electionElapsed + 1) % 2 ^ 32 } := by constructor <;> rfl
  obtain ⟨r₁, h₁, h⟩ := bind_ok h
  have hr₁ : Sim cfg N B r r₁ := by
    split at h₁
    · exact (hsame.sim hg).trans (tickCheckQuorum_sim (hsame.good hg) h₁)
    · obtain rfl := Except.ok.inj h₁
      exact hsame.sim hg
  split at h
  · obtain rfl := Except.ok.inj h
    exact hr₁
  split at h
  · have hbeat : SameCore r₁ { r₁ with heartbeatElapsed := 0 } := by constructor <;> rfl
    obtain ⟨⟨r₂, st⟩, h₂, h⟩ := bind_ok h
    obtain rfl := Except.ok.inj h
    exact hr₁.trans ((hbeat.sim hr₁.good).trans (step_local_sim (hbeat.good hr₁.good) rfl (by simp) h₂))
  · obtain rfl := Except.ok.inj h
    exact hr₁

theorem tick_sim (hg : Good cfg r) (h : r.tick = .ok r') : Sim cfg N B r r' := by
  unfold Raft.tick at h
  split at h
  · exact tickHeartbeat_sim hg h
  · exact tickElection_sim hg h

end RaftEtcd
