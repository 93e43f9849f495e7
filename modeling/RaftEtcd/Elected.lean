import RaftEtcd.Leading

/-! Elections: the state in which `become_leader` is called, and what holds of the configuration and
of the votes there. -/
namespace RaftEtcd
variable {r r' c : Raft} {msg : Message} {n n₀ n' : RawNode} {a : NodeAction}

section Calls

/-- The state in which `campaign` calls `become_leader`, if it does. -/
def Raft.campaignCall (r : Raft) (campaignType : CampaignType) : Option Raft :=
  if r.quorum = 1 then some (if campaignType = .preElection then r.asking.standing else r.standing) else none

def Raft.hupCall (r : Raft) : Option Raft :=
  if r.state = .leader then none
  else
    match r.raftLog.slice (r.raftLog.applied + 1) (r.raftLog.committed + 1) unlimited [] with
    | .error _ => none
    | .ok (status, entries) =>
        if !status.isOk then none
        else if numOfPendingConf entries > 0 ∧ r.raftLog.committed > r.raftLog.applied then none
        else r.campaignCall (if r.preVote then .preElection else .election)

def Raft.tallyCall (r : Raft) (msg : Message) : Option Raft :=
  let (c, granted) := r.poll msg.from_ (!msg.reject)
  if c.quorum = granted then if c.state = .preCandidate then c.campaignCall .election else some c
  else none

def Raft.bodyCall (r : Raft) (msg : Message) : Option Raft :=
  match msg.type with
  | .msgHup => r.hupCall
  | .msgTimeoutNow => if r.state = .follower ∧ r.promotable then r.campaignCall .transfer else none
  | .msgVoteResp | .msgPreVoteResp =>
      if r.state = .candidate ∨ r.state = .preCandidate then r.tallyCall msg else none
  | _ => none

/-- The state in which a step calls `become_leader`, if it does. -/
def Raft.stepCall (r : Raft) (msg : Message) : Option Raft :=
  if msg.term = 0 then r.bodyCall msg
  else if msg.term > r.term then
    if (msg.type = .msgVote ∨ msg.type = .msgPreVote) ∧ msg.context ≠ kCampaignTransfer ∧ r.inLease then none
    else (r.higherTerm msg).bodyCall msg
  else if msg.term < r.term then none
  else r.bodyCall msg

def Raft.tickCall (r : Raft) : Option Raft :=
  if r.state = .leader then none
  else
    let r := { r with electionElapsed := (r.electionElapsed + 1) % 2 ^ 32 }
    if r.promotable && r.pastElectionTimeout then
      { r with electionElapsed := 0 }.stepCall { from_ := r.id, type := .msgHup }
    else none

/-- The state in which an operation calls `become_leader`, if it does. -/
def RawNode.leaderCall (n : RawNode) (a : NodeAction) : Option Raft :=
  match a with
  | .tick => n.raft.tickCall
  | _ => (a.message n).bind n.raft.stepCall

theorem leaderCall_of_message (h : a ≠ .tick) : n.leaderCall a = (a.message n).bind n.raft.stepCall := by
  cases a with
  | tick => exact absurd rfl h
  | _ => rfl

/-- The computation starts by making `c` a leader, whatever comes of that. -/
def Enters {α : Type} (c : Raft) (x : Result α) : Prop := ∃ k : Raft → Result α, x = c.becomeLeader >>= k

theorem Enters.bind {α β : Type} {x : Result α} (h : Enters c x) (f : α → Result β) : Enters c (x >>= f) := by
  obtain ⟨k, rfl⟩ := h
  exact ⟨fun l => k l >>= f, bind_assoc _ _ _⟩

theorem campaign_enters (hr : r.state ≠ .leader) {ty : CampaignType} (h : r.campaignCall ty = some c) :
    Enters c (r.campaign ty) := by
  have hpure : Enters c c.becomeLeader := ⟨.ok, by cases c.becomeLeader <;> rfl⟩
  unfold Raft.campaignCall at h
  split at h
  · rename_i hq
    obtain rfl := Option.some.inj h
    rw [campaign_eq hr]
    split
    · rename_i hty
      rw [if_pos hty] at hpure
      have hask : r.asking.quorum = 1 := hq
      rwa [campaignElection_eq (by simp [Raft.asking]), if_pos hask]
    · rename_i hty
      rw [if_neg hty] at hpure
      rwa [campaignElection_eq hr, if_pos hq]
  · cases h

theorem tallyCall_enters (hc : r.state = .candidate ∨ r.state = .preCandidate)
    (hty : msg.type = .msgVoteResp ∨ msg.type = .msgPreVoteResp) (h : r.tallyCall msg = some c) :
    Enters c (r.stepCandidate msg) := by
  obtain ⟨votes, hpoll⟩ := poll_frame r msg.from_ (!msg.reject)
  have hstate : (r.poll msg.from_ (!msg.reject)).1.state = r.state := by rw [hpoll]
  have hstep : r.stepCandidate msg = (let (c, gr) := r.poll msg.from_ (!msg.reject)
      if c.quorum = gr then
        if c.state = RaftState.preCandidate then Raft.withOk (c.campaign .election)
        else if c.state = RaftState.candidate then Raft.withOk (do
          let l ← c.becomeLeader
          l.bcastAppend)
        else .error "assert(state_ == RaftState::Candidate)"
      else if c.quorum = c.votes.keys.length - gr then .ok (c.becomeFollower c.term 0, .ok)
      else .ok (c, .ok)) := by
    unfold Raft.stepCandidate
    rcases hty with hty | hty <;> rw [hty]
  rw [hstep]
  unfold Raft.tallyCall at h
  simp only at h ⊢
  split at h
  · rename_i hq
    rw [if_pos hq]
    split at h
    · rename_i hpre
      rw [if_pos hpre]
      exact (campaign_enters (by simp [hpre]) h).bind _
    · rename_i hpre
      obtain rfl := Option.some.inj h
      have hcand : (r.poll msg.from_ (!msg.reject)).1.state = .candidate :=
        hstate.trans (hc.resolve_right fun hr => hpre (hstate.trans hr))
      rw [if_neg hpre, if_pos hcand]
      exact Enters.bind ⟨_, rfl⟩ _
  · cases h

theorem bodyCall_enters (h : r.bodyCall msg = some c) : Enters c (r.stepBody msg) := by
  have htally : msg.type = .msgVoteResp ∨ msg.type = .msgPreVoteResp →
      (if r.state = .candidate ∨ r.state = .preCandidate then r.tallyCall msg else none) = some c →
      Enters c (r.stepBody msg) := by
    intro hty h
    split at h
    · rename_i hc
      have hbody : r.stepBody msg = r.stepCandidate msg := by
        unfold Raft.stepBody
        rcases hty with hty | hty <;> rcases hc with hc | hc <;> rw [hty, hc]
      rw [hbody]
      exact tallyCall_enters hc hty h
    · cases h
  unfold Raft.bodyCall at h
  split at h
  · rename_i hty
    unfold Raft.hupCall at h
    split at h
    · cases h
    rename_i hr
    split at h
    · cases h
    rename_i status entries hslice
    split at h
    · cases h
    rename_i hstatus
    split at h
    · cases h
    rename_i hpending
    have hbody : r.stepBody msg = Raft.withOk (r.campaign (if r.preVote then .preElection else .election)) := by
      unfold Raft.stepBody Raft.stepHup
      simp only [hty, hr, ne_eq, not_false_eq_true, if_true, hslice, bind, Except.bind, hstatus, hpending, if_false,
        Bool.false_eq_true]
    rw [hbody]
    exact (campaign_enters hr h).bind _
  · rename_i hty
    split at h
    · rename_i hf
      have hbody : r.stepBody msg = Raft.withOk (r.campaign .transfer) := by
        unfold Raft.stepBody
        rw [hty, hf.1]
        simp only [Raft.stepFollower, hty, hf.2, if_true]
      rw [hbody]
      exact (campaign_enters (by simp [hf.1]) h).bind _
    · cases h
  · rename_i hty
    exact htally (Or.inl hty) h
  · rename_i hty
    exact htally (Or.inr hty) h
  · cases h

theorem stepCall_enters (h : r.stepCall msg = some c) : Enters c (r.step msg) := by
  unfold Raft.stepCall at h
  unfold Raft.step
  split at h
  · rename_i h0
    rw [if_pos h0]
    exact bodyCall_enters h
  rename_i h0
  rw [if_neg h0]
  split at h
  · rename_i hgt
    rw [if_pos hgt]
    split at h
    · cases h
    · rename_i hlease
      rw [if_neg hlease]
      exact bodyCall_enters h
  rename_i hgt
  rw [if_neg hgt]
  split at h
  · cases h
  · rename_i hlt
    rw [if_neg hlt]
    exact bodyCall_enters h

theorem tickCall_enters (h : r.tickCall = some c) : Enters c r.tick := by
  unfold Raft.tickCall at h
  split at h
  · cases h
  rename_i hr
  simp only at h
  split at h
  · rename_i hcond
    have htick : r.tick = r.tickElection := by
      unfold Raft.tick
      split
      · rename_i hl
        exact absurd hl hr
      · rfl
    rw [htick]
    unfold Raft.tickElection
    simp only
    rw [if_pos hcond]
    exact (stepCall_enters h).bind _
  · cases h

/-- Where `leaderCall` has a state, `become_leader` is called there. -/
theorem leaderCall_enters (h : n.leaderCall a = some c) : Enters c (n.run a) := by
  have hmap : ∀ {x : Result (RawNode × Status)}, Enters c x → Enters c (Prod.fst <$> x) := by
    rintro x ⟨k, rfl⟩
    refine ⟨fun l => Prod.fst <$> k l, ?_⟩
    cases c.becomeLeader <;> rfl
  have hmessage : ∀ {msg : Message}, n.raft.stepCall msg = some c → Enters c (Prod.fst <$> n.stepRaft msg) :=
    fun hcall => hmap ((stepCall_enters hcall).bind _)
  cases a with
  | tick => exact (tickCall_enters h).bind _
  | step msg =>
      obtain ⟨msg', hmsg, hcall⟩ := Option.bind_eq_some_iff.mp h
      change Enters c (Prod.fst <$> n.step msg)
      simp only [NodeAction.message] at hmsg
      unfold RawNode.step
      split at hmsg
      · cases hmsg
      rename_i hlocal
      rw [if_neg hlocal]
      split at hmsg
      · rename_i hpeer
        obtain rfl := Option.some.inj hmsg
        rw [if_pos hpeer]
        exact hmessage hcall
      · cases hmsg
  | campaign => exact hmessage h
  | propose data => exact hmessage h
  | proposeConfChange data => exact hmessage h
  | transferLeadership lead transferee => exact hmessage h
  | readIndex rctx => exact hmessage h
  | reportUnreachable id => exact hmessage h
  | reportSnapshot id failure => exact hmessage h
  | applyConfChange cc => cases h
  | ready => cases h
  | advance rd => cases h
  | store storage => cases h

/-- A campaign that does not call `become_leader` does not end with a leader. -/
theorem campaign_called (hr : r.state ≠ .leader) {ty : CampaignType} (h : r.campaign ty = .ok r')
    (hl : r'.state = .leader) : (r.campaignCall ty).isSome := by
  unfold Raft.campaignCall
  split
  · rfl
  rename_i hq
  have hrequests : ∀ {g : Raft} {voteMsg : MessageType} {t : Nat}, g.state ≠ .leader →
      g.sendVoteRequests voteMsg t = .ok r' → False := by
    intro g voteMsg t hg hsend
    obtain ⟨ms, rfl, -⟩ := sendVoteRequests_spec hsend
    exact hg hl
  rw [campaign_eq hr] at h
  split at h
  · exact (hrequests (by simp [Raft.asking]) h).elim
  · rw [campaignElection_eq hr, if_neg hq] at h
    exact (hrequests (by simp) h).elim

theorem stepBody_called (hr : r.state ≠ .leader) {st : Status} (h : r.stepBody msg = .ok (r', st))
    (hl : r'.state = .leader) : (r.bodyCall msg).isSome := by
  rcases stepBody_turns h with hturn | ⟨hlead, -⟩
  swap
  · exact absurd hlead hr
  -- the tally of a candidate, in either phase
  have htally : (msg.type = .msgVoteResp ∨ msg.type = .msgPreVoteResp) →
      (r.state = .candidate ∨ r.state = .preCandidate) → (r.bodyCall msg).isSome := by
    intro hty hc
    have hcall : r.bodyCall msg = r.tallyCall msg := by
      unfold Raft.bodyCall
      rcases hty with hty | hty <;> rw [hty] <;> exact if_pos hc
    have hstep : r.stepCandidate msg = .ok (r', st) := by
      unfold Raft.stepBody at h
      rcases hty with hty | hty <;> rcases hc with hc | hc <;> rwa [hty, hc] at h
    obtain ⟨votes, hpoll⟩ := poll_frame r msg.from_ (!msg.reject)
    have hstate : (r.poll msg.from_ (!msg.reject)).1.state = r.state := by rw [hpoll]
    rw [hcall]
    unfold Raft.tallyCall
    unfold Raft.stepCandidate at hstep
    have hnot : ∀ {st' : Status}, (Except.ok ((r.poll msg.from_ (!msg.reject)).1, st') : Result _) = .ok (r', st) →
        False := by
      intro st' heq
      rw [← (Prod.mk.inj (Except.ok.inj heq)).1, hstate] at hl
      exact hr hl
    rcases hty with hty | hty
    all_goals
      simp only [hty] at hstep ⊢
      split at hstep
      · rename_i hq
        rw [if_pos hq]
        split at hstep
        · rename_i hpre
          rw [if_pos hpre]
          exact campaign_called (by simp [hpre]) (withOk_ok hstep) hl
        · rename_i hpre
          rw [if_neg hpre]
          rfl
      split at hstep
      · rw [← (Prod.mk.inj (Except.ok.inj hstep)).1] at hl
        cases hl
      · exact (hnot hstep).elim
  cases hturn with
  | follows quiet state peers members =>
      rw [state] at hl
      cases hl
  | stays quiet state votes peers members => exact absurd (state.symm.trans hl) hr
  | tallies role type tally => exact htally type role
  | wins role type l lead posts => exact htally type (Or.inl role)
  | campaigns guard campaigned =>
      rcases guard with ⟨hty, -⟩ | ⟨hty, hp⟩ | ⟨hty, hpre⟩
      · have hhup : r.stepHup = .ok r' := by
          unfold Raft.stepBody at h
          rw [hty] at h
          exact withOk_ok h
        have hcall : r.bodyCall msg = r.hupCall := by
          unfold Raft.bodyCall
          rw [hty]
        rw [hcall]
        unfold Raft.stepHup at hhup
        unfold Raft.hupCall
        rw [if_pos hr] at hhup
        rw [if_neg hr]
        obtain ⟨⟨status, entries⟩, hslice, hhup⟩ := bind_ok hhup
        rw [hslice]
        simp only at hhup ⊢
        split at hhup
        · cases hhup
        rename_i hstatus
        rw [if_neg hstatus]
        split at hhup
        · rw [← Except.ok.inj hhup] at hl
          exact absurd hl hr
        · rename_i hpending
          rw [if_neg hpending]
          exact campaign_called hr hhup hl
      · have hstay : r.stepCandidate msg = .ok (r, .ok) := by
          unfold Raft.stepCandidate
          rw [hty]
        unfold Raft.stepBody at h
        rw [hty] at h
        cases hs : r.state with
        | follower =>
            have hcall : r.bodyCall msg = r.campaignCall .transfer := by
              unfold Raft.bodyCall
              rw [hty]
              exact if_pos ⟨hs, hp⟩
            simp only [hs, Raft.stepFollower, hty, hp, if_true] at h
            rw [hcall]
            exact campaign_called hr (withOk_ok h) hl
        | leader => exact absurd hs hr
        | candidate =>
            rw [hs] at h
            rw [← (Prod.mk.inj (Except.ok.inj (hstay.symm.trans h))).1] at hl
            exact absurd hl hr
        | preCandidate =>
            rw [hs] at h
            rw [← (Prod.mk.inj (Except.ok.inj (hstay.symm.trans h))).1] at hl
            exact absurd hl hr
      · exact htally hty (Or.inr hpre)

theorem step_called (hr : r.state ≠ .leader) {st : Status} (h : r.step msg = .ok (r', st)) (hl : r'.state = .leader) :
    (r.stepCall msg).isSome := by
  have hsame : ∀ {st' : Status}, (Except.ok (r, st') : Result _) = .ok (r', st) → False := by
    intro st' heq
    rw [← (Prod.mk.inj (Except.ok.inj heq)).1] at hl
    exact hr hl
  unfold Raft.step at h
  unfold Raft.stepCall
  split at h
  · rename_i h0
    rw [if_pos h0]
    exact stepBody_called hr h hl
  rename_i h0
  rw [if_neg h0]
  split at h
  · rename_i hgt
    rw [if_pos hgt]
    split at h
    · exact (hsame h).elim
    · rename_i hlease
      rw [if_neg hlease]
      refine stepBody_called ?_ h hl
      rcases higherTerm_cases r msg with ⟨heq, -⟩ | ⟨lead, heq⟩
      · rwa [heq]
      · rw [heq]
        simp [Raft.becomeFollower]
  rename_i hgt
  rw [if_neg hgt]
  split at h
  · rcases lowerTerm_cases (withOk_ok h) with rfl | ⟨m, -, hsent⟩
    · exact absurd hl hr
    · exact absurd ((send_sends hsent).state.symm.trans hl) hr
  · rename_i hlt
    rw [if_neg hlt]
    exact stepBody_called hr h hl

theorem tick_called (hr : r.state ≠ .leader) (h : r.tick = .ok r') (hl : r'.state = .leader) : r.tickCall.isSome := by
  have htick : r.tick = r.tickElection := by
    unfold Raft.tick
    split
    · rename_i hlead
      exact absurd hlead hr
    · rfl
  rw [htick] at h
  unfold Raft.tickElection at h
  unfold Raft.tickCall
  rw [if_neg hr]
  simp only at h ⊢
  split at h
  · rename_i hcond
    rw [if_pos hcond]
    obtain ⟨⟨r₁, st⟩, h₁, h⟩ := bind_ok h
    obtain rfl := Except.ok.inj h
    exact step_called hr h₁ hl
  · rw [← Except.ok.inj h] at hl
    exact absurd hl hr

/-- A node that did not lead and leads after an operation was made a leader in the state that
`leaderCall` has. -/
theorem run_called (hr : n.raft.state ≠ .leader) (h : n.run a = .ok n') (hl : n'.raft.state = .leader) :
    (n.leaderCall a).isSome := by
  cases run_operates h with
  | refuses message same => exact absurd (same ▸ hl) hr
  | steps msg message r' st step node =>
      rw [node] at hl
      have htick : a ≠ .tick := by
        rintro rfl
        cases message
      rw [leaderCall_of_message htick, message]
      exact step_called hr step hl
  | ticks action r' tick node =>
      rw [node] at hl
      rw [action]
      exact tick_called hr tick hl
  | configures cc action cs apply => exact absurd ((applyConfChange_reads apply).2.2.1.symm.trans hl) hr
  | readies action rd ready => exact absurd ((ready_keeps ready).state.symm.trans hl) hr
  | advances rd action node =>
      rw [node] at hl
      exact absurd hl hr
  | stores storage action node =>
      rw [node] at hl
      exact absurd hl hr

end Calls

section Votes

/-- The node is a member of the configuration, and a quorum of the voters has granted it the vote. -/
structure Raft.WonElection (c : Raft) : Prop where
  member : c.id ∈ c.prs.keys
  majority : c.quorum ≤ (c.prs.keys.toFinset.filter fun id => c.votes.lookup id = some true).card

def Raft.Standing (r : Raft) : Prop := r.state = .candidate ∨ r.state = .preCandidate

/-- A candidate has voted for itself, and only voters have granted it their votes. -/
def Raft.VotersOnly (r : Raft) : Prop :=
  r.Standing → r.votes.lookup r.id = some true ∧ ∀ id, r.votes.lookup id = some true → id ∈ r.prs.keys

theorem Raft.VotersOnly.of_not_standing (h : ¬ r.Standing) : r.VotersOnly := fun hs => absurd hs h

theorem lookup_ownVote (r : Raft) (id : Nat) : r.ownVote.lookup id = if id = r.id then some true else none := by
  unfold Raft.ownVote
  by_cases hid : id = r.id
  · rw [if_pos hid, hid, AList.lookup_insert]
  · rw [if_neg hid, AList.lookup_insert_ne hid]
    rfl

theorem Raft.VotersOnly.of_ownVote (hid : r'.id = r.id) (hkeys : r'.prs.keys = r.prs.keys) (hvotes : r'.votes = r.ownVote)
    (hmember : r.id ∈ r.prs.keys) : r'.VotersOnly := by
  intro _
  refine ⟨by rw [hvotes, hid, lookup_ownVote, if_pos rfl], fun id h => ?_⟩
  rw [hvotes, lookup_ownVote] at h
  split at h
  · rename_i heq
    rwa [hkeys, heq]
  · cases h

/-- A vote that is recorded first stays. -/
theorem lookup_poll (r : Raft) (id : Nat) (v : Bool) (id' : Nat) :
    (r.poll id v).1.votes.lookup id' =
      if id' = id ∧ (r.votes.lookup id).isNone then some v else r.votes.lookup id' := by
  rw [Raft.poll_fst]
  split
  · rename_i hsome
    rw [if_neg]
    rintro ⟨-, hnone⟩
    rw [Option.isNone_iff_eq_none.mp hnone] at hsome
    cases hsome
  · rename_i hnone
    have hnone : (r.votes.lookup id).isNone := by simpa using hnone
    by_cases hid : id' = id
    · rw [if_pos ⟨hid, hnone⟩, hid]
      exact AList.lookup_insert _
    · rw [if_neg fun h => hid h.1]
      exact AList.lookup_insert_ne hid

theorem Raft.VotersOnly.poll (h : r.VotersOnly) {id : Nat} {v : Bool} (hv : r.Standing → v = true → id ∈ r.prs.keys) :
    (r.poll id v).1.VotersOnly := by
  obtain ⟨votes, hpoll⟩ := poll_frame r id v
  intro hs
  have hs : r.Standing := by rwa [hpoll] at hs
  have hid : (r.poll id v).1.id = r.id := by rw [hpoll]
  have hkeys : (r.poll id v).1.prs = r.prs := by rw [hpoll]
  obtain ⟨hown, hall⟩ := h hs
  rw [hid, hkeys]
  refine ⟨?_, fun id' hid' => ?_⟩
  · rw [lookup_poll]
    split
    · rename_i hnew
      rw [← hnew.1, hown] at hnew
      cases hnew.2
    · exact hown
  · rw [lookup_poll] at hid'
    split at hid'
    · rename_i hnew
      rw [hnew.1]
      exact hv hs (Option.some.inj hid')
    · exact hall id' hid'

/-- The voters that have granted their votes are as many as the tally says. -/
theorem Raft.VotersOnly.majority (h : ∀ id, r.votes.lookup id = some true → id ∈ r.prs.keys) :
    (AssocMap.values r.votes).count true ≤
      (r.prs.keys.toFinset.filter fun id => r.votes.lookup id = some true).card := by
  obtain ⟨Q, hQ, hcard⟩ := AssocMap.exists_finset_countP r.votes fun b => b
  have hcount : (AssocMap.values r.votes).count true = Q.card := by
    rw [hcard, List.count]
    congr 1
    funext b
    cases b <;> rfl
  rw [hcount]
  refine Finset.card_le_card fun id hid => ?_
  obtain ⟨b, hb, htrue⟩ := hQ id hid
  rw [htrue] at hb
  exact Finset.mem_filter.mpr ⟨List.mem_toFinset.mpr (h id hb), hb⟩

theorem campaignCall_won {ty : CampaignType} (hmember : r.id ∈ r.prs.keys) (h : r.campaignCall ty = some c) :
    c.WonElection := by
  -- its own vote is the majority of a single voter
  have hone : ∀ g : Raft, g.id = r.id → g.prs.keys = r.prs.keys → g.votes = r.ownVote → r.quorum = 1 →
      g.WonElection := by
    intro g hid hkeys hvotes hq
    refine ⟨by rwa [hid, hkeys], ?_⟩
    rw [Raft.quorum_congr hkeys, hq, Nat.one_le_iff_ne_zero, ← Nat.pos_iff_ne_zero, Finset.card_pos]
    refine ⟨r.id, Finset.mem_filter.mpr ⟨List.mem_toFinset.mpr (by rwa [hkeys]), ?_⟩⟩
    rw [hvotes, lookup_ownVote, if_pos rfl]
  unfold Raft.campaignCall at h
  split at h
  · rename_i hq
    obtain rfl := Option.some.inj h
    split
    · exact hone _ (by simp [Raft.asking]) (by simp [Raft.asking]) rfl hq
    · exact hone _ (by simp) (by simp) rfl hq
  · cases h

/-- Only a voter is made to stand for election, and a candidate is granted votes by voters only. -/
structure Raft.Admits (r : Raft) (msg : Message) : Prop where
  hup : msg.type = .msgHup → r.state = .leader ∧ msg.term = 0 ∨ r.id ∈ r.prs.keys
  vote : msg.type = .msgVoteResp ∨ msg.type = .msgPreVoteResp → r.Standing → msg.reject = false →
    msg.from_ ∈ r.prs.keys

theorem Raft.Admits.of_hup (hty : msg.type = .msgHup) (hmember : r.id ∈ r.prs.keys) : r.Admits msg where
  hup _ := Or.inr hmember
  vote hvote := by
    rw [hty] at hvote
    rcases hvote with hvote | hvote <;> cases hvote

theorem bodyCall_won (hv : r.VotersOnly) (hhup : msg.type = .msgHup → r.state = .leader ∨ r.id ∈ r.prs.keys)
    (hvote : msg.type = .msgVoteResp ∨ msg.type = .msgPreVoteResp → r.Standing → msg.reject = false →
      msg.from_ ∈ r.prs.keys) (h : r.bodyCall msg = some c) : c.WonElection := by
  have htally : msg.type = .msgVoteResp ∨ msg.type = .msgPreVoteResp →
      (if r.state = .candidate ∨ r.state = .preCandidate then r.tallyCall msg else none) = some c →
      c.WonElection := by
    intro hty h
    split at h
    · rename_i hs
      obtain ⟨votes, hpoll⟩ := poll_frame r msg.from_ (!msg.reject)
      have hs' : (r.poll msg.from_ (!msg.reject)).1.Standing := by
        rw [hpoll]
        exact hs
      obtain ⟨hown, hall⟩ := hv.poll (fun hs htrue => hvote hty hs (by simpa using htrue)) hs'
      unfold Raft.tallyCall at h
      simp only at h
      split at h
      · rename_i hq
        split at h
        · exact campaignCall_won (hall _ hown) h
        · obtain rfl := Option.some.inj h
          refine ⟨hall _ hown, ?_⟩
          rw [hq]
          exact Raft.VotersOnly.majority hall
      · cases h
    · cases h
  unfold Raft.bodyCall at h
  split at h
  · rename_i hty
    unfold Raft.hupCall at h
    split at h
    · cases h
    rename_i hr
    split at h
    · cases h
    split at h
    · cases h
    split at h
    · cases h
    · exact campaignCall_won ((hhup hty).resolve_left hr) h
  · split at h
    · rename_i hf
      exact campaignCall_won ((AssocMap.lookup_isSome_iff _ _).mp hf.2) h
    · cases h
  · rename_i hty
    exact htally (Or.inl hty) h
  · rename_i hty
    exact htally (Or.inr hty) h
  · cases h

theorem stepCall_won (hv : r.VotersOnly) (ha : r.Admits msg) (h : r.stepCall msg = some c) : c.WonElection := by
  have hsame : r.bodyCall msg = some c → c.WonElection :=
    bodyCall_won hv (fun hty => (ha.hup hty).imp And.left id) ha.vote
  unfold Raft.stepCall at h
  split at h
  · exact hsame h
  rename_i h0
  split at h
  · split at h
    · cases h
    rcases higherTerm_cases r msg with ⟨heq, -⟩ | ⟨lead, heq⟩
    · rw [heq] at h
      exact hsame h
    · rw [heq] at h
      have hfollows : ¬ (r.becomeFollower msg.term lead).Standing := by
        rintro (hs | hs) <;> cases hs
      refine bodyCall_won (.of_not_standing hfollows) (fun hty => Or.inr ?_) (fun _ hs => absurd hs hfollows) h
      rcases ha.hup hty with ⟨-, hterm⟩ | hmember
      · exact absurd hterm h0
      · simpa [Raft.becomeFollower] using hmember
  split at h
  · cases h
  · exact hsame h

theorem step_votersOnly (hv : r.VotersOnly) (ha : r.Admits msg) {st : Status} (h : r.step msg = .ok (r', st)) :
    r'.VotersOnly := by
  rcases step_turns h with hturn | ⟨hl, hlead⟩
  · cases hturn with
    | follows quiet state peers members =>
        refine .of_not_standing ?_
        rintro (hs | hs) <;> cases state.symm.trans hs
    | stays quiet state votes peers members =>
        intro hs
        unfold Raft.Standing at hs
        rw [state] at hs
        rw [votes, peers.prs, quiet.id]
        exact hv hs
    | tallies role type tally =>
        rw [tally]
        exact hv.poll fun hs htrue => ha.vote type hs (by simpa using htrue)
    | campaigns guard campaigned =>
        rcases campaigned.role with hlead | ⟨-, hvotes⟩
        · refine .of_not_standing ?_
          rintro (hs | hs) <;> cases hlead.symm.trans hs
        refine .of_ownVote campaigned.quiet.id campaigned.members.voters.keys hvotes ?_
        rcases guard with ⟨hty, hlead⟩ | ⟨-, hp⟩ | ⟨-, hpre⟩
        · rcases ha.hup hty with ⟨hl, hterm⟩ | hmember
          · exact absurd hterm (hlead hl)
          · exact hmember
        · exact (AssocMap.lookup_isSome_iff _ _).mp hp
        · obtain ⟨hown, hall⟩ := hv (Or.inr hpre)
          exact hall _ hown
    | wins role type l lead posts =>
        refine .of_not_standing ?_
        have hstate : r'.state = .leader := posts.state.trans (becomeLeader_new lead).state
        rintro (hs | hs) <;> cases hstate.symm.trans hs
  · refine .of_not_standing ?_
    rcases (stepLeader_leads hlead).goes_on with ⟨rfl, -⟩ | ⟨-, hstate, -⟩
    · rintro (hs | hs) <;> cases hs
    · rw [hl] at hstate
      rintro (hs | hs) <;> cases hstate.symm.trans hs

end Votes

section Runs

/-- What an application must keep to: only a voter is made to campaign; while a node stands for
election, its votes come from voters, and none of these is removed. -/
def NodeAction.Electable (n : RawNode) : NodeAction → Prop
  | .campaign => n.raft.state = .leader ∨ n.raft.id ∈ n.raft.prs.keys
  | .step msg => msg.type = .msgVoteResp ∨ msg.type = .msgPreVoteResp → n.raft.Standing → msg.reject = false →
      msg.from_ ∈ n.raft.prs.keys
  | .applyConfChange cc => cc.confChangeType = confChangeRemoveNode → n.raft.Standing →
      n.raft.votes.lookup cc.nodeId ≠ some true
  | _ => True

theorem message_admits (ha : a.Electable n) (h : a.message n = some msg) : n.raft.Admits msg := by
  rcases message_cases h with ⟨rfl, hlocal⟩ | ⟨-, hown, hhup⟩
  · refine ⟨fun hty => ?_, ha⟩
    rw [Message.isLocalMsg, hty] at hlocal
    cases hlocal
  · refine ⟨fun hty => ?_, fun hty => ?_⟩
    · obtain rfl := hhup hty
      obtain rfl := Option.some.inj h
      exact ha.imp (⟨·, rfl⟩) id
    · rcases hty with hty | hty
      · rw [hty] at hown
        cases hown
      · rw [hty] at hown
        cases hown

theorem applyConfChange_votes {cc : ConfChange} {cs : ConfState} (h : n.applyConfChange cc = .ok (n', cs)) :
    n'.raft.votes = n.raft.votes := by
  obtain ⟨_, _, _, _, _, _, _, _, heq⟩ := (applyConfChange_configures h).1.frame
  rw [heq]

theorem tickCall_won (hv : r.VotersOnly) (h : r.tickCall = some c) : c.WonElection := by
  unfold Raft.tickCall at h
  split at h
  · cases h
  simp only at h
  split at h
  · rename_i hcond
    have hmember : r.id ∈ r.prs.keys := (AssocMap.lookup_isSome_iff _ _).mp (Bool.and_eq_true_iff.mp hcond).1
    exact stepCall_won (r := { r with electionElapsed := 0 }) hv (.of_hup rfl hmember) h
  · cases h

theorem tick_votersOnly (hv : r.VotersOnly) (h : r.tick = .ok r') : r'.VotersOnly := by
  have htimed : ∀ {g g' : Raft}, Timed g g' → g.VotersOnly → g'.VotersOnly := by
    rintro g g' ⟨_, _, _, rfl⟩ hg
    exact hg
  have hown : ∀ {g : Raft} {m : Message}, m.type ≠ .msgHup → m.type ≠ .msgVoteResp → m.type ≠ .msgPreVoteResp →
      g.Admits m := fun h₁ h₂ h₃ => ⟨fun h => absurd h h₁, fun h => absurd h (not_or.mpr ⟨h₂, h₃⟩)⟩
  cases tick_ticks h with
  | waits timed => exact htimed timed hv
  | stands r₁ timed role promotable st step =>
      have hv₁ := htimed timed hv
      have hmember : r.id ∈ r.prs.keys := (AssocMap.lookup_isSome_iff _ _).mp promotable
      obtain ⟨_, _, _, rfl⟩ := timed
      exact step_votersOnly hv₁ (.of_hup rfl hmember) step
  | beats r₁ r₂ r₃ role timed check timed' beat =>
      have hv₁ := htimed timed hv
      have hv₂ : r₂.VotersOnly := by
        rcases check with rfl | ⟨st, hstep⟩
        · exact hv₁
        · exact step_votersOnly hv₁ (hown (by simp) (by simp) (by simp)) hstep
      have hv₃ := htimed timed' hv₂
      rcases beat with rfl | ⟨-, st, hstep⟩
      · exact hv₃
      · exact step_votersOnly hv₃ (hown (by simp) (by simp) (by simp)) hstep

theorem run_votersOnly (hv : n.raft.VotersOnly) (ha : a.Electable n) (h : n.run a = .ok n') : n'.raft.VotersOnly := by
  cases run_operates h with
  | refuses message same => exact same ▸ hv
  | steps msg message r' st step node =>
      rw [node]
      exact step_votersOnly hv (message_admits ha message) step
  | ticks action r' tick node =>
      rw [node]
      exact tick_votersOnly hv tick
  | configures cc action cs apply =>
      obtain ⟨hid, -, hstate, hkeys⟩ := applyConfChange_reads apply
      have hvotes := applyConfChange_votes apply
      subst action
      intro hs
      have hs : n.raft.Standing := by
        unfold Raft.Standing at hs ⊢
        rwa [hstate] at hs
      obtain ⟨hown, hall⟩ := hv hs
      rw [hid, hvotes]
      refine ⟨hown, fun id hid' => hkeys id (hall id hid') fun hrem heq => ?_⟩
      exact ha hrem hs (heq ▸ hid')
  | readies action rd ready =>
      rw [ready_frame ready]
      exact hv
  | advances rd action node => exact node ▸ hv
  | stores storage action node => exact node ▸ hv

/-- In every run in which only voters campaign, and the votes that a candidate counts are those of
voters that stay, a node becomes a leader only as a member of the configuration that a quorum of the
voters has elected. -/
theorem only_elected_voters_lead (h₀ : n₀.raft.state = .follower) (hrun : RawNode.Runs NodeAction.Electable n₀ n)
    (ha : a.Electable n) :
    (∀ c, n.leaderCall a = some c → c.WonElection) ∧
      ∀ n', n.run a = .ok n' → n.raft.state ≠ .leader → n'.raft.state = .leader →
        ∃ c, n.leaderCall a = some c ∧ Enters c (n.run a) ∧ c.WonElection := by
  have hv : n.raft.VotersOnly := by
    clear ha
    induction hrun with
    | refl =>
        refine .of_not_standing ?_
        rintro (hs | hs) <;> cases h₀.symm.trans hs
    | tail _ hstep ih =>
        obtain ⟨b, hb, hstep⟩ := hstep
        exact run_votersOnly ih hb hstep
  have hwon : ∀ c, n.leaderCall a = some c → c.WonElection := by
    intro c hcall
    by_cases htick : a = .tick
    · subst htick
      exact tickCall_won hv hcall
    · rw [leaderCall_of_message htick] at hcall
      obtain ⟨msg, hmsg, hcall⟩ := Option.bind_eq_some_iff.mp hcall
      exact stepCall_won hv (message_admits ha hmsg) hcall
  refine ⟨hwon, fun n' h hr hl => ?_⟩
  obtain ⟨c, hcall⟩ := Option.isSome_iff_exists.mp (run_called hr h hl)
  exact ⟨c, hcall, leaderCall_enters hcall, hwon c hcall⟩

/-- Some operations and one more, with a check of the nodes before, between and after. -/
def RawNode.trial (x : Result RawNode) (as : List NodeAction) (a : NodeAction)
    (p : RawNode → RawNode → RawNode → Bool) : Result Bool := do
  let n₀ ← x
  let n ← n₀.runAll as
  let n' ← n.run a
  .ok (p n₀ n n')

theorem RawNode.trial_spec {x : Result RawNode} {as : List NodeAction} {p : RawNode → RawNode → RawNode → Bool}
    (h : (RawNode.trial x as a p).toOption = some true) :
    ∃ n₀ n n', x = .ok n₀ ∧ n₀.runAll as = .ok n ∧ n.run a = .ok n' ∧ p n₀ n n' = true := by
  cases htrial : RawNode.trial x as a p with
  | error e =>
      rw [htrial] at h
      cases h
  | ok b =>
      rw [htrial] at h
      obtain rfl := Option.some.inj h
      obtain ⟨n₀, hx, htrial⟩ := bind_ok htrial
      obtain ⟨n, hn, htrial⟩ := bind_ok htrial
      obtain ⟨n', hn', htrial⟩ := bind_ok htrial
      exact ⟨n₀, n, n', hx, hn, hn', Except.ok.inj htrial⟩

/-- The vote of the second voter for the first. -/
def secondVote : NodeAction := .step { type := .msgVoteResp, to_ := 1, from_ := 2, term := 1 }

theorem only_elected_voters_lead_trio : ∃ n₀ n n' : RawNode, n₀.raft.state = .follower ∧
    RawNode.Runs NodeAction.Electable n₀ n ∧ n.run secondVote = .ok n' ∧ n'.raft.state = .leader ∧
      ∃ c, n.leaderCall secondVote = some c ∧ c.WonElection := by
  obtain ⟨n₀, n, n', -, hrun, hvote, hcheck⟩ := RawNode.trial_spec (x := firstVoter) (a := secondVote)
    (p := fun n₀ n n' => decide (n₀.raft.state = .follower ∧ n₀.raft.id ∈ n₀.raft.prs.keys ∧ 2 ∈ n.raft.prs.keys ∧
      n.raft.state = .candidate ∧ n'.raft.state = .leader))
    (show (RawNode.trial _ [.campaign] _ _).toOption = _ by decide +kernel)
  obtain ⟨h₀, hmember, htwo, hcand, hlead⟩ := of_decide_eq_true hcheck
  obtain ⟨n₁, hcampaign, hrun⟩ := bind_ok hrun
  obtain rfl := Except.ok.inj hrun
  have hruns : RawNode.Runs NodeAction.Electable n₀ n₁ := .single ⟨.campaign, Or.inr hmember, hcampaign⟩
  obtain ⟨c, hcall, -, hwon⟩ := (only_elected_voters_lead (a := secondVote) h₀ hruns fun _ _ _ => htwo).2 n' hvote
    (by rw [hcand]; decide) hlead
  exact ⟨n₀, n₁, n', h₀, hruns, hvote, hlead, c, hcall, hwon⟩

theorem becomeLeader_missing (hr : r.state ≠ .follower) (h : r.prs.lookup r.id = none) :
    r.becomeLeader = .error "assert(it != prs_.end())" := by
  have hreset : (r.reset r.term).prs.lookup (r.reset r.term).id = none := by
    rw [Raft.reset_id, Raft.reset_prs, AssocMap.lookup_mapVal, h]
    rfl
  unfold Raft.becomeLeader
  rw [if_neg hr]
  simp only [hreset]

/-- One voter and one learner. -/
def voterAndLearner : ClusterConfig where
  voters := [1]
  learners := [2]
  settings _ := serverSettings false
  nodup := by decide
  nonzero := by decide

/-- The learner is told to campaign, elects itself and does not find its own progress. -/
theorem learner_elects_itself : ∃ (n : RawNode) (c : Raft),
    RawNode.restartNode (voterAndLearner.config 2 {} 0 fun _ => 0) = .ok n ∧ n.leaderCall .campaign = some c ∧
      c.id ∉ c.prs.keys ∧ n.run .campaign = .error "assert(it != prs_.end())" := by
  obtain ⟨n, hn, hcheck⟩ : ∃ n, RawNode.restartNode (voterAndLearner.config 2 {} 0 fun _ => 0) = .ok n ∧
      ((n.leaderCall .campaign).any fun c => decide (c.id ∉ c.prs.keys ∧ c.state ≠ .follower)) = true :=
    exists_ok_of_any (by decide +kernel)
  obtain ⟨c, hcall, hc⟩ := (Option.any_eq_true _ _).mp hcheck
  obtain ⟨hmissing, hstate⟩ := of_decide_eq_true hc
  obtain ⟨k, hk⟩ := leaderCall_enters hcall
  refine ⟨n, c, hn, hcall, hmissing, ?_⟩
  rw [hk, becomeLeader_missing hstate]
  · rfl
  · exact AList.lookup_eq_none.mpr hmissing

end Runs

end RaftEtcd
