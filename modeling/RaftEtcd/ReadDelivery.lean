import RaftEtcd.Delivery
import RaftEtcd.Leading

/-! The way of a read state to the application. `ready` copies the list of read states and `advance`
empties it later, so what is pushed between the two is in the list but in no `Ready`. -/
namespace RaftEtcd
variable {r r' r'' : Raft} {msg : Message}

namespace Raft

/-- The read state for a request with the given entries. -/
def readStateFor (index : Nat) (entries : List Entry) : Option ReadState :=
  entries.head?.map fun e => { index := index, requestCtx := e.data }

/-- The requests of this node itself among those that are answered. -/
def ownAnswers (r : Raft) (rss : List ReadIndexStatus) : List ReadState :=
  rss.filterMap fun rs =>
    if rs.req.from_ = 0 ∨ rs.req.from_ = r.id then readStateFor rs.index rs.req.entries else none

/-- A leader answers a request at once when it is alone, or when it trusts its lease. -/
def AnswersAtOnce (r : Raft) (msg : Message) : Prop :=
  r.quorum ≤ 1 ∨ (r.raftLog.term r.raftLog.committed).toOption.getD 0 = r.term ∧ r.readOnly.option = .leaseBased ∧
    (msg.from_ = 0 ∨ msg.from_ = r.id)

instance (r : Raft) (msg : Message) : Decidable (r.AnswersAtOnce msg) := inferInstanceAs (Decidable (_ ∨ _))

/-- A heartbeat response completes a quorum. -/
def Confirms (r : Raft) (msg : Message) : Prop :=
  (r.getProgress msg.from_).isSome ∧ r.readOnly.option = .safe ∧ msg.context ≠ [] ∧
    r.quorum ≤ (r.readOnly.recvAck msg).2

instance (r : Raft) (msg : Message) : Decidable (r.Confirms msg) := inferInstanceAs (Decidable (_ ∧ _))

/-- The read states that a node pushes on a message of its term. -/
def pushesNow (r : Raft) (msg : Message) : List ReadState :=
  match r.state, msg.type with
  | .follower, .msgReadIndexResp =>
      if msg.entries.length = 1 then (readStateFor msg.index msg.entries).toList else []
  | .leader, .msgReadIndex =>
      if r.AnswersAtOnce msg then (readStateFor r.raftLog.committed msg.entries).toList else []
  | .leader, .msgHeartbeatResp =>
      if r.Confirms msg then
        match (r.readOnly.recvAck msg).1.advance msg with
        | .ok (_, rss) => r.ownAnswers rss
        | .error _ => []
      else []
  | _, _ => []

/-- The read states that a step pushes. -/
def pushes (r : Raft) (msg : Message) : List ReadState :=
  if msg.term = 0 ∨ msg.term = r.term then r.pushesNow msg
  else if r.term < msg.term then (r.higherTerm msg).pushesNow msg
  else []

@[simp] theorem reset_readStates (r : Raft) (t : Nat) : (r.reset t).readStates = r.readStates := by
  unfold reset
  split <;> rfl

@[simp] theorem becomeFollower_readStates (r : Raft) (t lead : Nat) :
    (r.becomeFollower t lead).readStates = r.readStates := reset_readStates r t

@[simp] theorem standing_readStates (r : Raft) : r.standing.readStates = r.readStates := reset_readStates r _

end Raft

/-- No read state comes or goes. -/
def SameReads (r r' : Raft) : Prop := r'.readStates = r.readStates

namespace SameReads

theorem refl (r : Raft) : SameReads r r := rfl

theorem trans (h : SameReads r r') (h' : SameReads r' r'') : SameReads r r'' := Eq.trans h' h

theorem of_commit {b : Bool} (h : r.maybeCommit = .ok (r', b)) : SameReads r r' := by
  obtain ⟨c, rfl⟩ := maybeCommit_frame h
  exact rfl

theorem of_append {es : List Entry} {b : Bool} (h : r.appendEntry es = .ok (r', b)) : SameReads r r' := by
  rcases appendEntry_frame h with ⟨-, rfl⟩ | ⟨-, -, log, c, prs, lprs, u, -, -, -, rfl⟩
  · exact .refl r'
  · exact rfl

theorem of_ok {st st' : Status} (h : (Except.ok (r, st) : Result _) = .ok (r', st')) : SameReads r r' := by
  obtain ⟨rfl, -⟩ := Prod.mk.inj (Except.ok.inj h)
  exact .refl r

end SameReads

section NotLeading

theorem becomeLeader_reads (h : r.becomeLeader = .ok r') : SameReads r r' := by
  obtain ⟨_, r₁, -, happ, rfl⟩ := becomeLeader_spec h
  have hr₁ := SameReads.of_append happ
  have hreduce : (r₁.reduceUncommittedSize [{}]).readStates = r₁.readStates := by
    rw [Raft.reduceUncommittedSize_eq]
  exact hreduce.trans (Eq.trans hr₁ (Raft.reset_readStates r r.term))

theorem campaignElection_reads (hr : r.state ≠ .leader) (h : r.campaignElection = .ok r') : SameReads r r' := by
  have hstand : SameReads r r.standing := r.standing_readStates
  rw [campaignElection_eq hr] at h
  split at h
  · exact hstand.trans (becomeLeader_reads h)
  · exact hstand.trans (sendVoteRequests_sends h).readStates

theorem campaign_reads {ty : CampaignType} (hr : r.state ≠ .leader) (h : r.campaign ty = .ok r') : SameReads r r' := by
  have hask : SameReads r r.asking := rfl
  rw [campaign_eq hr] at h
  split at h
  · split at h
    · exact hask.trans (campaignElection_reads nofun h)
    · exact hask.trans (sendVoteRequests_sends h).readStates
  · exact campaignElection_reads hr h

theorem stepHup_reads (h : r.stepHup = .ok r') : SameReads r r' := by
  rcases stepHup_cases h with rfl | ⟨hr, hcampaign⟩
  · exact .refl r'
  · exact campaign_reads hr hcampaign

theorem stepVote_reads (h : r.stepVote msg = .ok r') : SameReads r r' := by
  obtain ⟨ms, elapsed, vote, rfl⟩ := stepVote_frame h
  exact rfl

theorem handleAppendEntries_reads (h : r.handleAppendEntries msg = .ok r') : SameReads r r' := by
  obtain ⟨log, m, -, -, hsent⟩ := handleAppendEntries_cases h
  have hlog : SameReads r { r with raftLog := log } := rfl
  exact hlog.trans (send_sends hsent).readStates

theorem handleHeartbeat_reads (h : r.handleHeartbeat msg = .ok r') : SameReads r r' := by
  obtain ⟨log, -, h⟩ := bind_ok h
  have hlog : SameReads r { r with raftLog := log } := rfl
  exact hlog.trans (send_sends h).readStates

theorem handleSnapshot_reads (h : r.handleSnapshot msg = .ok r') : SameReads r r' := by
  obtain ⟨⟨r₁, b⟩, h₁, h⟩ := bind_ok h
  have hr₁ : SameReads r r₁ := by
    rcases restore_spec h₁ with rfl | ⟨log, -, rfl⟩ | ⟨-, prs, lprs, l, rfl⟩
    · exact .refl _
    · exact rfl
    · exact rfl
  exact hr₁.trans (send_sends h).readStates

theorem stepCandidate_reads {st : Status} (h : r.stepCandidate msg = .ok (r', st)) : SameReads r r' := by
  have hfollow : SameReads r (r.becomeFollower msg.term msg.from_) := Raft.becomeFollower_readStates r _ _
  cases stepCandidate_step h with
  | keeps same =>
      rw [same]
      exact .refl r
  | appends type handled => exact hfollow.trans (handleAppendEntries_reads handled)
  | beats type handled => exact hfollow.trans (handleHeartbeat_reads handled)
  | restores type handled => exact hfollow.trans (handleSnapshot_reads handled)
  | counts type c polled votes frame tally =>
      have hcount : SameReads r c := by
        rw [frame]
        exact rfl
      refine hcount.trans ?_
      cases tally with
      | stands quorum role campaign => exact campaign_reads (by simp [role]) campaign
      | wins quorum role l lead cast => exact (becomeLeader_reads lead).trans (bcastAppend_sends cast).readStates
      | loses follows =>
          rw [follows]
          exact Raft.becomeFollower_readStates _ _ _
      | waits same =>
          rw [same]
          exact .refl c

theorem stepFollower_reads (hf : r.state = .follower) {st : Status} (h : r.stepFollower msg = .ok (r', st)) :
    r'.readStates = r.readStates ++ r.pushesNow msg := by
  -- every type but the answer to a read keeps the list
  have hkeep : SameReads r r' → msg.type ≠ .msgReadIndexResp → r'.readStates = r.readStates ++ r.pushesNow msg := by
    intro hsame hty
    rw [hsame, Raft.pushesNow, hf]
    cases hcase : msg.type with
    | msgReadIndexResp => exact absurd hcase hty
    | _ => simp
  have hlead : SameReads r { r with electionElapsed := 0, lead := msg.from_ } := rfl
  cases stepFollower_step h with
  | keeps unread same =>
      obtain rfl := same
      cases hty : msg.type with
      | msgReadIndexResp =>
          rw [Raft.pushesNow, hf]
          simp only [hty]
          rw [if_neg, List.append_nil]
          intro hone
          obtain ⟨e, he⟩ := List.length_eq_one_iff.mp hone
          exact unread hty e he
      | _ => exact hkeep (.refl r') (by rw [hty]; decide)
  | forwards type sent =>
      refine hkeep (send_sends sent).readStates ?_
      rcases type with type | type | type <;> simp [type]
  | appends type handled => exact hkeep (hlead.trans (handleAppendEntries_reads handled)) (by rw [type]; decide)
  | beats type handled => exact hkeep (hlead.trans (handleHeartbeat_reads handled)) (by rw [type]; decide)
  | restores type handled => exact hkeep (hlead.trans (handleSnapshot_reads handled)) (by rw [type]; decide)
  | stands type promotable campaign => exact hkeep (campaign_reads (by simp [hf]) campaign) (by rw [type]; decide)
  | reads type e one noted =>
      rw [noted]
      simp [Raft.pushesNow, hf, type, one, Raft.readStateFor]

end NotLeading

section Leading

theorem leaderAppResp_reads (h : r.leaderAppResp msg = .ok r') : SameReads r r' := by
  unfold Raft.leaderAppResp at h
  simp only at h
  have hmark : SameReads r _ := (modifyProgress_sends r msg.from_ fun p => { p with recentActive := true }).readStates
  revert h
  generalize r.modifyProgress msg.from_ (fun p => { p with recentActive := true }) = r₀ at hmark
  intro h
  refine hmark.trans ?_
  split at h
  · rw [← Except.ok.inj h]
    exact .refl r₀
  split at h
  · split at h
    · rw [← Except.ok.inj h]
      exact .refl r₀
    · exact ((modifyProgress_sends _ _ _).trans (sendAppend_sends h)).readStates
  · split at h
    · rw [← Except.ok.inj h]
      exact (modifyProgress_sends _ _ _).readStates
    · obtain ⟨p, -, h⟩ := bind_ok h
      obtain ⟨⟨r₁, changed⟩, h₁, h⟩ := bind_ok h
      obtain ⟨r₂, h₂, h⟩ := bind_ok h
      obtain ⟨r₃, h₃, h⟩ := bind_ok h
      have hr₁ : SameReads r₀ r₁ := Eq.trans (SameReads.of_commit h₁) (modifyProgress_sends _ _ _).readStates
      have hr₃ : SameReads r₁ r₃ := ((sendAfterAck_sends h₂).trans (sendAppendLoop_sends h₃)).readStates
      refine (hr₁.trans hr₃).trans ?_
      split at h
      · rw [← Except.ok.inj h]
        exact .refl r₃
      split at h
      · exact (send_sends h).readStates
      · rw [← Except.ok.inj h]
        exact .refl r₃

theorem leaderTransferLeader_reads {pr : Progress} (h : r.leaderTransferLeader pr msg = .ok r') : SameReads r r' := by
  have hset : SameReads r { r with electionElapsed := 0, leadTransferee := msg.from_ } := rfl
  cases leaderTransferLeader_cases h with
  | keeps why same =>
      rw [same]
      exact .refl r
  | aborts self transferee frame =>
      rw [frame]
      exact rfl
  | urges other sent => exact hset.trans (send_sends sent).readStates
  | appends other sent => exact hset.trans (sendAppend_sends sent).readStates

theorem leaderProp_reads {st : Status} (h : r.leaderProp msg = .ok (r', st)) : SameReads r r' := by
  have happends : ∀ {r₂ : Raft} {ok : Bool}, (r.filterConfChanges 0 msg.entries).1.appendEntry
      (r.filterConfChanges 0 msg.entries).2 = .ok (r₂, ok) → SameReads r r₂ := by
    intro r₂ ok happend
    obtain ⟨p, hfilter⟩ := filterConfChanges_frame r 0 msg.entries
    rw [hfilter] at happend
    have happ := SameReads.of_append happend
    have hr₂ : SameReads r r₂ := happ
    exact hr₂
  cases leaderProp_proposes h with
  | refuses why status same =>
      rw [same]
      exact .refl r
  | drops member settled append status => exact happends append
  | takes nonempty r₂ append cast status => exact (happends append).trans (bcastAppend_sends cast).readStates

/-- The answers that are due here become read states, in the order of the requests. -/
theorem answerReads_reads {rss : List ReadIndexStatus} (h : r.answerReads rss = .ok r') :
    r'.readStates = r.readStates ++ r.ownAnswers rss := by
  induction rss generalizing r with
  | nil =>
      rw [← Except.ok.inj h, Raft.ownAnswers, List.filterMap_nil, List.append_nil]
  | cons rs rss ih =>
      unfold Raft.answerReads at h
      rw [List.foldlM_cons] at h
      obtain ⟨r₁, h₁, h⟩ := bind_ok h
      rw [ih h]
      split at h₁
      · rename_i hown
        obtain ⟨ctx, hctx, h₁⟩ := bind_ok h₁
        rw [← Except.ok.inj h₁]
        unfold Raft.requestCtx at hctx
        split at hctx
        · cases hctx
        rename_i e es hentries
        obtain rfl := Except.ok.inj hctx
        simp [Raft.ownAnswers, hown, Raft.readStateFor, hentries]
      · rename_i hother
        rw [(send_sends h₁).readStates]
        simp only [Raft.ownAnswers, (send_sends h₁).id, List.filterMap_cons, if_neg hother]

theorem leaderReadIndex_reads (h : r.leaderReadIndex msg = .ok r') :
    r'.readStates = r.readStates ++
      if r.AnswersAtOnce msg then (Raft.readStateFor r.raftLog.committed msg.entries).toList else [] := by
  have hno : ¬ r.AnswersAtOnce msg → SameReads r r' → r'.readStates = r.readStates ++
      if r.AnswersAtOnce msg then (Raft.readStateFor r.raftLog.committed msg.entries).toList else [] := by
    intro honce hr'
    rw [if_neg honce, List.append_nil]
    exact hr'
  cases leaderReadIndex_cases h with
  | waits many term same =>
      refine hno ?_ (same ▸ .refl r)
      rintro (hone | ⟨heq, -⟩)
      · omega
      · exact term heq
  | queues many safe ro ctx add context beat =>
      refine hno ?_ (bcastHeartbeatWithCtx_sends beat).readStates
      rintro (hone | ⟨-, hlease, -⟩)
      · omega
      · cases safe.symm.trans hlease
  | replies many lease other sent =>
      refine hno ?_ (send_sends sent).readStates
      rintro (hone | ⟨-, -, hown⟩)
      · omega
      · exact other hown
  | reads why ctx context read =>
      have honce : r.AnswersAtOnce msg := why
      rw [if_pos honce, read]
      unfold Raft.requestCtx at context
      split at context
      · cases context
      rename_i e es hentries
      obtain rfl := Except.ok.inj context
      rw [hentries]
      rfl

theorem leaderHeartbeatResp_reads (h : r.leaderHeartbeatResp msg = .ok r') :
    r'.readStates = r.readStates ++
      if r.Confirms msg then
        match (r.readOnly.recvAck msg).1.advance msg with
        | .ok (_, rss) => r.ownAnswers rss
        | .error _ => []
      else [] := by
  obtain ⟨r₁, hs, hcase⟩ := leaderHeartbeatResp_spec h
  rcases hcase with ⟨rfl, hskip⟩ | ⟨hsome, hsafe, hctx, ⟨hfew, rfl⟩ | ⟨hq, ro, rss, hadv, hans⟩⟩
  · rw [hs.readStates, if_neg, List.append_nil]
    rintro ⟨hsome, hsafe, hctx, -⟩
    rcases hskip with hnone | hoption | hempty
    · rw [Option.isNone_iff_eq_none.mp hnone] at hsome
      cases hsome
    · exact hoption hsafe
    · exact hctx hempty
  · rw [if_neg fun hconfirms => absurd hconfirms.2.2.2 (Nat.not_le.mpr hfew), List.append_nil]
    exact hs.readStates
  · rw [if_pos ⟨hsome, hsafe, hctx, hq⟩, hadv, answerReads_reads hans]
    simp only [Raft.ownAnswers, hs.id, hs.readStates]

theorem stepLeader_reads (hl : r.state = .leader) {st : Status} (h : r.stepLeader msg = .ok (r', st)) :
    r'.readStates = r.readStates ++ r.pushesNow msg := by
  -- two types push, the others keep the list
  have hkeep : SameReads r r' → msg.type ≠ .msgReadIndex → msg.type ≠ .msgHeartbeatResp →
      r'.readStates = r.readStates ++ r.pushesNow msg := by
    intro hsame hread hbeat
    rw [hsame, Raft.pushesNow, hl]
    cases hcase : msg.type with
    | msgReadIndex => exact absurd hcase hread
    | msgHeartbeatResp => exact absurd hcase hbeat
    | _ => simp
  unfold Raft.stepLeader at h
  split at h
  · rename_i hty
    exact hkeep (bcastHeartbeatWithCtx_sends (withOk_ok h)).readStates (by rw [hty]; decide) (by rw [hty]; decide)
  · rename_i hty
    refine hkeep ?_ (by rw [hty]; decide) (by rw [hty]; decide)
    rw [← (Prod.mk.inj (Except.ok.inj h)).1]
    split
    · exact Raft.becomeFollower_readStates r _ _
    · exact .refl r
  · rename_i hty
    exact hkeep (leaderProp_reads h) (by rw [hty]; decide) (by rw [hty]; decide)
  · rename_i hty
    rw [leaderReadIndex_reads (withOk_ok h)]
    simp only [Raft.pushesNow, hl, hty]
  · rename_i hread
    have h := withOk_ok h
    unfold Raft.stepLeaderProgress at h
    split at h
    · rename_i hnone
      rw [← Except.ok.inj h]
      -- a response of nobody confirms nothing
      have hnot : ¬ r.Confirms msg := by
        rintro ⟨hsome, -⟩
        rw [hnone] at hsome
        cases hsome
      rw [Raft.pushesNow, hl]
      cases hty : msg.type with
      | msgReadIndex => exact absurd hty hread
      | msgHeartbeatResp => simp [hnot]
      | _ => simp
    split at h
    · rename_i hty
      exact hkeep (leaderAppResp_reads h) (by rw [hty]; decide) (by rw [hty]; decide)
    · rename_i hty
      rw [leaderHeartbeatResp_reads h]
      simp only [Raft.pushesNow, hl, hty]
    · rename_i hty
      refine hkeep ?_ (by rw [hty]; decide) (by rw [hty]; decide)
      rw [← Except.ok.inj h]
      exact (modifyProgress_sends _ _ _).readStates
    · rename_i hty
      refine hkeep ?_ (by rw [hty]; decide) (by rw [hty]; decide)
      rw [← Except.ok.inj h]
      exact (modifyProgress_sends _ _ _).readStates
    · rename_i hty
      exact hkeep (leaderTransferLeader_reads h) (by rw [hty]; decide) (by rw [hty]; decide)
    · rename_i hbeat _ _ _
      refine hkeep ?_ hread hbeat
      rw [← Except.ok.inj h]
      exact .refl r

end Leading

section Operations

theorem stepBody_reads {st : Status} (h : r.stepBody msg = .ok (r', st)) :
    r'.readStates = r.readStates ++ r.pushesNow msg := by
  -- requests for votes are handled in every role
  have hkeep : SameReads r r' → msg.type = .msgHup ∨ msg.type = .msgVote ∨ msg.type = .msgPreVote →
      r'.readStates = r.readStates ++ r.pushesNow msg := by
    intro hsame hty
    rw [hsame, Raft.pushesNow]
    rcases hty with hty | hty | hty <;> cases r.state <;> simp [hty]
  have hcandidate : r.state = .candidate ∨ r.state = .preCandidate → r.stepCandidate msg = .ok (r', st) →
      r'.readStates = r.readStates ++ r.pushesNow msg := by
    intro hc h
    rw [stepCandidate_reads h, Raft.pushesNow]
    rcases hc with hc | hc <;> simp [hc]
  unfold Raft.stepBody at h
  split at h
  · rename_i hty
    exact hkeep (stepHup_reads (withOk_ok h)) (Or.inl hty)
  · rename_i hty
    exact hkeep (stepVote_reads (withOk_ok h)) (Or.inr (Or.inl hty))
  · rename_i hty
    exact hkeep (stepVote_reads (withOk_ok h)) (Or.inr (Or.inr hty))
  · split at h
    · rename_i hs
      exact stepFollower_reads hs h
    · rename_i hs
      exact hcandidate (Or.inl hs) h
    · rename_i hs
      exact hcandidate (Or.inr hs) h
    · rename_i hs
      exact stepLeader_reads hs h

theorem pushesNow_vote (h : msg.type = .msgVote ∨ msg.type = .msgPreVote) : r.pushesNow msg = [] := by
  unfold Raft.pushesNow
  rcases h with h | h <;> cases r.state <;> simp [h]

/-- A step appends the read states that its message brings, and nothing else happens to the list. -/
theorem step_reads {st : Status} (h : r.step msg = .ok (r', st)) : r'.readStates = r.readStates ++ r.pushes msg := by
  unfold Raft.pushes
  cases step_way h with
  | stays term body =>
      rw [stepBody_reads body]
      rcases term with hzero | hsame | ⟨hlater, hstays, -⟩
      · rw [if_pos (Or.inl hzero)]
      · rw [if_pos (Or.inr hsame)]
      · rw [if_neg (by omega), if_pos hlater, hstays]
  | follows later lead heard body =>
      rw [if_neg (by omega), if_pos later, heard, stepBody_reads body, Raft.becomeFollower_readStates]
  | leased later type same =>
      rw [if_neg (by omega), if_pos later, pushesNow_vote type, List.append_nil, same]
  | stale sent earlier lower =>
      rw [if_neg (by omega), if_neg (by omega), List.append_nil]
      rcases lowerTerm_cases lower with rfl | ⟨m, -, hsent⟩
      · rfl
      · exact (send_sends hsent).readStates

/-- What a node steps on a tick pushes nothing. -/
theorem pushes_own {id : Nat} {ty : MessageType} (h : ty = .msgHup ∨ ty = .msgCheckQuorum ∨ ty = .msgBeat) :
    r.pushes { from_ := id, type := ty } = [] := by
  unfold Raft.pushes
  rw [if_pos (Or.inl rfl)]
  unfold Raft.pushesNow
  rcases h with rfl | rfl | rfl <;> cases r.state <;> rfl

theorem Timed.reads (h : Timed r r') : SameReads r r' := by
  obtain ⟨_, _, _, rfl⟩ := h
  exact rfl

theorem tick_reads (h : r.tick = .ok r') : SameReads r r' := by
  have hown : ∀ {g g' : Raft} {id : Nat} {ty : MessageType} {st : Status},
      ty = .msgHup ∨ ty = .msgCheckQuorum ∨ ty = .msgBeat → g.step { from_ := id, type := ty } = .ok (g', st) →
      SameReads g g' := by
    intro g g' id ty st hty hstep
    have hreads := step_reads hstep
    rw [pushes_own hty, List.append_nil] at hreads
    exact hreads
  cases tick_ticks h with
  | waits timed => exact timed.reads
  | stands r₁ timed role promotable st step => exact timed.reads.trans (hown (Or.inl rfl) step)
  | beats r₁ r₂ r₃ role timed check timed' beat =>
      have hcheck : SameReads r₁ r₂ := by
        rcases check with rfl | ⟨st, hstep⟩
        · exact .refl _
        · exact hown (Or.inr (Or.inl rfl)) hstep
      have hbeat : SameReads r₃ r' := by
        rcases beat with rfl | ⟨-, st, hstep⟩
        · exact .refl _
        · exact hown (Or.inr (Or.inr rfl)) hstep
      exact timed.reads.trans (hcheck.trans (timed'.reads.trans hbeat))

theorem applyConfChange_readStates {n n' : RawNode} {cc : ConfChange} {cs : ConfState}
    (h : n.applyConfChange cc = .ok (n', cs)) : SameReads n.raft n'.raft := by
  obtain ⟨_, _, _, _, _, _, _, _, heq⟩ := (applyConfChange_configures h).1.frame
  rw [heq]
  exact rfl

/-- The read states that an operation pushes. -/
def NodeAction.pushes (n : RawNode) (a : NodeAction) : List ReadState :=
  match a.message n with
  | some msg => n.raft.pushes msg
  | none => []

/-- Everything that may happen between `ready` and `advance`. -/
def NodeAction.IsBetween : NodeAction → Prop
  | .ready | .advance _ => False
  | _ => True

theorem run_reads {n n' : RawNode} {a : NodeAction} (ha : a.IsBetween) (h : n.run a = .ok n') :
    n'.raft.readStates = n.raft.readStates ++ a.pushes n := by
  have hnone : a.message n = none → SameReads n.raft n'.raft →
      n'.raft.readStates = n.raft.readStates ++ a.pushes n := by
    intro hmsg hsame
    rw [NodeAction.pushes, hmsg, List.append_nil]
    exact hsame
  cases run_operates h with
  | refuses message same =>
      subst same
      exact hnone message (.refl _)
  | steps msg message r' st step node =>
      subst node
      rw [NodeAction.pushes, message]
      exact step_reads step
  | ticks action r' tick node =>
      subst node
      exact hnone (by rw [action]; rfl) (tick_reads tick)
  | configures cc action cs apply => exact hnone (by rw [action]; rfl) (applyConfChange_readStates apply)
  | readies action rd ready =>
      rw [action] at ha
      exact ha.elim
  | advances rd action node =>
      rw [action] at ha
      exact ha.elim
  | stores storage action node =>
      subst node
      exact hnone (by rw [action]; rfl) rfl

end Operations

/-! ### Runs -/

/-- A node whose application takes one `Ready` at a time, with the read states pushed so far. -/
structure ReadRun where
  node : RawNode
  /-- The `Ready` that is not advanced yet. -/
  outstanding : Option Ready := none
  handed : List Ready := []
  pushed : List ReadState := []

namespace ReadRun

/-- `ready` and `advance` alternate, and operations that meet a condition come between. -/
inductive Step (P : ReadRun → NodeAction → Prop) : ReadRun → ReadRun → Prop
  | operate {s : ReadRun} {a : NodeAction} {n : RawNode} : a.IsBetween → P s a → s.node.run a = .ok n →
      Step P s { s with node := n, pushed := s.pushed ++ a.pushes s.node }
  | ready {s : ReadRun} {rd : Ready} {n : RawNode} : s.outstanding = none → s.node.ready = .ok (rd, n) →
      Step P s { s with node := n, outstanding := some rd, handed := s.handed ++ [rd] }
  | advance {s : ReadRun} {rd : Ready} : s.outstanding = some rd →
      Step P s { s with node := s.node.advance rd, outstanding := none }

def Runs (P : ReadRun → NodeAction → Prop) : ReadRun → ReadRun → Prop := Relation.ReflTransGen (Step P)

/-- While a `Ready` with read states is out, no read state is pushed. -/
def Undisturbed (s : ReadRun) (a : NodeAction) : Prop :=
  ∀ rd, s.outstanding = some rd → rd.readState ≠ [] → a.pushes s.node = []

/-- The read states that are in the `Ready` that is out. -/
def taken (s : ReadRun) : List ReadState := (s.outstanding.map Ready.readState).getD []

/-- The read states of the node that are in no `Ready` yet. -/
def waiting (s : ReadRun) : List ReadState := s.node.raft.readStates.drop s.taken.length

/-- Each read state was handed out once, in the order of the pushes, or is waiting for the next
`Ready`, which takes all that wait. -/
def DeliveredOnce (s : ReadRun) : Prop :=
  s.handed.flatMap Ready.readState ++ s.waiting = s.pushed ∧
    ∀ rd n, s.outstanding = none → s.node.ready = .ok (rd, n) → rd.readState = s.waiting

/-- The list starts with what the `Ready` that is out took, and goes on only if it took nothing. -/
structure Invariant (s : ReadRun) : Prop where
  taken : s.taken <+: s.node.raft.readStates
  kept : s.taken ≠ [] → s.node.raft.readStates = s.taken
  once : s.handed.flatMap Ready.readState ++ s.waiting = s.pushed

/-- `ready` copies the whole list and leaves it in place. -/
theorem ready_reads {n n' : RawNode} {rd : Ready} (h : n.ready = .ok (rd, n')) :
    rd.readState = n.raft.readStates ∧ n'.raft.readStates = n.raft.readStates := by
  have hraft := ready_frame h
  obtain ⟨rd', hnew, h⟩ := bind_ok h
  obtain ⟨rfl, -⟩ := Prod.mk.inj (Except.ok.inj h)
  obtain ⟨es, -, hnew⟩ := bind_ok hnew
  exact ⟨by rw [← Except.ok.inj hnew], by rw [hraft]⟩

variable {s s' : ReadRun}

theorem Invariant.step (h : s.Invariant) (hs : Step Undisturbed s s') : s'.Invariant := by
  cases hs with
  | @operate a n ha hp hrun =>
      have hreads := run_reads ha hrun
      refine ⟨?_, fun hne => ?_, ?_⟩
      · simp only [ReadRun.taken, hreads]
        exact h.taken.trans (List.prefix_append _ _)
      · -- the `Ready` that is out took something, so nothing is pushed
        have hquiet : a.pushes s.node = [] := by
          cases hout : s.outstanding with
          | none => simp [ReadRun.taken, hout] at hne
          | some rd => exact hp rd hout (by simpa [ReadRun.taken, hout] using hne)
        simp only [hreads, hquiet, List.append_nil]
        exact h.kept hne
      · have hlen := h.taken.length_le
        have hdrop : List.drop s.taken.length (s.node.raft.readStates ++ a.pushes s.node) = s.waiting ++ a.pushes s.node :=
          List.drop_append_of_le_length hlen
        rw [← h.once, List.append_assoc, ← hdrop, ← hreads]
        rfl
  | @ready rd n hout hready =>
      obtain ⟨hrd, hn⟩ := ready_reads hready
      have htaken : s.taken = [] := by simp [ReadRun.taken, hout]
      have honce := h.once
      simp only [waiting, htaken, List.length_nil, List.drop_zero] at honce
      refine ⟨?_, fun _ => ?_, ?_⟩
      · simp [ReadRun.taken, hrd, hn]
      · simp [ReadRun.taken, hrd, hn]
      · simp only [waiting, ReadRun.taken, Option.map_some, Option.getD_some, hrd, hn, List.drop_length, List.append_nil,
          List.flatMap_append, List.flatMap_cons, List.flatMap_nil]
        exact honce
  | @advance rd hout =>
      have htaken : s.taken = rd.readState := by simp [ReadRun.taken, hout]
      have honce := h.once
      refine ⟨by simp [ReadRun.taken], fun hne => absurd rfl hne, ?_⟩
      simp only [waiting, ReadRun.taken, Option.map_none, Option.getD_none, List.length_nil, List.drop_zero, RawNode.advance]
      rw [← honce, waiting, htaken]
      split
      · rename_i hne
        rw [h.kept (by rwa [htaken]), htaken, List.drop_length]
      · rename_i hnil
        rw [not_not.mp hnil, List.length_nil, List.drop_zero]

theorem Invariant.runs (h : s.Invariant) (hs : Runs Undisturbed s s') : s'.Invariant := by
  induction hs with
  | refl => exact h
  | tail _ hstep ih => exact ih.step hstep

theorem Invariant.deliveredOnce (h : s.Invariant) : s.DeliveredOnce := by
  refine ⟨h.once, fun rd n hout hready => ?_⟩
  rw [(ready_reads hready).1, waiting, ReadRun.taken, hout]
  rfl

end ReadRun

theorem loadState_frame {hs : HardState} (h : r.loadState hs = .ok r') : SameReads r r' := by
  unfold Raft.loadState at h
  split at h
  · cases h
  · rw [← Except.ok.inj h]
    exact rfl

theorem addLearners_reads {ids : List Nat} (h : r.addLearners ids = .ok r') : SameReads r r' := by
  unfold Raft.addLearners at h
  induction ids generalizing r with
  | nil =>
      rw [← Except.ok.inj h]
      exact .refl r
  | cons id ids ih =>
      rw [List.foldlM_cons] at h
      obtain ⟨r₁, h₁, h⟩ := bind_ok h
      split at h₁
      · cases h₁
      · have hr₁ : SameReads r r₁ := by
          rw [← Except.ok.inj h₁]
          exact rfl
        exact hr₁.trans (ih h)

theorem new_reads {c : Config} (h : Raft.new c = .ok r) : r.readStates = [] := by
  obtain ⟨⟨peers, learners⟩, -, h⟩ := bind_ok h
  obtain ⟨r₁, h₁, h⟩ := bind_ok h
  obtain ⟨r₂, h₂, h⟩ := bind_ok h
  have hr₁ := addLearners_reads h₁
  have hr₂ : SameReads r₁ r₂ := by
    split at h₂
    · exact loadState_frame h₂
    · rw [← Except.ok.inj h₂]
      exact .refl r₁
  rw [← Except.ok.inj h, Raft.becomeFollower_readStates]
  have hfresh : r₂.readStates = [] := Eq.trans hr₂ hr₁
  split
  · exact hfresh
  · exact hfresh

/-- A node that starts has no read states. -/
theorem started_reads {c : Config} {n : RawNode}
    (h : RawNode.restartNode c = .ok n ∨ ∃ serialize peers, RawNode.startNode serialize c peers = .ok n) :
    n.raft.readStates = [] := by
  refine started_holds (P := fun r => r.readStates = []) h (fun r hr => new_reads hr) ?_ ?_
  · intro r es log hr _ _ _
    exact Eq.trans (Raft.becomeFollower_readStates r 1 0) (new_reads hr)
  · intro r r' id hr hadd
    obtain ⟨prs, lprs, l, rfl⟩ := addNodeOrLearner_frame hadd
    exact hr

theorem readStates_delivered_once {c : Config} {n₀ : RawNode} {s : ReadRun}
    (hstart : RawNode.restartNode c = .ok n₀ ∨ ∃ serialize peers, RawNode.startNode serialize c peers = .ok n₀)
    (hs : ReadRun.Runs ReadRun.Undisturbed { node := n₀ } s) : s.DeliveredOnce := by
  have hfresh := started_reads hstart
  have hinit : ReadRun.Invariant { node := n₀ } := by
    refine ⟨List.nil_prefix, fun hne => absurd rfl hne, ?_⟩
    simp [ReadRun.waiting, ReadRun.taken, hfresh]
  exact (hinit.runs hs).deliveredOnce

/-- A lone voter reads, hands the answer out and reads again, after the `Ready` is advanced or before. -/
def readTwice (before : Bool) (n : RawNode) : Result ReadRun := do
  let n₁ ← n.run .campaign
  let n₂ ← n₁.run (.readIndex [1])
  let (rd, n₃) ← n₂.ready
  let pushed := NodeAction.pushes n .campaign ++ NodeAction.pushes n₁ (.readIndex [1])
  if before then do
    let n₄ ← n₃.run (.readIndex [2])
    .ok { node := n₄.advance rd, handed := [rd], pushed := pushed ++ NodeAction.pushes n₃ (.readIndex [2]) }
  else do
    let n₄ ← (n₃.advance rd).run (.readIndex [2])
    .ok { node := n₄, handed := [rd], pushed := pushed ++ NodeAction.pushes (n₃.advance rd) (.readIndex [2]) }

theorem readStates_delivered_once_after : ∃ n s, RawNode.restartNode loneVoter = .ok n ∧
    ReadRun.Runs ReadRun.Undisturbed { node := n } s ∧ s.pushed.map ReadState.requestCtx = [[1], [2]] ∧
    s.waiting.map ReadState.requestCtx = [[2]] ∧ s.DeliveredOnce := by
  obtain ⟨s, hrun, hreads⟩ : ∃ s, (RawNode.restartNode loneVoter >>= readTwice false) = .ok s ∧
      decide (s.pushed.map ReadState.requestCtx = [[1], [2]] ∧ s.waiting.map ReadState.requestCtx = [[2]]) = true :=
    exists_ok_of_any (by decide +kernel)
  obtain ⟨n, hn, hrun⟩ := bind_ok hrun
  obtain ⟨n₁, h₁, hrun⟩ := bind_ok hrun
  obtain ⟨n₂, h₂, hrun⟩ := bind_ok hrun
  obtain ⟨⟨rd, n₃⟩, h₃, hrun⟩ := bind_ok hrun
  obtain ⟨n₄, h₄, hrun⟩ := bind_ok hrun
  obtain rfl := Except.ok.inj hrun
  have hfree : ∀ {s : ReadRun} {a : NodeAction}, s.outstanding = none → s.Undisturbed a :=
    fun hnone rd hsome => absurd (hnone.symm.trans hsome) nofun
  have hruns : ReadRun.Runs ReadRun.Undisturbed { node := n } _ :=
    .head (.operate (a := .campaign) trivial (hfree rfl) h₁) (.head (.operate (a := .readIndex [1]) trivial (hfree rfl) h₂)
      (.head (.ready rfl h₃) (.head (.advance rfl)
        (.head (.operate (a := .readIndex [2]) trivial (hfree rfl) h₄) .refl))))
  obtain ⟨hpushed, hwaiting⟩ := of_decide_eq_true hreads
  exact ⟨n, _, hn, hruns, hpushed, hwaiting, readStates_delivered_once (Or.inl hn) hruns⟩

/-- What is pushed while a `Ready` with read states is out is in no `Ready` and gone from the node. -/
theorem readState_lost_between : ∃ n s, RawNode.restartNode loneVoter = .ok n ∧
    ReadRun.Runs (fun _ _ => True) { node := n } s ∧ s.outstanding = none ∧ s.node.raft.readStates = [] ∧
    s.pushed.map ReadState.requestCtx = [[1], [2]] ∧
    (s.handed.flatMap Ready.readState).map ReadState.requestCtx = [[1]] ∧ ¬ s.DeliveredOnce := by
  obtain ⟨s, hrun, hreads⟩ : ∃ s, (RawNode.restartNode loneVoter >>= readTwice true) = .ok s ∧
      decide (s.node.raft.readStates.map ReadState.requestCtx = [] ∧ s.pushed.map ReadState.requestCtx = [[1], [2]] ∧
        (s.handed.flatMap Ready.readState).map ReadState.requestCtx = [[1]]) = true := exists_ok_of_any (by decide +kernel)
  obtain ⟨n, hn, hrun⟩ := bind_ok hrun
  obtain ⟨n₁, h₁, hrun⟩ := bind_ok hrun
  obtain ⟨n₂, h₂, hrun⟩ := bind_ok hrun
  obtain ⟨⟨rd, n₃⟩, h₃, hrun⟩ := bind_ok hrun
  obtain ⟨n₄, h₄, hrun⟩ := bind_ok hrun
  have hs := Except.ok.inj hrun
  have hruns : ReadRun.Runs (fun _ _ => True) { node := n } s := by
    rw [← hs]
    exact .head (.operate (a := .campaign) trivial trivial h₁) (.head (.operate (a := .readIndex [1]) trivial trivial h₂)
      (.head (.ready rfl h₃) (.head (.operate (a := .readIndex [2]) trivial trivial h₄) (.head (.advance rfl) .refl))))
  obtain ⟨hleft, hpushed, hhanded⟩ := of_decide_eq_true hreads
  have hgone := List.map_eq_nil_iff.mp hleft
  refine ⟨n, s, hn, hruns, by rw [← hs], hgone, hpushed, hhanded, fun honce => ?_⟩
  have hsum := congrArg (List.map ReadState.requestCtx) honce.1
  rw [hpushed, List.map_append, hhanded, ReadRun.waiting, hgone, List.drop_nil] at hsum
  cases hsum

end RaftEtcd
