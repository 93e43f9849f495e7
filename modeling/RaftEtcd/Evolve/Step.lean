import RaftEtcd.Evolve.Basic
import RaftEtcd.Refine.Run

/-! Every handler of `Raft::step`, and the ticks, move a node forward. -/
namespace RaftEtcd
variable {W : Prop} {r r' r'' : Raft} {msg : Message}

/-- The entries that a leader sends are numbered from behind the index of the message on. -/
def Message.Numbered (msg : Message) : Prop := msg.type = .msgApp → IndexedFrom (msg.index + 1) msg.entries

section Handlers

theorem handleAppendEntries_evolves (hty : msg.type = .msgApp) (h : r.handleAppendEntries msg = .ok r') :
    Evolves msg.Numbered r r' := by
  obtain ⟨log, m, -, hlog, hsent⟩ := handleAppendEntries_cases h
  rcases hlog with rfl | ⟨ok, hlog⟩
  · exact (send_sends hsent).evolves
  · have hgrow := Evolves.ofLog (RaftLog.maybeAppend_grows (W := msg.Numbered) (fun w => w hty) hlog)
    exact hgrow.trans (send_sends hsent).evolves

theorem handleHeartbeat_evolves (h : r.handleHeartbeat msg = .ok r') : Evolves W r r' := by
  obtain ⟨log, hlog, h⟩ := bind_ok h
  exact (Evolves.ofLog (RaftLog.commitTo_grows hlog)).trans (send_sends h).evolves

/-- Only the peers of the node change, and no voter goes. -/
theorem setProgress_spec {id m n : Nat} {b : Bool} (h : r.setProgress id m n b = .ok r') :
    (∃ prs lprs, r' = { r with prs := prs, learnerPrs := lprs }) ∧ ∀ k ∈ r.prs, k ∈ r'.prs := by
  unfold Raft.setProgress at h
  dsimp only at h
  split at h
  · obtain rfl := Except.ok.inj h
    exact ⟨⟨_, _, rfl⟩, fun k hk => (AList.mem_insert _).mpr (Or.inr hk)⟩
  split at h
  · cases h
  · obtain rfl := Except.ok.inj h
    exact ⟨⟨_, _, rfl⟩, fun _ hk => hk⟩

theorem restoreNode_spec {ids : List Nat} {b : Bool} (h : r.restoreNode ids b = .ok r') :
    ∃ prs lprs l, r' = { r with prs := prs, learnerPrs := lprs, isLearner := l } := by
  unfold Raft.restoreNode at h
  induction ids generalizing r with
  | nil =>
      obtain rfl := Except.ok.inj h
      exact ⟨_, _, _, rfl⟩
  | cons id ids ih =>
      rw [List.foldlM_cons] at h
      obtain ⟨r₂, h₂, h⟩ := bind_ok h
      obtain ⟨r₁, h₁, h₂⟩ := bind_ok h₂
      have hset : ∃ prs lprs l, r₁ = { r with prs := prs, learnerPrs := lprs, isLearner := l } := by
        obtain ⟨⟨prs, lprs, rfl⟩, -⟩ := setProgress_spec h₁
        split
        · exact ⟨prs, lprs, b, rfl⟩
        · exact ⟨prs, lprs, r.isLearner, rfl⟩
      have h₂ : r₁ = r₂ := by
        split at h₂
        · cases h₂
        · exact Except.ok.inj h₂
      obtain rfl := h₂
      obtain ⟨prs, lprs, l, rfl⟩ := hset
      obtain ⟨prs', lprs', l', rfl⟩ := ih h
      exact ⟨prs', lprs', l', rfl⟩

/-- What `restore` leaves: the node as it was, a commit index that was fast-forwarded, or the
snapshot in place of the log and new peers. -/
theorem restore_spec {s : Snapshot} {b : Bool} (h : r.restore s = .ok (r', b)) :
    r' = r ∨ (∃ log, r.raftLog.commitTo s.metadata.index = .ok log ∧ r' = { r with raftLog := log }) ∨
      (r.raftLog.committed < s.metadata.index ∧ ∃ prs lprs l,
        r' = { r with raftLog := r.raftLog.restore s, prs := prs, learnerPrs := lprs, isLearner := l }) := by
  unfold Raft.restore at h
  split at h
  · exact Or.inl (Prod.mk.inj (Except.ok.inj h)).1.symm
  rename_i hlt
  split at h
  · obtain ⟨log, hlog, h⟩ := bind_ok h
    exact Or.inr (Or.inl ⟨log, hlog, (Prod.mk.inj (Except.ok.inj h)).1.symm⟩)
  split at h
  · exact Or.inl (Prod.mk.inj (Except.ok.inj h)).1.symm
  · obtain ⟨r₁, h₁, h⟩ := bind_ok h
    obtain ⟨r₂, h₂, h⟩ := bind_ok h
    rw [← (Prod.mk.inj (Except.ok.inj h)).1]
    obtain ⟨prs, lprs, l, rfl⟩ := restoreNode_spec h₁
    obtain ⟨prs', lprs', l', rfl⟩ := restoreNode_spec h₂
    exact Or.inr (Or.inr ⟨Nat.not_le.mp hlt, prs', lprs', l', rfl⟩)

/-- Installing a snapshot replaces the peers, so the node must not lead. -/
theorem restore_evolves {s : Snapshot} {b : Bool} (hnl : r.state ≠ .leader) (h : r.restore s = .ok (r', b)) :
    Evolves W r r' := by
  rcases restore_spec h with rfl | ⟨log, hlog, rfl⟩ | ⟨hlt, prs, lprs, l, rfl⟩
  · exact .refl _
  · exact .ofLog (RaftLog.commitTo_grows hlog)
  · exact ⟨⟨rfl, le_rfl, fun _ _ => rfl, RaftLog.restore_grows hlt⟩, rfl,
      Or.inr ⟨rfl, fun hl => absurd hl hnl⟩⟩

theorem handleSnapshot_evolves (hnl : r.state ≠ .leader) (h : r.handleSnapshot msg = .ok r') :
    Evolves W r r' := by
  obtain ⟨⟨r₁, b⟩, h₁, h⟩ := bind_ok h
  exact (restore_evolves hnl h₁).trans (send_sends h).evolves

theorem leaderProp_evolves {st : Status} (h : r.leaderProp msg = .ok (r', st)) : Evolves W r r' := by
  have happends : ∀ {r₂ : Raft} {ok : Bool}, (r.filterConfChanges 0 msg.entries).1.appendEntry
      (r.filterConfChanges 0 msg.entries).2 = .ok (r₂, ok) → Evolves W r r₂ := fun happend =>
    (filterConfChanges_keeps r 0 msg.entries).evolves.trans (appendEntry_evolves happend)
  cases leaderProp_proposes h with
  | refuses why status same =>
      rw [same]
      exact .refl r
  | drops member settled append status => exact happends append
  | takes nonempty r₂ append cast status => exact (happends append).trans (bcastAppend_sends cast).evolves

/-- A read request is queued, or answered or dropped at once; more than one voter of a safe leader
never have it answered at once. -/
theorem leaderReadIndex_spec (h : r.leaderReadIndex msg = .ok r') :
    (Keeps r r' ∧ (1 < r.quorum → r.readOnly.option = .safe → r' = r)) ∨
      ∃ ro ctx, r.readOnly.addRequest r.raftLog.committed msg = .ok ro ∧
        { r with readOnly := ro }.bcastHeartbeatWithCtx ctx = .ok r' := by
  cases leaderReadIndex_cases h with
  | waits many term same => exact Or.inl ⟨same ▸ .refl r, fun _ _ => same⟩
  | queues many safe ro ctx add context beat => exact Or.inr ⟨ro, ctx, add, beat⟩
  | reads why ctx context read =>
      refine Or.inl ⟨?_, fun hmany hsafe => ?_⟩
      · rw [read]
        exact ⟨⟨rfl, rfl, rfl, rfl, rfl, rfl⟩, rfl⟩
      · obtain ⟨-, hlease, -⟩ := why.resolve_left (Nat.not_le_of_lt hmany)
        cases hlease.symm.trans hsafe
  | replies many lease other sent =>
      exact Or.inl ⟨(send_sends sent).toKeeps, fun _ hsafe => absurd (lease.symm.trans hsafe) (by decide)⟩

theorem leaderReadIndex_advances (h : r.leaderReadIndex msg = .ok r') : Advances W r r' := by
  rcases leaderReadIndex_spec h with ⟨hk, -⟩ | ⟨ro, ctx, -, h⟩
  · exact hk.evolves.toAdvances
  · have hro : Advances W r { r with readOnly := ro } := ⟨rfl, le_rfl, fun _ _ => rfl, .refl _⟩
    exact hro.trans (bcastHeartbeatWithCtx_sends h).evolves.toAdvances

theorem sendAfterAck_sends {id : Nat} {changed paused : Bool} (h : r.sendAfterAck id changed paused = .ok r') :
    Sends r r' := by
  unfold Raft.sendAfterAck at h
  split at h
  · exact bcastAppend_sends h
  split at h
  · exact sendAppend_sends h
  · obtain rfl := Except.ok.inj h
    exact .refl _

theorem leaderAppResp_evolves (h : r.leaderAppResp msg = .ok r') : Evolves W r r' := by
  unfold Raft.leaderAppResp at h
  simp only at h
  have hmark := modifyProgress_sends r msg.from_ fun p => { p with recentActive := true }
  revert h
  generalize r.modifyProgress msg.from_ (fun p => { p with recentActive := true }) = r₀ at hmark
  intro h
  refine hmark.evolves.trans ?_
  split at h
  · obtain rfl := Except.ok.inj h
    exact .refl _
  split at h
  · split at h
    · obtain rfl := Except.ok.inj h
      exact .refl _
    · exact ((modifyProgress_sends _ _ _).trans (sendAppend_sends h)).evolves
  · split at h
    · obtain rfl := Except.ok.inj h
      exact (modifyProgress_sends _ _ _).evolves
    · obtain ⟨p, -, h⟩ := bind_ok h
      obtain ⟨⟨r₁, changed⟩, h₁, h⟩ := bind_ok h
      obtain ⟨r₂, h₂, h⟩ := bind_ok h
      obtain ⟨r₃, h₃, h⟩ := bind_ok h
      have hr₁ : Evolves W r₀ r₁ := (modifyProgress_sends _ _ _).evolves.trans (maybeCommit_evolves h₁)
      refine hr₁.trans (((sendAfterAck_sends h₂).trans (sendAppendLoop_sends h₃)).evolves.trans ?_)
      split at h
      · obtain rfl := Except.ok.inj h
        exact .refl _
      split at h
      · exact (send_sends h).evolves
      · obtain rfl := Except.ok.inj h
        exact .refl _

theorem answerReads_keeps {rss : List ReadIndexStatus} (h : r.answerReads rss = .ok r') : Keeps r r' := by
  unfold Raft.answerReads at h
  induction rss generalizing r with
  | nil =>
      obtain rfl := Except.ok.inj h
      exact .refl r
  | cons rs rss ih =>
      rw [List.foldlM_cons] at h
      obtain ⟨r₁, h₁, h⟩ := bind_ok h
      refine Keeps.trans ?_ (ih h)
      split at h₁
      · obtain ⟨ctx, -, h₁⟩ := bind_ok h₁
        obtain rfl := Except.ok.inj h₁
        exact ⟨⟨rfl, rfl, rfl, rfl, rfl, rfl⟩, rfl⟩
      · exact (send_sends h₁).toKeeps

/-- What a heartbeat response does before its context is looked at. -/
theorem leaderHeartbeatResp_spec (h : r.leaderHeartbeatResp msg = .ok r') :
    ∃ r₁, Sends r r₁ ∧ (r' = r₁ ∧ ((r.getProgress msg.from_).isNone ∨ r.readOnly.option ≠ .safe ∨ msg.context = []) ∨
      (r.getProgress msg.from_).isSome ∧ r.readOnly.option = .safe ∧ msg.context ≠ [] ∧
        ((r.readOnly.recvAck msg).2 < r.quorum ∧ r' = { r₁ with readOnly := (r.readOnly.recvAck msg).1 } ∨
        r.quorum ≤ (r.readOnly.recvAck msg).2 ∧ ∃ ro rss, (r.readOnly.recvAck msg).1.advance msg = .ok (ro, rss) ∧
          { r₁ with readOnly := ro }.answerReads rss = .ok r')) := by
  unfold Raft.leaderHeartbeatResp at h
  split at h
  · rename_i hnone
    obtain rfl := Except.ok.inj h
    exact ⟨r, .refl r, Or.inl ⟨rfl, Or.inl (by rw [hnone]; rfl)⟩⟩
  · rename_i pr hpr
    obtain ⟨p, -, h⟩ := bind_ok h
    obtain ⟨r₁, h₁, h⟩ := bind_ok h
    have hr₁ : Sends r r₁ := by
      refine (modifyProgress_sends r msg.from_ fun _ => p).trans ?_
      split at h₁
      · exact sendAppend_sends h₁
      · obtain rfl := Except.ok.inj h₁
        exact .refl _
    refine ⟨r₁, hr₁, ?_⟩
    rw [hr₁.readOnly] at h
    split at h
    · rename_i hskip
      obtain rfl := Except.ok.inj h
      exact Or.inl ⟨rfl, Or.inr hskip⟩
    · rename_i hgo
      have hq : ({ r₁ with readOnly := (r.readOnly.recvAck msg).1 } : Raft).quorum = r.quorum := by
        simp only [Raft.quorum, hr₁.keys]
      rw [not_or, not_not] at hgo
      simp only [hq] at h
      refine Or.inr ⟨by rw [hpr]; rfl, hgo.1, hgo.2, ?_⟩
      split at h
      · rename_i hlt
        obtain rfl := Except.ok.inj h
        exact Or.inl ⟨hlt, rfl⟩
      · rename_i hge
        obtain ⟨⟨ro, rss⟩, hadv, h⟩ := bind_ok h
        exact Or.inr ⟨Nat.not_lt.mp hge, ro, rss, hadv, h⟩

theorem leaderHeartbeatResp_advances (h : r.leaderHeartbeatResp msg = .ok r') : Advances W r r' := by
  obtain ⟨r₁, hk, h⟩ := leaderHeartbeatResp_spec h
  have hset : ∀ ro : ReadOnly, Advances W r₁ { r₁ with readOnly := ro } :=
    fun ro => ⟨rfl, le_rfl, fun _ _ => rfl, .refl _⟩
  refine hk.evolves.toAdvances.trans ?_
  rcases h with ⟨rfl, -⟩ | ⟨-, -, -, ⟨-, rfl⟩ | ⟨-, ro, rss, -, h⟩⟩
  · exact .refl _
  · exact hset _
  · exact (hset ro).trans (answerReads_keeps h).evolves.toAdvances

theorem leaderTransferLeader_keeps {pr : Progress} (h : r.leaderTransferLeader pr msg = .ok r') : Keeps r r' := by
  have hset : Keeps r { r with electionElapsed := 0, leadTransferee := msg.from_ } :=
    ⟨⟨rfl, rfl, rfl, rfl, rfl, rfl⟩, rfl⟩
  cases leaderTransferLeader_cases h with
  | keeps why same =>
      rw [same]
      exact .refl r
  | aborts self transferee frame =>
      rw [frame]
      exact ⟨⟨rfl, rfl, rfl, rfl, rfl, rfl⟩, rfl⟩
  | urges other sent => exact hset.trans (send_sends sent).toKeeps
  | appends other sent => exact hset.trans (sendAppend_sends sent).toKeeps

end Handlers

/-- The types on which a candidate takes over the term of the message. -/
def MessageType.isFromLeader : MessageType → Bool
  | .msgApp | .msgHeartbeat | .msgSnap => true
  | _ => false

/-- The messages on which a leader works on its pending reads. -/
def ReadPath (r : Raft) (msg : Message) : Prop :=
  r.state = .leader ∧ (msg.type = .msgReadIndex ∨ msg.type = .msgHeartbeatResp)

/-- The node after it has handled a message. -/
structure Handles (msg : Message) (r r' : Raft) : Prop
    extends Advances msg.Numbered r r' where
  reads : ¬ ReadPath r msg → ReadsKept r r'

section Dispatch

theorem Evolves.handles (h : Evolves msg.Numbered r r') : Handles msg r r' :=
  ⟨h.toAdvances, fun _ => h.toReadsKept⟩

theorem Keeps.handles (h : Keeps r r') : Handles msg r r' := h.evolves.handles

theorem stepLeaderProgress_handles (hl : r.state = .leader) (h : r.stepLeaderProgress msg = .ok r') :
    Handles msg r r' := by
  unfold Raft.stepLeaderProgress at h
  split at h
  · obtain rfl := Except.ok.inj h
    exact (Keeps.refl r).handles
  split at h
  · exact (leaderAppResp_evolves h).handles
  · rename_i hty
    exact ⟨leaderHeartbeatResp_advances h, fun hn => absurd ⟨hl, Or.inr hty⟩ hn⟩
  · obtain rfl := Except.ok.inj h
    exact (modifyProgress_sends _ _ _).handles
  · obtain rfl := Except.ok.inj h
    exact (modifyProgress_sends _ _ _).handles
  · exact (leaderTransferLeader_keeps h).handles
  · obtain rfl := Except.ok.inj h
    exact (Keeps.refl r).handles

theorem stepLeader_handles (hl : r.state = .leader) {st : Status} (h : r.stepLeader msg = .ok (r', st)) :
    Handles msg r r' := by
  unfold Raft.stepLeader at h
  split at h
  · exact (bcastHeartbeatWithCtx_sends (withOk_ok h)).handles
  · rw [← (Prod.mk.inj (Except.ok.inj h)).1]
    split
    · exact (becomeFollower_evolves r 0 le_rfl).handles
    · exact (Keeps.refl r).handles
  · exact (leaderProp_evolves h).handles
  · rename_i hty
    exact ⟨leaderReadIndex_advances (withOk_ok h), fun hn => absurd ⟨hl, Or.inl hty⟩ hn⟩
  · exact stepLeaderProgress_handles hl (withOk_ok h)

theorem stepCandidate_handles (hterm : msg.type.isFromLeader = true → r.term ≤ msg.term) {st : Status}
    (h : r.stepCandidate msg = .ok (r', st)) : Handles msg r r' := by
  have hfollow : msg.type.isFromLeader = true → Evolves msg.Numbered r (r.becomeFollower msg.term msg.from_) :=
    fun hty => becomeFollower_evolves r _ (hterm hty)
  cases stepCandidate_step h with
  | keeps same =>
      rw [same]
      exact (Keeps.refl r).handles
  | appends type handled =>
      exact ((hfollow (by rw [type]; rfl)).trans (handleAppendEntries_evolves type handled)).handles
  | beats type handled => exact ((hfollow (by rw [type]; rfl)).trans (handleHeartbeat_evolves handled)).handles
  | restores type handled =>
      exact ((hfollow (by rw [type]; rfl)).trans
        (handleSnapshot_evolves (by simp [Raft.becomeFollower]) handled)).handles
  | counts type c polled votes frame tally =>
      have hk : Keeps r c := polled ▸ poll_keeps r msg.from_ (!msg.reject)
      refine Evolves.handles (hk.evolves.trans ?_)
      cases tally with
      | stands quorum role campaign => exact campaign_evolves campaign
      | wins quorum role l lead cast => exact (becomeLeader_evolves lead).trans (bcastAppend_sends cast).evolves
      | loses follows =>
          rw [follows]
          exact becomeFollower_evolves _ 0 le_rfl
      | waits same =>
          rw [same]
          exact .refl _

theorem stepFollower_handles (hf : r.state = .follower) {st : Status} (h : r.stepFollower msg = .ok (r', st)) :
    Handles msg r r' := by
  have hlead : Keeps r { r with electionElapsed := 0, lead := msg.from_ } := ⟨⟨rfl, rfl, rfl, rfl, rfl, rfl⟩, rfl⟩
  cases stepFollower_step h with
  | keeps unread same =>
      rw [same]
      exact (Keeps.refl r).handles
  | forwards type sent => exact (send_sends sent).handles
  | appends type handled => exact (hlead.evolves.trans (handleAppendEntries_evolves type handled)).handles
  | beats type handled => exact (hlead.evolves.trans (handleHeartbeat_evolves handled)).handles
  | restores type handled => exact (hlead.evolves.trans (handleSnapshot_evolves (by simp [hf]) handled)).handles
  | stands type promotable campaign => exact (campaign_evolves campaign).handles
  | reads type e one noted =>
      rw [noted]
      exact Keeps.handles ⟨⟨rfl, rfl, rfl, rfl, rfl, rfl⟩, rfl⟩

theorem stepBody_handles (hterm : msg.type.isFromLeader = true → r.term ≤ msg.term) {st : Status}
    (h : r.stepBody msg = .ok (r', st)) : Handles msg r r' := by
  unfold Raft.stepBody at h
  split at h
  · exact (stepHup_evolves (withOk_ok h)).handles
  · exact (stepVote_evolves (withOk_ok h)).handles
  · exact (stepVote_evolves (withOk_ok h)).handles
  · split at h
    · rename_i hs
      exact stepFollower_handles hs h
    · exact stepCandidate_handles hterm h
    · exact stepCandidate_handles hterm h
    · rename_i hs
      exact stepLeader_handles hs h

/-- The term of a message from a leader must be set; the others may come from the node itself. -/
theorem step_handles (hterm : msg.type.isFromLeader = true → msg.term ≠ 0) {st : Status}
    (h : r.step msg = .ok (r', st)) : Handles msg r r' := by
  cases step_way h with
  | stays term body =>
      refine stepBody_handles (fun hty => ?_) body
      have := hterm hty
      omega
  | follows later lead heard body =>
      have hev := becomeFollower_evolves (W := msg.Numbered) r lead later.le
      have hbody := stepBody_handles (fun _ => by simp [Raft.becomeFollower]) body
      refine ⟨hev.toAdvances.trans hbody.toAdvances, fun _ => hev.toReadsKept.trans (hbody.reads ?_)⟩
      rintro ⟨hl, -⟩
      simp [Raft.becomeFollower] at hl
  | leased later type same =>
      rw [same]
      exact (Keeps.refl r).handles
  | stale sent earlier lower =>
      rcases lowerTerm_cases lower with rfl | ⟨m, -, hsent⟩
      · exact (Keeps.refl r').handles
      · exact (send_sends hsent).handles

/-- A message that the node steps for itself. -/
theorem step_own_evolves (hty : msg.type.isFromLeader = false) (hent : msg.entries = [])
    (hread : msg.type ≠ .msgReadIndex ∧ msg.type ≠ .msgHeartbeatResp) {st : Status}
    (h : r.step msg = .ok (r', st)) : Evolves W r r' := by
  have hh := step_handles (fun ht => absurd (ht.symm.trans hty) (by decide)) h
  have hreads := hh.reads fun hp => hp.2.elim hread.1 hread.2
  have hidx : msg.Numbered := fun _ => hent ▸ .nil _
  exact ⟨⟨hh.id, hh.term, hh.vote, hh.log.mono fun _ => hidx⟩, hreads⟩

/-- Time passes. -/
theorem timers_keep (r : Raft) (a b : Nat) : Keeps r { r with heartbeatElapsed := a, electionElapsed := b } :=
  ⟨⟨rfl, rfl, rfl, rfl, rfl, rfl⟩, rfl⟩

theorem tickElection_evolves (h : r.tickElection = .ok r') : Evolves W r r' := by
  unfold Raft.tickElection at h
  simp only at h
  refine (timers_keep r r.heartbeatElapsed ((r.electionElapsed + 1) % 2 ^ 32)).evolves.trans ?_
  split at h
  · obtain ⟨⟨r₁, st⟩, h₁, h⟩ := bind_ok h
    obtain rfl := Except.ok.inj h
    exact (timers_keep _ _ 0).evolves.trans (step_own_evolves rfl rfl (by simp) h₁)
  · obtain rfl := Except.ok.inj h
    exact .refl _

theorem tickCheckQuorum_evolves (h : r.tickCheckQuorum = .ok r') : Evolves W r r' := by
  unfold Raft.tickCheckQuorum at h
  obtain ⟨r₁, h₁, h⟩ := bind_ok h
  obtain rfl := Except.ok.inj h
  have hr₁ : Evolves W r r₁ := by
    refine (timers_keep r r.heartbeatElapsed 0).evolves.trans ?_
    split at h₁
    · obtain ⟨st, h₁⟩ := map_fst_ok h₁
      exact step_own_evolves rfl rfl (by simp) h₁
    · obtain rfl := Except.ok.inj h₁
      exact .refl _
  refine hr₁.trans ?_
  split
  · exact Keeps.evolves ⟨⟨rfl, rfl, rfl, rfl, rfl, rfl⟩, rfl⟩
  · exact .refl _

theorem tickHeartbeat_evolves (h : r.tickHeartbeat = .ok r') : Evolves W r r' := by
  unfold Raft.tickHeartbeat at h
  obtain ⟨r₂, h₂, h⟩ := bind_ok h
  have hr₂ : Evolves W r r₂ := by
    refine (timers_keep r ((r.heartbeatElapsed + 1) % 2 ^ 32) ((r.electionElapsed + 1) % 2 ^ 32)).evolves.trans ?_
    split at h₂
    · exact tickCheckQuorum_evolves h₂
    · obtain rfl := Except.ok.inj h₂
      exact .refl _
  refine hr₂.trans ?_
  split at h
  · obtain rfl := Except.ok.inj h
    exact .refl _
  split at h
  · obtain ⟨⟨r₃, st⟩, h₃, h⟩ := bind_ok h
    obtain rfl := Except.ok.inj h
    exact (timers_keep r₂ 0 r₂.electionElapsed).evolves.trans (step_own_evolves rfl rfl (by simp) h₃)
  · obtain rfl := Except.ok.inj h
    exact .refl _

theorem tick_evolves (h : r.tick = .ok r') : Evolves W r r' := by
  unfold Raft.tick at h
  split at h
  · exact tickHeartbeat_evolves h
  · exact tickElection_evolves h

end Dispatch

end RaftEtcd
