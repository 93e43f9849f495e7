import RaftEtcd.QuorumCommit
import RaftEtcd.Serving

/-! Two positions that the code computes and does not check: the one of the next message in a window, and the one of
the commit index among the match indexes of the voters. Nothing but a leader without voters gets the second wrong, and
nothing the first. -/
namespace RaftEtcd
open Outcome
variable {bad : String → Prop} {r r' : Raft} {msg : Message} {n n' : RawNode}

/-- A position in the buffer of match indexes that is not in it. -/
def commitOutOfRange : String := "match_buf_[match_buf_.size() - quorum()] out of range"

/-- A message that is added to a full window. -/
def fullWindow : String := "cannot add into a full inflights"

/-- The failures that are looked at are among these two. -/
structure Misindexed (bad : String → Prop) : Prop where
  only : ∀ e, bad e → e = commitOutOfRange ∨ e = fullWindow

theorem commit_misindexed : Misindexed (· = commitOutOfRange) := ⟨fun _ => Or.inl⟩

theorem window_misindexed : Misindexed (· = fullWindow) := ⟨fun _ => Or.inr⟩

/-- The acknowledgement brings news of a learner to a leader that has no voters. -/
def Raft.HearsNoVoter (r : Raft) (msg : Message) : Prop :=
  r.state = .leader ∧ msg.type = .msgAppResp ∧ msg.reject = false ∧ (msg.term = 0 ∨ msg.term = r.term) ∧
    r.prs.keys = [] ∧ ∃ p, r.learnerPrs.lookup msg.from_ = some p ∧ p.matched < msg.index

/-- The last voter goes, and a learner stays. -/
def Raft.LosesVoters (r : Raft) (id : Nat) : Prop :=
  (r.prs.erase id).keys = [] ∧ (r.learnerPrs.erase id).keys ≠ []

section Avoiding
variable (hb : Misindexed bad)

include hb

theorem Misindexed.error {α : Type} {e : String} (he : e ≠ commitOutOfRange ∧ e ≠ fullWindow) :
    Avoids bad (.error e : Result α) := by
  refine .error fun h => ?_
  rcases hb.only e h with h | h
  · exact he.1 h
  · exact he.2 h

/-! ### The log -/

theorem slice_avoids (l : RaftLog) (low high maxSize : Nat) : Avoids bad (l.slice low high maxSize []) := by
  have hunstable : ∀ out, Avoids bad (l.sliceUnstable low high maxSize out) := by
    intro out
    unfold RaftLog.sliceUnstable
    refine .ite (.bind ?_ fun _ _ => .ok _) (.ok _)
    unfold Unstable.slice
    exact .ite (hb.error (by decide)) (.ite (hb.error (by decide)) (.ok _))
  unfold RaftLog.slice RaftLog.mustCheckOutOfBounds
  refine .bind (.ite (hb.error (by decide)) (.ite (.ok _) (.ite (hb.error (by decide)) (.ok _)))) fun _ _ => ?_
  refine .ite (.ok _) (.ite (.ok _) (.ite ?_ (hunstable _)))
  unfold MemoryStorage.entries
  refine .bind (.ite (hb.error (by decide)) (.ite (.ok _) (.ite (hb.error (by decide)) (.ite (.ok _) (.ok _))))) fun _ _ => ?_
  exact .ite (.ok _) (.ite (.ok _) (hunstable _))

theorem entries_avoids (l : RaftLog) (index maxSize : Nat) : Avoids bad (l.entries index maxSize []) := by
  unfold RaftLog.entries
  exact .ite (.ok _) (slice_avoids hb _ _ _ _)

theorem nextEntries_avoids (l : RaftLog) : Avoids bad l.nextEntries := by
  unfold RaftLog.nextEntries
  exact .ite ((slice_avoids hb _ _ _ _).bind fun _ _ => .ite (hb.error (by decide)) (.ok _)) (.ok _)

theorem lastTerm_avoids (l : RaftLog) : Avoids bad l.lastTerm := by
  unfold RaftLog.lastTerm
  split
  · exact .ok _
  · exact hb.error (by decide)

theorem append_avoids (l : RaftLog) (es : List Entry) : Avoids bad (l.append es) := by
  unfold RaftLog.append
  split
  · exact .ok _
  refine .ite (hb.error (by decide)) (.bind ?_ fun _ _ => .ok _)
  unfold Unstable.truncateAndAppend
  refine .ite (.ok _) (.ite (.ok _) (.bind ?_ fun _ _ => .ok _))
  unfold Unstable.slice
  exact .ite (hb.error (by decide)) (.ite (hb.error (by decide)) (.ok _))

theorem commitTo_avoids (l : RaftLog) (c : Nat) : Avoids bad (l.commitTo c) := by
  unfold RaftLog.commitTo
  exact .ite (.ite (hb.error (by decide)) (.ok _)) (.ok _)

theorem logMaybeCommit_avoids (l : RaftLog) (i t : Nat) : Avoids bad (l.maybeCommit i t) := by
  unfold RaftLog.maybeCommit
  split
  · split
    · exact hb.error (by decide)
    · exact .ite ((commitTo_avoids hb _ _).bind fun _ _ => .ok _) (.ok _)
  · exact .ok _

theorem maybeAppend_avoids (l : RaftLog) (index logTerm committed : Nat) (es : List Entry) :
    Avoids bad (l.maybeAppend index logTerm committed es) := by
  have hcommit : ∀ l₁ : RaftLog, Avoids bad (do
      let l ← l₁.commitTo (min committed (index + es.length))
      Except.ok (l, some (index + es.length)) : Result _) := fun l₁ => (commitTo_avoids hb _ _).bind fun _ _ => .ok _
  unfold RaftLog.maybeAppend
  refine .ite ?_ (.ok _)
  dsimp only
  split
  · exact hcommit _
  split
  · exact hb.error (by decide)
  · exact (append_avoids hb _ _).bind fun _ _ => hcommit _

/-! ### Sending -/

theorem send_avoids (r : Raft) (m : Message) : Avoids bad (r.send m) := by
  unfold Raft.send
  exact .ite (.ite (hb.error (by decide)) (.ok _)) (.ite (hb.error (by decide)) (.ok _))

theorem bcastHeartbeatWithCtx_avoids (r : Raft) (ctx : Bytes) : Avoids bad (r.bcastHeartbeatWithCtx ctx) := by
  refine Avoids.foldlM (I := fun _ => True) (fun r₁ id _ => ?_) (fun _ _ _ _ _ => trivial) _ trivial
  unfold Raft.sendHeartbeat
  split
  · exact hb.error (by decide)
  · exact send_avoids hb _ _

theorem freeTo_avoids (w : InFlights) (upTo : Nat) : Avoids bad (w.freeTo upTo) := by
  have hscan : ∀ n i idx, Avoids bad (w.freeScan upTo n i idx) := by
    intro n
    induction n with
    | zero => exact fun _ _ => .ok _
    | succ n ih =>
        intro i idx
        unfold InFlights.freeScan
        split
        · exact hb.error (by decide)
        · exact .ite (.ok _) (ih _ _)
  unfold InFlights.freeTo
  refine .ite (.ok _) ?_
  split
  · exact hb.error (by decide)
  · exact .ite (.ok _) ((hscan _ _ _).bind fun _ _ => .ok _)

/-- A peer that is not paused has room in its window. -/
theorem progressAfterSend_avoids {p : Progress} (hpaused : p.isPaused = false) (last : Nat) :
    Avoids bad (Raft.progressAfterSend p last) := by
  unfold Raft.progressAfterSend
  split
  · rename_i hstate
    simp only [Progress.isPaused, hstate] at hpaused
    unfold InFlights.add
    rw [hpaused, if_neg (by decide)]
    exact (Avoids.ite (.ok _) (hb.error (by decide))).bind fun _ _ => .ok _
  · exact .ok _
  · exact hb.error (by decide)

theorem maybeSendAppend_avoids (r : Raft) (id : Nat) (e : Bool) : Avoids bad (r.maybeSendAppend id e) := by
  unfold Raft.maybeSendAppend
  split
  · exact hb.error (by decide)
  rename_i p _
  split
  · exact .ok _
  rename_i hpaused
  refine (entries_avoids hb _ _ _).bind ?_
  rintro ⟨status, entries⟩ -
  dsimp only
  split
  · exact .ok _
  split
  · split
    · exact (Avoids.ok p).bind fun _ _ => (send_avoids hb _ _).bind fun _ _ => .ok _
    · refine (progressAfterSend_avoids hb (Bool.not_eq_true _ ▸ hpaused) _).bind fun _ _ => ?_
      exact (send_avoids hb _ _).bind fun _ _ => .ok _
  · exact .ite (.ok _) (.ite (hb.error (by decide)) ((send_avoids hb _ _).bind fun _ _ => .ok _))

theorem sendAppend_avoids (r : Raft) (id : Nat) : Avoids bad (r.sendAppend id) :=
  (maybeSendAppend_avoids hb r id true).bind fun _ _ => .ok _

theorem bcastAppend_avoids (r : Raft) : Avoids bad r.bcastAppend :=
  Avoids.foldlM (I := fun _ => True) (fun _ _ _ => sendAppend_avoids hb _ _) (fun _ _ _ _ _ => trivial) _ trivial

theorem sendAppendLoop_avoids (id fuel : Nat) (r : Raft) : Avoids bad (Raft.sendAppendLoop id fuel r) := by
  induction fuel generalizing r with
  | zero => exact hb.error (by decide)
  | succ fuel ih =>
      unfold Raft.sendAppendLoop
      exact (maybeSendAppend_avoids hb r id false).bind fun _ _ => .ite (ih _) (.ok _)

/-! ### Elections -/

/-- With a voter the position is in the buffer. -/
theorem maybeCommit_avoids (hvoter : bad commitOutOfRange → r.prs.keys ≠ []) : Avoids bad r.maybeCommit := by
  by_cases hbad : bad commitOutOfRange
  · obtain ⟨mci, -, heq⟩ := Raft.maybeCommit_picks (hvoter hbad)
    have heq : r.maybeCommit = _ := heq r.learnerPrs
    rw [heq]
    exact (logMaybeCommit_avoids hb _ _ _).bind fun _ _ => .ok _
  · have hout : ∀ {α : Type}, Avoids bad (.error commitOutOfRange : Result α) := .error hbad
    unfold Raft.maybeCommit
    refine .ite hout ?_
    split
    · exact hout
    · exact (logMaybeCommit_avoids hb _ _ _).bind fun _ _ => .ok _

theorem appendEntry_avoids (hvoter : bad commitOutOfRange → r.prs.keys ≠ []) (es : List Entry) :
    Avoids bad (r.appendEntry es) := by
  have hk := increaseUncommittedSize_keeps r (Raft.stampEntries r.term (r.raftLog.lastIndex + 1) es)
  unfold Raft.appendEntry
  dsimp only
  split
  · exact .ok _
  · rename_i r₁ hr₁
    rw [hr₁] at hk
    refine (append_avoids hb _ _).bind fun log _ => ?_
    split
    · exact hb.error (by decide)
    · refine (maybeCommit_avoids hb fun hbad => ?_).bind fun _ _ => .ok _
      rw [(modifyProgress_sends _ _ _).keys]
      exact hk.keys.symm ▸ hvoter hbad

/-- The winner of an election is a voter itself. -/
theorem becomeLeader_avoids (r : Raft) : Avoids bad r.becomeLeader := by
  unfold Raft.becomeLeader
  refine .ite (hb.error (by decide)) ?_
  dsimp only
  split
  · exact hb.error (by decide)
  rename_i p hp
  refine (appendEntry_avoids hb (fun _ => ?_) _).bind ?_
  · rw [AssocMap.keys_modify]
    exact List.ne_nil_of_mem (AList.lookup_isSome.mp (Option.isSome_of_eq_some hp))
  · rintro ⟨r₁, ok⟩ -
    exact .ite (hb.error (by decide)) (.ok _)

theorem sendVoteRequests_avoids (r : Raft) (ty : MessageType) (t : Nat) : Avoids bad (r.sendVoteRequests ty t) :=
  Avoids.foldlM (I := fun _ => True) (fun _ _ _ => (lastTerm_avoids hb _).bind fun _ _ => send_avoids hb _ _)
    (fun _ _ _ _ _ => trivial) _ trivial

theorem campaignElection_avoids (r : Raft) : Avoids bad r.campaignElection := by
  unfold Raft.campaignElection Raft.becomeCandidate
  refine (Avoids.ite (hb.error (by decide)) (.ok _)).bind fun r₁ _ => ?_
  exact .ite (becomeLeader_avoids hb _) (sendVoteRequests_avoids hb _ _ _)

theorem campaign_avoids (r : Raft) (ct : CampaignType) : Avoids bad (r.campaign ct) := by
  cases ct with
  | preElection =>
      unfold Raft.campaign Raft.becomePreCandidate
      refine (Avoids.ite (hb.error (by decide)) (.ok _)).bind fun r₁ _ => ?_
      exact .ite (campaignElection_avoids hb _) (sendVoteRequests_avoids hb _ _ _)
  | election => exact campaignElection_avoids hb r
  | transfer => exact campaignElection_avoids hb r

theorem stepHup_avoids (r : Raft) : Avoids bad r.stepHup := by
  unfold Raft.stepHup
  refine .ite ((slice_avoids hb _ _ _ _).bind ?_) (.ok _)
  rintro ⟨status, entries⟩ -
  exact .ite (hb.error (by decide)) (.ite (.ok _) (campaign_avoids hb _ _))

theorem stepVote_avoids (r : Raft) (msg : Message) : Avoids bad (r.stepVote msg) := by
  have htype : Avoids bad (voteRespMsgType msg.type) := by
    unfold voteRespMsgType
    split
    · exact .ok _
    · exact .ok _
    · exact hb.error (by decide)
  unfold Raft.stepVote RaftLog.isUpToDate
  refine .ite (.ok _) ?_
  refine ((lastTerm_avoids hb _).bind fun _ _ => .ok _).bind fun _ _ => htype.bind fun _ _ => ?_
  exact .ite ((send_avoids hb _ _).bind fun _ _ => .ok _) (send_avoids hb _ _)

/-! ### The leader -/

theorem requestCtx_avoids (m : Message) : Avoids bad (Raft.requestCtx m) := by
  unfold Raft.requestCtx
  split
  · exact hb.error (by decide)
  · exact .ok _

/-- A leader that is no voter drops its proposals. -/
theorem leaderProp_avoids (r : Raft) (msg : Message) : Avoids bad (r.leaderProp msg) := by
  unfold Raft.leaderProp
  refine .ite (hb.error (by decide)) ?_
  split
  · exact .ok _
  rename_i hself
  refine .ite (.ok _) ?_
  dsimp only
  refine (appendEntry_avoids hb (fun _ => ?_) _).bind ?_
  · rw [(filterConfChanges_keeps r 0 msg.entries).keys]
    rw [Option.isNone_iff_eq_none, ← Ne, ← Option.isSome_iff_ne_none] at hself
    exact List.ne_nil_of_mem (AList.lookup_isSome.mp hself)
  · rintro ⟨r₁, ok⟩ -
    exact .ite (.ok _) ((bcastAppend_avoids hb _).bind fun _ _ => .ok _)

theorem leaderReadIndex_avoids (r : Raft) (msg : Message) : Avoids bad (r.leaderReadIndex msg) := by
  have hadd : ∀ ro : ReadOnly, Avoids bad (ro.addRequest r.raftLog.committed msg) := by
    intro ro
    unfold ReadOnly.addRequest
    split
    · exact hb.error (by decide)
    · split <;> exact .ok _
  unfold Raft.leaderReadIndex
  dsimp only
  refine .ite (.ite (.ok _) ?_) ((requestCtx_avoids hb _).bind fun _ _ => .ok _)
  split
  · exact (hadd _).bind fun _ _ => (requestCtx_avoids hb _).bind fun _ _ => bcastHeartbeatWithCtx_avoids hb _ _
  · exact .ite ((requestCtx_avoids hb _).bind fun _ _ => .ok _) (send_avoids hb _ _)

theorem sendAfterAck_avoids (r : Raft) (id : Nat) (changed paused : Bool) : Avoids bad (r.sendAfterAck id changed paused) :=
  .ite (bcastAppend_avoids hb r) (.ite (sendAppend_avoids hb r id) (.ok _))

theorem leaderAppResp_avoids (hnews : bad commitOutOfRange → msg.reject = false → r.prs.keys = [] →
      ∀ p, r.learnerPrs.lookup msg.from_ = some p → msg.index ≤ p.matched) : Avoids bad (r.leaderAppResp msg) := by
  have hkeys : ∀ (r₁ : Raft) (f : Progress → Progress), (r₁.modifyProgress msg.from_ f).prs.keys = r₁.prs.keys :=
    fun r₁ f => (modifyProgress_sends r₁ msg.from_ f).keys
  have hget := Raft.getProgress_modifyProgress r msg.from_ msg.from_ fun p => { p with recentActive := true }
  rw [if_pos rfl] at hget
  unfold Raft.leaderAppResp
  dsimp only
  rw [hget]
  cases hp : r.getProgress msg.from_ with
  | none => exact .ok _
  | some p =>
      simp only [Option.map_some]
      split
      · split
        · exact .ok _
        · exact sendAppend_avoids hb _ _
      rename_i haccept
      split
      · exact .ok _
      rename_i q hq
      have hack : Avoids bad (Raft.progressAfterAck q msg.index) := by
        unfold Raft.progressAfterAck
        exact .ite (.ok _) (.ite (.ok _) (.ite ((freeTo_avoids hb _ _).bind fun _ _ => .ok _) (.ok _)))
      refine hack.bind fun q' _ => (maybeCommit_avoids hb fun hbad hnone => ?_).bind ?_
      · -- without voters the sender is a learner, and has nothing new
        rw [hkeys, hkeys] at hnone
        have hlearner : r.learnerPrs.lookup msg.from_ = some p := by
          rcases getProgress_mem hp with hvoter | ⟨-, hlearner⟩
          · have hmem := AList.lookup_isSome.mp (Option.isSome_of_eq_some hvoter)
            rw [AList.mem_keys, hnone] at hmem
            cases hmem
          · exact hlearner
        have hold := hnews hbad (Bool.not_eq_true _ ▸ haccept) hnone p hlearner
        have hfresh : p.matched < msg.index := of_decide_eq_true (Prod.mk.inj hq).2
        omega
      · rintro ⟨r₁, changed⟩ -
        refine (sendAfterAck_avoids hb _ _ _ _).bind fun r₂ _ => (sendAppendLoop_avoids hb _ _ _).bind fun r₃ _ => ?_
        split
        · exact .ok _
        · exact .ite (send_avoids hb _ _) (.ok _)

theorem answerReads_avoids (r : Raft) (rss : List ReadIndexStatus) : Avoids bad (r.answerReads rss) := by
  refine Avoids.foldlM (I := fun _ => True) ?_ (fun _ _ _ _ _ => trivial) rss trivial
  intro r₁ rs _
  exact .ite ((requestCtx_avoids hb _).bind fun _ _ => .ok _) (send_avoids hb _ _)

theorem readAdvance_avoids (ro : ReadOnly) (msg : Message) : Avoids bad (ro.advance msg) := by
  have hcollect : ∀ ctx queue, Avoids bad (ro.collect ctx queue) := by
    intro ctx queue
    induction queue with
    | nil => exact .ok _
    | cons okctx rest ih =>
        unfold ReadOnly.collect
        split
        · exact hb.error (by decide)
        · exact .ite (.ok _) (ih.bind fun _ _ => .ok _)
  have herase : ∀ rss pending, Avoids bad (ReadOnly.erasePending pending rss) := by
    intro rss
    induction rss with
    | nil => exact fun _ => .ok _
    | cons rs rss ih =>
        intro pending
        unfold ReadOnly.erasePending
        split
        · exact hb.error (by decide)
        · exact ih _
  refine (hcollect _ _).bind ?_
  rintro ⟨rss, found⟩ -
  exact .ite ((herase _ _).bind fun _ _ => .ok _) (.ok _)

theorem leaderHeartbeatResp_avoids (r : Raft) (msg : Message) : Avoids bad (r.leaderHeartbeatResp msg) := by
  have hbeat : ∀ p, Avoids bad (Raft.progressAfterBeat p) := by
    intro p
    unfold Raft.progressAfterBeat
    exact .ite ((freeTo_avoids hb _ _).bind fun _ _ => .ok _) (.ok _)
  -- what follows the entries that are sent
  have hreads : ∀ r₁ : Raft, Avoids bad (if r₁.readOnly.option ≠ .safe ∨ msg.context = [] then .ok r₁ else
      if (r₁.readOnly.recvAck msg).2 < Raft.quorum { r₁ with readOnly := (r₁.readOnly.recvAck msg).1 } then
        .ok { r₁ with readOnly := (r₁.readOnly.recvAck msg).1 }
      else do
        let read ← (r₁.readOnly.recvAck msg).1.advance msg
        Raft.answerReads { { r₁ with readOnly := (r₁.readOnly.recvAck msg).1 } with readOnly := read.1 } read.2) :=
    fun r₁ => .ite (.ok _) (.ite (.ok _) ((readAdvance_avoids hb _ _).bind fun _ _ => answerReads_avoids hb _ _))
  unfold Raft.leaderHeartbeatResp
  split
  · exact .ok _
  refine (hbeat _).bind fun pr _ => ?_
  dsimp only
  split
  · exact (sendAppend_avoids hb _ _).bind fun r₁ _ => hreads r₁
  · exact (Avoids.ok _).bind fun r₁ _ => hreads r₁

theorem leaderTransferLeader_avoids (r : Raft) (pr : Progress) (msg : Message) : Avoids bad (r.leaderTransferLeader pr msg) := by
  unfold Raft.leaderTransferLeader
  refine .ite (.ok _) (.ite (.ok _) ?_)
  dsimp only
  exact .ite (.ok _) (.ite (send_avoids hb _ _) (sendAppend_avoids hb _ _))

omit hb in
theorem withOk_avoids {x : Result Raft} (h : Avoids bad x) : Avoids bad (Raft.withOk x) := h.bind fun _ _ => .ok _

theorem stepLeader_avoids (hnews : bad commitOutOfRange → msg.type = .msgAppResp → msg.reject = false → r.prs.keys = [] →
      ∀ p, r.learnerPrs.lookup msg.from_ = some p → msg.index ≤ p.matched) : Avoids bad (r.stepLeader msg) := by
  unfold Raft.stepLeader
  split
  · exact withOk_avoids (bcastHeartbeatWithCtx_avoids hb _ _)
  · exact .ok _
  · exact leaderProp_avoids hb r msg
  · exact withOk_avoids (leaderReadIndex_avoids hb r msg)
  refine withOk_avoids ?_
  unfold Raft.stepLeaderProgress
  split
  · exact .ok _
  split
  · rename_i hty
    exact leaderAppResp_avoids hb fun hbad => hnews hbad hty
  · exact leaderHeartbeatResp_avoids hb r msg
  · exact .ok _
  · exact .ok _
  · exact leaderTransferLeader_avoids hb r _ msg
  · exact .ok _

/-! ### The other roles -/

theorem handleAppendEntries_avoids (r : Raft) (msg : Message) : Avoids bad (r.handleAppendEntries msg) := by
  unfold Raft.handleAppendEntries
  refine .ite (send_avoids hb _ _) ((maybeAppend_avoids hb _ _ _ _ _).bind ?_)
  rintro ⟨log, ok⟩ -
  dsimp only
  split <;> exact send_avoids hb _ _

theorem handleHeartbeat_avoids (r : Raft) (msg : Message) : Avoids bad (r.handleHeartbeat msg) :=
  (commitTo_avoids hb _ _).bind fun _ _ => send_avoids hb _ _

theorem setProgress_avoids (r : Raft) (id matched next : Nat) (b : Bool) : Avoids bad (r.setProgress id matched next b) :=
  .ite (.ok _) (.ite (hb.error (by decide)) (.ok _))

theorem handleSnapshot_avoids (r : Raft) (msg : Message) : Avoids bad (r.handleSnapshot msg) := by
  have hnodes : ∀ (r : Raft) nodes b, Avoids bad (r.restoreNode nodes b) := by
    intro r nodes b
    refine Avoids.foldlM (I := fun _ => True) (fun r₁ node _ => ?_) (fun _ _ _ _ _ => trivial) nodes trivial
    refine (setProgress_avoids hb _ _ _ _ _).bind fun r₂ _ => ?_
    split
    · exact hb.error (by decide)
    · exact .ok _
  have hrestore : Avoids bad (r.restore msg.snapshot) := by
    unfold Raft.restore
    refine .ite (.ok _) (.ite ((commitTo_avoids hb _ _).bind fun _ _ => .ok _) (.ite (.ok _) ?_))
    exact (hnodes _ _ _).bind fun _ _ => (hnodes _ _ _).bind fun _ _ => .ok _
  exact hrestore.bind fun _ _ => send_avoids hb _ _

theorem stepCandidate_avoids (r : Raft) (msg : Message) : Avoids bad (r.stepCandidate msg) := by
  have htally : Avoids bad (if (r.poll msg.from_ (!msg.reject)).1.quorum = (r.poll msg.from_ (!msg.reject)).2 then
      if (r.poll msg.from_ (!msg.reject)).1.state = .preCandidate then
        Raft.withOk ((r.poll msg.from_ (!msg.reject)).1.campaign .election)
      else if (r.poll msg.from_ (!msg.reject)).1.state = .candidate then Raft.withOk (do
        let r ← (r.poll msg.from_ (!msg.reject)).1.becomeLeader
        r.bcastAppend)
      else .error "assert(state_ == RaftState::Candidate)"
    else if (r.poll msg.from_ (!msg.reject)).1.quorum =
        (r.poll msg.from_ (!msg.reject)).1.votes.keys.length - (r.poll msg.from_ (!msg.reject)).2 then
      .ok ((r.poll msg.from_ (!msg.reject)).1.becomeFollower (r.poll msg.from_ (!msg.reject)).1.term 0, .ok)
    else .ok ((r.poll msg.from_ (!msg.reject)).1, .ok) : Result (Raft × Status)) := by
    refine .ite (.ite (withOk_avoids (campaign_avoids hb _ _)) (.ite (withOk_avoids ?_) (hb.error (by decide))))
      (.ite (.ok _) (.ok _))
    exact (becomeLeader_avoids hb _).bind fun _ _ => bcastAppend_avoids hb _
  unfold Raft.stepCandidate
  split
  · exact .ok _
  · exact withOk_avoids (handleAppendEntries_avoids hb _ _)
  · exact withOk_avoids (handleHeartbeat_avoids hb _ _)
  · exact withOk_avoids (handleSnapshot_avoids hb _ _)
  · exact htally
  · exact htally
  · exact .ok _

theorem stepFollower_avoids (r : Raft) (msg : Message) : Avoids bad (r.stepFollower msg) := by
  unfold Raft.stepFollower
  split
  · exact .ite (.ok _) (.ite (.ok _) (withOk_avoids (send_avoids hb _ _)))
  · exact withOk_avoids (handleAppendEntries_avoids hb _ _)
  · exact withOk_avoids (handleHeartbeat_avoids hb _ _)
  · exact withOk_avoids (handleSnapshot_avoids hb _ _)
  · exact .ite (.ok _) (withOk_avoids (send_avoids hb _ _))
  · exact .ite (.ok _) (withOk_avoids (send_avoids hb _ _))
  · exact .ite (withOk_avoids (campaign_avoids hb _ _)) (.ok _)
  · split <;> exact .ok _
  · exact .ok _

/-! ### A whole action -/

theorem stepBody_avoids (hnews : bad commitOutOfRange → r.state = .leader → msg.type = .msgAppResp → msg.reject = false →
      r.prs.keys = [] → ∀ p, r.learnerPrs.lookup msg.from_ = some p → msg.index ≤ p.matched) : Avoids bad (r.stepBody msg) := by
  unfold Raft.stepBody
  split
  · exact withOk_avoids (stepHup_avoids hb r)
  · exact withOk_avoids (stepVote_avoids hb r msg)
  · exact withOk_avoids (stepVote_avoids hb r msg)
  · split
    · exact stepFollower_avoids hb r msg
    · exact stepCandidate_avoids hb r msg
    · exact stepCandidate_avoids hb r msg
    · rename_i hl
      exact stepLeader_avoids hb fun hbad => hnews hbad hl

theorem step_avoids (hnews : bad commitOutOfRange → ¬ r.HearsNoVoter msg) : Avoids bad (r.step msg) := by
  have hterm : msg.term = 0 ∨ msg.term = r.term → Avoids bad (r.stepBody msg) := by
    intro hterm
    refine stepBody_avoids hb fun hbad hl hty haccept hnone p hp => ?_
    by_contra hfresh
    exact hnews hbad ⟨hl, hty, haccept, hterm, hnone, p, hp, Nat.not_le.mp hfresh⟩
  unfold Raft.step
  split
  · rename_i hzero
    exact hterm (Or.inl hzero)
  split
  · refine .ite (.ok _) ?_
    rcases higherTerm_cases r msg with ⟨heq, hkind⟩ | ⟨lead, heq⟩
    · rw [heq]
      refine stepBody_avoids hb fun _ _ hty => ?_
      rcases hkind with hkind | hkind
      · cases hkind.symm.trans hty
      · cases hkind.symm.trans hty
    · rw [heq]
      exact stepBody_avoids hb fun _ hl => by cases hl
  split
  · refine withOk_avoids ?_
    unfold Raft.lowerTerm
    exact .ite (send_avoids hb _ _) (.ite (send_avoids hb _ _) (.ok _))
  · rename_i hge hle
    exact hterm (Or.inr (by omega))

/-- What a node steps for itself is no acknowledgement. -/
theorem step_local_avoids (r : Raft) (hty : msg.type ≠ .msgAppResp) : Avoids bad (r.step msg) :=
  step_avoids hb fun _ h => hty h.2.1

theorem tick_avoids (r : Raft) : Avoids bad r.tick := by
  have hcheck : ∀ r : Raft, Avoids bad r.tickCheckQuorum := by
    intro r
    unfold Raft.tickCheckQuorum
    dsimp only
    split
    · exact ((step_local_avoids hb _ (by simp)).map _).bind fun _ _ => .ok _
    · exact .ok _
  have hbeat : ∀ r₁ : Raft, Avoids bad (if r₁.state ≠ .leader then .ok r₁
      else if r₁.heartbeatElapsed ≥ r₁.heartbeatTimeout then do
        let beaten ← Raft.step { r₁ with heartbeatElapsed := 0 } { from_ := r₁.id, type := .msgBeat }
        .ok beaten.1
      else .ok r₁ : Result Raft) :=
    fun r₁ => .ite (.ok _) (.ite ((step_local_avoids hb _ (by simp)).bind fun _ _ => .ok _) (.ok _))
  unfold Raft.tick
  split
  · unfold Raft.tickHeartbeat
    dsimp only
    split
    · exact (hcheck _).bind fun r₁ _ => hbeat r₁
    · exact (Avoids.ok _).bind fun r₁ _ => hbeat r₁
  · unfold Raft.tickElection
    exact .ite ((step_local_avoids hb _ (by simp)).bind fun _ _ => .ok _) (.ok _)

theorem addNodeOrLearner_avoids (r : Raft) (id : Nat) (b : Bool) : Avoids bad (r.addNodeOrLearner id b) := by
  unfold Raft.addNodeOrLearner
  split
  · exact (setProgress_avoids hb _ _ _ _ _).bind fun _ _ => .ok _
  · exact .ite (.ok _) (.ite (.ok _) (.ok _))

theorem removeNode_avoids {id : Nat} (hloses : bad commitOutOfRange → ¬ r.LosesVoters id) : Avoids bad (r.removeNode id) := by
  unfold Raft.removeNode
  dsimp only
  split
  · exact .ok _
  rename_i hsome
  refine (maybeCommit_avoids hb fun hbad hnone => ?_).bind fun q _ => ?_
  · exact hloses hbad ⟨hnone, fun hlearners => hsome ⟨hnone, hlearners⟩⟩
  · split
    · exact (bcastAppend_avoids hb _).bind fun _ _ => .ok _
    · exact .ok _

end Avoiding

/-- The actions in which the position of the commit index is not in the buffer. -/
inductive RawNode.Misreads (n : RawNode) : NodeAction → Prop
  | removes (cc : ConfChange) (node : cc.nodeId ≠ 0) (type : cc.confChangeType = confChangeRemoveNode)
      (loses : n.raft.LosesVoters cc.nodeId) : Misreads n (.applyConfChange cc)
  | hears (msg : Message) (news : n.raft.HearsNoVoter msg) : Misreads n (.step msg)

theorem run_avoids (hb : Misindexed bad) {a : NodeAction} (ha : bad commitOutOfRange → ¬ n.Misreads a) :
    Avoids bad (n.run a) := by
  have hlocal : ∀ msg : Message, msg.type ≠ .msgAppResp → Avoids bad (Prod.fst <$> n.stepRaft msg) := fun msg hty =>
    ((step_local_avoids hb n.raft hty).bind fun _ _ => .ok _).map _
  cases a with
  | tick => exact (tick_avoids hb _).bind fun _ _ => .ok _
  | step msg =>
      have hstep : Avoids bad (n.stepRaft msg) :=
        (step_avoids hb fun hbad hnews => ha hbad (.hears msg hnews)).bind fun _ _ => .ok _
      refine Avoids.map ?_ _
      unfold RawNode.step
      exact .ite (.ok _) (.ite hstep (.ok _))
  | campaign => exact hlocal _ nofun
  | propose data => exact hlocal _ nofun
  | proposeConfChange data => exact hlocal _ nofun
  | transferLeadership lead transferee => exact hlocal _ nofun
  | readIndex rctx => exact hlocal _ nofun
  | reportUnreachable id => exact hlocal _ nofun
  | reportSnapshot id failure => exact hlocal _ nofun
  | applyConfChange cc =>
      refine Avoids.map ?_ _
      unfold RawNode.applyConfChange
      dsimp only
      split
      · exact .ok _
      rename_i hnode
      refine .ite ((addNodeOrLearner_avoids hb _ _ _).bind fun _ _ => .ok _) ?_
      refine .ite ((addNodeOrLearner_avoids hb _ _ _).bind fun _ _ => .ok _) ?_
      split
      · rename_i hty
        exact (removeNode_avoids hb fun hbad hloses => ha hbad (.removes cc hnode hty hloses)).bind fun _ _ => .ok _
      · exact .ite (.ok _) ((hb.error (by decide)).bind fun _ _ => .ok _)
  | ready => exact ((((nextEntries_avoids hb _).bind fun _ _ => .ok _).bind fun _ _ => .ok _).map _)
  | advance rd => exact .ok _
  | store storage => exact .ok _

theorem step_leader_appResp (hl : r.state = .leader) (hty : msg.type = .msgAppResp) (hterm : msg.term = 0 ∨ msg.term = r.term)
    (hfrom : (r.getProgress msg.from_).isSome) : r.step msg = Raft.withOk (r.leaderAppResp msg) := by
  obtain ⟨p, hp⟩ := Option.isSome_iff_exists.mp hfrom
  have hbody : r.stepBody msg = Raft.withOk (r.leaderAppResp msg) := by
    unfold Raft.stepBody
    rw [hty, hl]
    simp only [Raft.stepLeader, hty, Raft.stepLeaderProgress, hp]
  unfold Raft.step
  rcases hterm with hterm | hterm
  · rw [if_pos hterm, hbody]
  · rw [hterm, if_neg (lt_irrefl _), if_neg (lt_irrefl _), hbody, ite_self]

end RaftEtcd
