import RaftEtcd.Delivery
import RaftEtcd.Leading

/-! What one call can do to the unstable part of the log: leave it alone, put entries behind the
committed ones, or replace it by a snapshot that is ahead of the commit index. -/
namespace RaftEtcd
variable {r r' r'' : Raft} {msg : Message}

/-- The unstable part after a call. -/
inductive RaftLog.Reshapes (l l' : RaftLog) : Prop
  | same (unstable : l'.unstable = l.unstable)
  | appended (nonempty : l'.unstable.entries ≠ []) (offset : l'.unstable.offset ≤ l.unstable.offset)
      (beyond : l.committed + 1 < l'.unstable.offset + l'.unstable.entries.length)
      (snapshot : l'.unstable.snapshot = l.unstable.snapshot)
  | restored (s : Snapshot) (snapshot : l'.unstable.snapshot = some s) (ahead : l.committed < s.metadata.index)

namespace RaftLog
variable {l l' : RaftLog}

theorem Reshapes.refl (l : RaftLog) : l.Reshapes l := .same rfl

/-- Where the committed index stands at the end does not matter. -/
theorem Reshapes.congr {l₁ : RaftLog} (h : l.Reshapes l₁) (hu : l'.unstable = l₁.unstable) : l.Reshapes l' := by
  cases h with
  | same unstable => exact .same (hu.trans unstable)
  | appended nonempty offset beyond snapshot =>
      rw [← hu] at nonempty offset beyond snapshot
      exact .appended nonempty offset beyond snapshot
  | restored s snapshot ahead => exact .restored s (by rw [hu]; exact snapshot) ahead

theorem append_reshapes {i : Nat} {es : List Entry} (hi : 1 ≤ i) (hidx : IndexedFrom i es) (h : l.append es = .ok l') :
    l.Reshapes l' := by
  unfold append at h
  split at h
  · rw [← Except.ok.inj h]
    exact .refl l
  rename_i e es
  split at h
  · cases h
  rename_i hcom
  obtain ⟨u, hu, h⟩ := bind_ok h
  obtain ⟨hne, hoffset, hlast, -⟩ := truncateAndAppend_reaches hu
  have hfirst : e.index = i := hidx.cons.1
  rw [← Except.ok.inj h]
  exact .appended hne hoffset (by simp only; omega) (truncateAndAppend_spec hu).1

theorem commitTo_reshapes {c : Nat} (h : l.commitTo c = .ok l') : l.Reshapes l' := by
  obtain ⟨c', rfl⟩ := commitTo_frame h
  exact .same rfl

theorem maybeAppend_reshapes {index logTerm committed : Nat} {es : List Entry} {ok : Option Nat}
    (hes : IndexedFrom (index + 1) es) (h : l.maybeAppend index logTerm committed es = .ok (l', ok)) : l.Reshapes l' := by
  -- the commit index follows at the end of each branch
  have hend : ∀ {l₁ : RaftLog} {c : Nat}, l.Reshapes l₁ →
      (do let l₂ ← l₁.commitTo c; Except.ok (l₂, some (index + es.length)) : Result _) = .ok (l', ok) →
      l.Reshapes l' := by
    intro l₁ c hl₁ h
    obtain ⟨l₂, h₂, h⟩ := bind_ok h
    obtain ⟨c', rfl⟩ := commitTo_frame h₂
    rw [← (Prod.mk.inj (Except.ok.inj h)).1]
    exact hl₁.congr rfl
  unfold maybeAppend at h
  split at h
  · simp only at h
    split at h
    · exact hend (.refl l) h
    split at h
    · cases h
    · obtain ⟨l₁, h₁, h⟩ := bind_ok h
      exact hend (append_reshapes (by omega) (hes.drop _) h₁) h
  · rw [← (Prod.mk.inj (Except.ok.inj h)).1]
    exact .refl l

end RaftLog

/-- The log of a node before and after. -/
def Reshapes (r r' : Raft) : Prop := r.raftLog.Reshapes r'.raftLog

namespace Reshapes

theorem of_log (h : r'.raftLog = r.raftLog) : Reshapes r r' := .same (by rw [h])

theorem refl (r : Raft) : Reshapes r r := .of_log rfl

/-- What comes before leaves the log alone. -/
theorem after (hlog : r'.raftLog = r.raftLog) (h : Reshapes r' r'') : Reshapes r r'' := by
  unfold Reshapes at h
  rw [hlog] at h
  exact h

/-- What comes behind leaves the unstable part alone. -/
theorem before (h : Reshapes r r') (hu : r''.raftLog.unstable = r'.raftLog.unstable) : Reshapes r r'' :=
  RaftLog.Reshapes.congr h hu

theorem of_posts (h : Posts r r') : Reshapes r r' := .of_log h.raftLog

theorem of_sends (h : Sends r r') : Reshapes r r' := .of_log h.raftLog

theorem of_commit {b : Bool} (h : r.maybeCommit = .ok (r', b)) : Reshapes r r' := by
  obtain ⟨c, rfl⟩ := maybeCommit_frame h
  exact .same rfl

theorem of_append {es : List Entry} {b : Bool} (h : r.appendEntry es = .ok (r', b)) : Reshapes r r' := by
  rcases appendEntry_frame h with ⟨-, rfl⟩ | ⟨-, -, log, c, prs, lprs, u, hlog, -, -, rfl⟩
  · exact .refl _
  · exact (RaftLog.append_reshapes (by omega) (stampEntries_indexed _ _ es) hlog).congr rfl

end Reshapes

section NotLeading

theorem becomeLeader_reshapes (h : r.becomeLeader = .ok r') : Reshapes r r' := by
  obtain ⟨log, c, hlog, heq⟩ := (becomeLeader_new h).log
  refine (RaftLog.append_reshapes (by omega) (stampEntries_indexed _ _ _) hlog).congr ?_
  rw [heq]

theorem campaignElection_reshapes (hr : r.state ≠ .leader) (h : r.campaignElection = .ok r') : Reshapes r r' := by
  rw [campaignElection_eq hr] at h
  split at h
  · exact .after r.standing_raftLog (becomeLeader_reshapes h)
  · exact .after r.standing_raftLog (.of_sends (sendVoteRequests_sends h))

theorem campaign_reshapes {ty : CampaignType} (hr : r.state ≠ .leader) (h : r.campaign ty = .ok r') : Reshapes r r' := by
  rw [campaign_eq hr] at h
  have hask : r.asking.raftLog = r.raftLog := rfl
  split at h
  · split at h
    · exact .after hask (campaignElection_reshapes nofun h)
    · exact .after hask (.of_sends (sendVoteRequests_sends h))
  · exact campaignElection_reshapes hr h

theorem stepHup_reshapes (h : r.stepHup = .ok r') : Reshapes r r' := by
  rcases stepHup_cases h with rfl | ⟨hr, hcampaign⟩
  · exact .refl r'
  · exact campaign_reshapes hr hcampaign

theorem handleAppendEntries_reshapes (hnum : IndexedFrom (msg.index + 1) msg.entries)
    (h : r.handleAppendEntries msg = .ok r') : Reshapes r r' := by
  obtain ⟨log, m, -, hlog, hsent⟩ := handleAppendEntries_cases h
  have hsame := congrArg RaftLog.unstable (send_sends hsent).raftLog
  rcases hlog with rfl | ⟨ok, happend⟩
  · exact .of_sends (send_sends hsent)
  · have hlog : Reshapes r { r with raftLog := log } := RaftLog.maybeAppend_reshapes hnum happend
    exact hlog.before hsame

theorem handleHeartbeat_reshapes (h : r.handleHeartbeat msg = .ok r') : Reshapes r r' := by
  obtain ⟨log, hcommit, h⟩ := bind_ok h
  have hlog : Reshapes r { r with raftLog := log } := RaftLog.commitTo_reshapes hcommit
  exact hlog.before (congrArg RaftLog.unstable (send_sends h).raftLog)

theorem handleSnapshot_reshapes (h : r.handleSnapshot msg = .ok r') : Reshapes r r' := by
  obtain ⟨⟨r₁, b⟩, h₁, h⟩ := bind_ok h
  have hr₁ : Reshapes r r₁ := by
    rcases restore_spec h₁ with rfl | ⟨log, hcommit, rfl⟩ | ⟨hlt, prs, lprs, l, rfl⟩
    · exact .refl _
    · exact RaftLog.commitTo_reshapes hcommit
    · exact .restored _ rfl hlt
  exact hr₁.before (congrArg RaftLog.unstable (send_sends h).raftLog)

theorem stepCandidate_reshapes (hnum : msg.Numbered) {st : Status} (h : r.stepCandidate msg = .ok (r', st)) :
    Reshapes r r' := by
  have hfollow : (r.becomeFollower msg.term msg.from_).raftLog = r.raftLog := Raft.reset_raftLog r _
  cases stepCandidate_step h with
  | keeps same =>
      rw [same]
      exact .refl r
  | appends type handled => exact .after hfollow (handleAppendEntries_reshapes (hnum type) handled)
  | beats type handled => exact .after hfollow (handleHeartbeat_reshapes handled)
  | restores type handled => exact .after hfollow (handleSnapshot_reshapes handled)
  | counts type c polled votes frame tally =>
      have hcount : c.raftLog = r.raftLog := by rw [frame]
      refine .after hcount ?_
      cases tally with
      | stands quorum role campaign => exact campaign_reshapes (by simp [role]) campaign
      | wins quorum role l lead cast =>
          exact (becomeLeader_reshapes lead).before (congrArg RaftLog.unstable (bcastAppend_posts cast).raftLog)
      | loses follows =>
          rw [follows]
          exact .of_log (Raft.reset_raftLog _ _)
      | waits same =>
          rw [same]
          exact .refl c

theorem stepFollower_reshapes (hf : r.state = .follower) (hnum : msg.Numbered) {st : Status}
    (h : r.stepFollower msg = .ok (r', st)) : Reshapes r r' := by
  have hlead : ({ r with electionElapsed := 0, lead := msg.from_ } : Raft).raftLog = r.raftLog := rfl
  cases stepFollower_step h with
  | keeps unread same =>
      rw [same]
      exact .refl r
  | forwards type sent => exact .of_sends (send_sends sent)
  | appends type handled => exact .after hlead (handleAppendEntries_reshapes (hnum type) handled)
  | beats type handled => exact .after hlead (handleHeartbeat_reshapes handled)
  | restores type handled => exact .after hlead (handleSnapshot_reshapes handled)
  | stands type promotable campaign => exact campaign_reshapes (by simp [hf]) campaign
  | reads type e one noted =>
      rw [noted]
      exact .of_log rfl

end NotLeading

theorem Leads.reshapes (h : Leads msg r r') : Reshapes r r' := by
  cases h with
  | works h =>
      obtain ⟨_, _, _, _, _, _, _, _, rfl⟩ := h.rest
      exact .same rfl
  | proposes type r₁ taken append posts =>
      obtain ⟨p, hfilter⟩ := filterConfChanges_frame r 0 msg.entries
      rw [hfilter] at append
      have happend := Reshapes.of_append append
      have hr₁ : Reshapes r r₁ := happend
      exact hr₁.before (congrArg RaftLog.unstable posts.raftLog)
  | stepsDown type lost follows =>
      rw [follows]
      exact .of_log (Raft.reset_raftLog r _)

theorem stepVote_log (h : r.stepVote msg = .ok r') : r'.raftLog = r.raftLog := by
  obtain ⟨ms, elapsed, vote, rfl⟩ := stepVote_frame h
  rfl

theorem stepBody_reshapes (hnum : msg.Numbered) {st : Status} (h : r.stepBody msg = .ok (r', st)) : Reshapes r r' := by
  unfold Raft.stepBody at h
  split at h
  · exact stepHup_reshapes (withOk_ok h)
  · exact .of_log (stepVote_log (withOk_ok h))
  · exact .of_log (stepVote_log (withOk_ok h))
  · split at h
    · rename_i hs
      exact stepFollower_reshapes hs hnum h
    · exact stepCandidate_reshapes hnum h
    · exact stepCandidate_reshapes hnum h
    · exact (stepLeader_leads h).reshapes

theorem step_reshapes (hnum : msg.Numbered) {st : Status} (h : r.step msg = .ok (r', st)) : Reshapes r r' := by
  cases step_way h with
  | stays term body => exact stepBody_reshapes hnum body
  | follows later lead heard body =>
      have hfollow : (r.becomeFollower msg.term lead).raftLog = r.raftLog := Raft.reset_raftLog r _
      exact .after hfollow (stepBody_reshapes hnum body)
  | leased later type same =>
      rw [same]
      exact .refl r
  | stale sent earlier lower =>
      rcases lowerTerm_cases lower with rfl | ⟨m, -, hsent⟩
      · exact .refl r'
      · exact .of_sends (send_sends hsent)

theorem Timed.raftLog (h : Timed r r') : r'.raftLog = r.raftLog := by
  obtain ⟨_, _, _, rfl⟩ := h
  rfl

/-- Only a proposal makes a leader write. -/
theorem leader_unstable (hl : r.state = .leader) {id : Nat} {ty : MessageType} (hty : ty = .msgCheckQuorum ∨ ty = .msgBeat)
    {st : Status} (h : r.step { from_ := id, type := ty } = .ok (r', st)) :
    r'.raftLog.unstable = r.raftLog.unstable := by
  have hlead : Leads { from_ := id, type := ty } r r' := by
    unfold Raft.step Raft.stepBody at h
    rcases hty with rfl | rfl
    · simp only [hl, if_true] at h
      exact stepLeader_leads h
    · simp only [hl, if_true] at h
      exact stepLeader_leads h
  cases hlead with
  | works h =>
      obtain ⟨_, _, _, _, _, _, _, _, rfl⟩ := h.rest
      rfl
  | proposes type r₁ taken append posts => rcases hty with rfl | rfl <;> cases type
  | stepsDown type lost follows =>
      rw [follows]
      exact congrArg RaftLog.unstable (Raft.reset_raftLog r _)

theorem tick_reshapes (h : r.tick = .ok r') : Reshapes r r' := by
  cases tick_ticks h with
  | waits timed => exact .of_log timed.raftLog
  | stands r₁ timed role promotable st step => exact .after timed.raftLog (step_reshapes (by rintro ⟨⟩) step)
  | beats r₁ r₂ r₃ role timed check timed' beat =>
      have hr₁ : r₁.state = .leader := by
        obtain ⟨_, _, _, rfl⟩ := timed
        exact role
      have hcheck : r₂.raftLog.unstable = r.raftLog.unstable := by
        rw [← timed.raftLog]
        rcases check with rfl | ⟨st, hstep⟩
        · rfl
        · exact leader_unstable hr₁ (Or.inl rfl) hstep
      have hbeat : r'.raftLog.unstable = r₃.raftLog.unstable := by
        rcases beat with rfl | ⟨hl, st, hstep⟩
        · rfl
        · exact leader_unstable hl (Or.inr rfl) hstep
      refine .same (hbeat.trans ?_)
      rw [timed'.raftLog]
      exact hcheck

theorem applyConfChange_unstable {n n' : RawNode} {cc : ConfChange} {cs : ConfState}
    (h : n.applyConfChange cc = .ok (n', cs)) : n'.raft.raftLog.unstable = n.raft.raftLog.unstable := by
  obtain ⟨_, _, _, _, _, _, _, _, heq⟩ := (applyConfChange_configures h).1.frame
  rw [heq]

theorem call_reshapes {n n' : RawNode} {a : NodeAction} (ha : a.IsCall) (h : n.run a = .ok n') :
    Reshapes n.raft n'.raft := by
  cases call_called ha h with
  | refuses same =>
      rw [same]
      exact .refl _
  | steps msg message led numbered r' st step node =>
      rw [node]
      exact step_reshapes numbered step
  | ticks r' tick node =>
      rw [node]
      exact tick_reshapes tick
  | configures cc cs apply => exact .same (applyConfChange_unstable apply)

end RaftEtcd
