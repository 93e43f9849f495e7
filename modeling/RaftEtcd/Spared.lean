import RaftEtcd.Evolve.Step
import RaftEtcd.Lib.Outcome
import RaftEtcd.Refine.Run

/-! Which calls on a node cannot end in a fatal check of the log. A node that was never compacted
only relies on its log being in order, except where a message tells it what to append or commit. -/
namespace RaftEtcd
open Consensus Outcome
variable {cfg : ClusterConfig} {N : Set (Msg Nat Entry)} {l l' : RaftLog} {r r' : Raft} {msg : Message}

/-- The fatal checks of `commit_to`, `maybe_append`, `append` and `Unstable::slice`. -/
def logFatals : List String :=
  ["to_commit(%lu) is out of range [lastIndex(%lu)]. was the raft log corrupted,truncated or lost?",
    "entry %lu conflict with committed entry [committed(%lu)]",
    "after(%lu) is out of range [committed(%lu)]\",after ,committed",
    "unstable.slice[%lu,%lu) out of bound [%lu,%lu]"]

/-- The call reaches none of them. -/
abbrev Spared {α : Type} (x : Result α) : Prop := Avoids (· ∈ logFatals) x

namespace RaftLog

theorem Whole.slice_spared (h : l.Whole) (low high maxSize : Nat) : Spared (l.slice low high maxSize []) := by
  have hfirst := h.firstIndex_eq
  have hlast := h.lastIndex_eq
  by_cases hin : low ≤ high ∧ 1 ≤ low ∧ high ≤ l.log.length + 1
  · obtain ⟨es, hes, -⟩ := h.slice_spec maxSize hin.2.1 hin.1 hin.2.2
    exact .of_ok hes
  · -- outside the log the bounds are refused before anything is read
    unfold slice mustCheckOutOfBounds
    rw [hfirst, hlast]
    split
    · exact .error (by decide)
    · split
      · exact .ok _
      · split
        · exact .error (by decide)
        · omega

theorem Whole.entries_spared (h : l.Whole) (index maxSize : Nat) : Spared (l.entries index maxSize []) := by
  unfold entries
  split
  · exact .ok _
  · exact h.slice_spared _ _ _

theorem Whole.nextEntries_spared (h : l.Whole) : Spared l.nextEntries := by
  unfold nextEntries
  dsimp only
  split
  · refine (h.slice_spared _ _ _).bind ?_
    rintro ⟨status, out⟩ -
    dsimp only
    split
    · exact .error (by decide)
    · exact .ok _
  · exact .ok _

/-- Entries that start inside the log or right behind it, above the commit index, can be appended. -/
theorem Whole.append_spared (h : l.Whole) {s : Nat} {ents : List Entry} (hidx : IndexedFrom s ents)
    (hs : s ≤ l.log.length + 1) (hc : l.committed < s) : Spared (l.append ents) := by
  cases ents with
  | nil => exact .ok l
  | cons e es =>
      have hlen := h.length_log
      have hpos := h.offset_pos
      have he : e.index = s := hidx.cons.1
      unfold append
      dsimp only
      rw [he, if_neg (by omega)]
      refine Avoids.bind ?_ fun _ _ => .ok _
      unfold Unstable.truncateAndAppend
      dsimp only
      rw [he]
      split
      · exact .ok _
      · split
        · exact .ok _
        · refine Avoids.bind ?_ fun _ _ => .ok _
          unfold Unstable.slice
          rw [if_neg (by omega), if_neg (by omega)]
          exact .ok _

theorem Whole.commitTo_spared (h : l.Whole) {c : Nat} (hc : c ≤ l.log.length) : Spared (l.commitTo c) := by
  unfold commitTo
  rw [h.lastIndex_eq]
  split
  · rw [if_neg (by omega)]
    exact .ok _
  · exact .ok _

/-- An index beyond the log has term 0, which is the term of no leader. -/
theorem Whole.maybeCommit_spared (h : l.Whole) {t : Nat} (ht : t ≠ 0) (i : Nat) : Spared (l.maybeCommit i t) := by
  unfold maybeCommit
  split
  · rw [h.term_eq]
    dsimp only
    split
    · rename_i hterm
      have hi : i ≤ l.log.length := le_length_of_termAt_pos (by rw [hterm]; omega)
      exact (h.commitTo_spared hi).bind fun _ _ => .ok _
    · exact .ok _
  · exact .ok _

/-- What an honest leader sends, at or above the commit index of the receiver, is appended or
refused. -/
theorem Whole.maybeAppend_spared (h : l.Whole) {index logTerm : Nat} {ents : List Entry} (committed : Nat)
    (hidx : IndexedFrom (index + 1) ents) (hc : l.committed ≤ index) (hprev : index ≠ 0 → logTerm ≠ 0)
    (hterms : ∀ e ∈ ents, e.term ≠ 0) : Spared (l.maybeAppend index logTerm committed ents) := by
  unfold maybeAppend
  split
  · rename_i hmatch
    have hterm := (h.matchTerm_iff _ _).mp hmatch
    have hin : index ≤ l.log.length := by
      by_contra hout
      rw [termAt_eq_zero (by omega)] at hterm
      exact hprev (by omega) hterm
    -- a stretch of entries that the log holds lies inside it
    have hstretch : ∀ k, k ≤ ents.length →
        (∀ j, 1 ≤ j → j ≤ k → termAt Entry.term l.log (index + j) = termAt Entry.term ents j) →
        index + k ≤ l.log.length := by
      intro k hk hall
      rcases Nat.eq_zero_or_pos k with rfl | hk1
      · exact hin
      · obtain ⟨e, he, hte⟩ : ∃ e ∈ ents, termAt Entry.term ents k = e.term := termAt_mem hk1 hk
        have hne := hterms e he
        have hpos : 1 ≤ termAt Entry.term l.log (index + k) := by
          rw [hall k hk1 le_rfl, hte]
          omega
        exact le_length_of_termAt_pos hpos
    dsimp only
    rcases h.findConflict_spec index ents hidx with ⟨h0, hall⟩ | ⟨k, hk, hconf, hall, -⟩
    · rw [h0, if_pos rfl]
      have hend := hstretch ents.length le_rfl hall
      exact (h.commitTo_spared (by omega)).bind fun _ _ => .ok _
    · have hstart := hstretch k hk.le hall
      have hdrop : IndexedFrom (index + k + 1) (ents.drop k) := by
        have hd := hidx.drop k
        rwa [show index + 1 + k = index + k + 1 by omega] at hd
      rw [hconf, if_neg (by omega), if_neg (by omega), show index + k + 1 - (index + 1) = k by omega]
      refine (h.append_spared hdrop (by omega) (by omega)).bind fun l₁ h₁ => ?_
      obtain ⟨hw, hlog, -⟩ := h.append_spec (by omega) (by rw [Ne, List.drop_eq_nil_iff]; omega) hdrop h₁
      have hlen : l₁.log.length = index + ents.length := by
        rw [hlog, List.length_append, List.length_take, List.length_drop]
        omega
      exact (hw.commitTo_spared (by omega)).bind fun _ _ => .ok _
  · exact .ok _

end RaftLog

section Sending

theorem send_spared (r : Raft) (m : Message) : Spared (r.send m) := by
  unfold Raft.send
  dsimp only
  split
  · split
    · exact .error (by decide)
    · exact .ok _
  · split
    · exact .error (by decide)
    · exact .ok _

/-- A loop whose rounds need the log in order and only send. -/
theorem sending_spared {α : Type} {f : Raft → α → Result Raft}
    (hf : ∀ r₁ x, r₁.raftLog.Whole → Spared (f r₁ x)) (hs : ∀ r₁ x r₂, f r₁ x = .ok r₂ → Sends r₁ r₂)
    (xs : List α) (hw : r.raftLog.Whole) : Spared (xs.foldlM f r) := by
  refine Avoids.foldlM (I := fun r => r.raftLog.Whole) hf ?_ xs hw
  intro r₁ x r₂ hw₁ h₁
  rw [(hs r₁ x r₂ h₁).raftLog]
  exact hw₁

theorem sendHeartbeat_spared (r : Raft) (id : Nat) (ctx : Bytes) : Spared (r.sendHeartbeat id ctx) := by
  unfold Raft.sendHeartbeat
  split
  · exact .error (by decide)
  · exact send_spared _ _

theorem bcastHeartbeatWithCtx_spared (hw : r.raftLog.Whole) (ctx : Bytes) : Spared (r.bcastHeartbeatWithCtx ctx) :=
  sending_spared (fun _ _ _ => sendHeartbeat_spared _ _ _) (fun _ _ _ h => sendHeartbeat_sends h) _ hw

theorem freeScan_spared (w : InFlights) (upTo n i idx : Nat) : Spared (w.freeScan upTo n i idx) := by
  induction n generalizing i idx with
  | zero => exact .ok _
  | succ n ih =>
      unfold InFlights.freeScan
      split
      · exact .error (by decide)
      · split
        · exact .ok _
        · exact ih _ _

theorem freeTo_spared (w : InFlights) (upTo : Nat) : Spared (w.freeTo upTo) := by
  unfold InFlights.freeTo
  split
  · exact .ok _
  · split
    · exact .error (by decide)
    · split
      · exact .ok _
      · exact (freeScan_spared _ _ _ _ _).bind fun _ _ => .ok _

theorem add_spared (w : InFlights) (inflight : Nat) : Spared (w.add inflight) := by
  unfold InFlights.add
  exact .ite (.error (by decide)) (.ite (.ok _) (.error (by decide)))

theorem progressAfterSend_spared (p : Progress) (last : Nat) : Spared (Raft.progressAfterSend p last) := by
  unfold Raft.progressAfterSend
  split
  · exact (add_spared _ _).bind fun _ _ => .ok _
  · exact .ok _
  · exact .error (by decide)

theorem maybeSendAppend_spared (hw : r.raftLog.Whole) (id : Nat) (sendIfEmpty : Bool) :
    Spared (r.maybeSendAppend id sendIfEmpty) := by
  unfold Raft.maybeSendAppend
  split
  · exact .error (by decide)
  rename_i p _
  split
  · exact .ok _
  dsimp only
  refine (hw.entries_spared _ _).bind ?_
  rintro ⟨status, entries⟩ -
  dsimp only
  split
  · exact .ok _
  · split
    · -- the progress is noted before the message goes out
      split
      · exact (Avoids.ok p).bind fun _ _ => (send_spared _ _).bind fun _ _ => .ok _
      · exact (progressAfterSend_spared _ _).bind fun _ _ => (send_spared _ _).bind fun _ _ => .ok _
    · split
      · exact .ok _
      · split
        · exact .error (by decide)
        · exact (send_spared _ _).bind fun _ _ => .ok _

theorem sendAppend_spared (hw : r.raftLog.Whole) (id : Nat) : Spared (r.sendAppend id) :=
  (maybeSendAppend_spared hw id true).bind fun _ _ => .ok _

theorem bcastAppend_spared (hw : r.raftLog.Whole) : Spared r.bcastAppend :=
  sending_spared (fun _ id hw₁ => sendAppend_spared hw₁ id) (fun _ _ _ h => sendAppend_sends h) _ hw

theorem sendAppendLoop_spared (hw : r.raftLog.Whole) (id fuel : Nat) : Spared (Raft.sendAppendLoop id fuel r) := by
  induction fuel generalizing r with
  | zero => exact .error (by decide)
  | succ fuel ih =>
      unfold Raft.sendAppendLoop
      refine (maybeSendAppend_spared hw id false).bind ?_
      rintro ⟨r₁, sent⟩ h₁
      dsimp only
      split
      · exact ih ((maybeSendAppend_sends h₁).raftLog ▸ hw)
      · exact .ok _

theorem sendVoteRequests_spared (hw : r.raftLog.Whole) (ty : MessageType) (t : Nat) :
    Spared (r.sendVoteRequests ty t) := by
  refine sending_spared ?_ ?_ _ hw
  · intro r₁ id hw₁
    rw [hw₁.lastTerm_eq]
    exact (Avoids.ok _).bind fun _ _ => send_spared _ _
  · intro r₁ id r₂ h
    obtain ⟨lt, -, h⟩ := bind_ok h
    exact send_sends h

end Sending

section Electing

theorem maybeCommit_spared (hw : r.raftLog.Whole) (ht : r.term ≠ 0) : Spared r.maybeCommit := by
  unfold Raft.maybeCommit
  dsimp only
  split
  · exact .error (by decide)
  · split
    · exact .error (by decide)
    · exact (hw.maybeCommit_spared ht _).bind fun _ _ => .ok _

theorem maybeCommit_whole (hw : r.raftLog.Whole) {b : Bool} (h : r.maybeCommit = .ok (r', b)) :
    r'.raftLog.Whole := by
  unfold Raft.maybeCommit at h
  dsimp only at h
  split at h
  · cases h
  split at h
  · cases h
  obtain ⟨⟨log, changed⟩, hlog, h⟩ := bind_ok h
  rw [← (Prod.mk.inj (Except.ok.inj h)).1]
  rcases RaftLog.maybeCommit_spec hw hlog with rfl | ⟨-, hle, -, rfl⟩
  · exact hw
  · exact hw.withCommitted hle

/-- New entries go behind the last one. -/
theorem appendNew_spared (hw : l.Whole) (t : Nat) (es : List Entry) :
    Spared (l.append (Raft.stampEntries t (l.lastIndex + 1) es)) := by
  have hidx := stampEntries_indexed t (l.lastIndex + 1) es
  have hle := hw.committed_le
  have hlast := hw.lastIndex_eq
  exact hw.append_spared hidx (by omega) (by omega)

theorem appendNew_whole (hw : l.Whole) {t : Nat} {es : List Entry}
    (h : l.append (Raft.stampEntries t (l.lastIndex + 1) es) = .ok l') : l'.Whole := by
  have hidx := stampEntries_indexed t (l.lastIndex + 1) es
  by_cases hne : Raft.stampEntries t (l.lastIndex + 1) es = []
  · rw [hne] at h
    obtain rfl := Except.ok.inj h
    exact hw
  · exact (hw.append_spec (Nat.le_add_left 1 _) hne hidx h).1

/-- The log is appended to before the commit index is looked at. -/
theorem appendEntry_spared (hw : r.raftLog.Whole) (ht : r.term ≠ 0) (es : List Entry) :
    Spared (r.appendEntry es) := by
  have hk := increaseUncommittedSize_keeps r (Raft.stampEntries r.term (r.raftLog.lastIndex + 1) es)
  unfold Raft.appendEntry
  dsimp only
  split
  · exact .ok _
  · rename_i r₁ hr₁
    rw [hr₁] at hk
    have hlog : r₁.raftLog = r.raftLog := hk.raftLog
    have hterm : r₁.term = r.term := hk.term
    rw [hlog]
    refine (appendNew_spared hw r.term es).bind fun log h₁ => ?_
    split
    · exact .error (by decide)
    · refine (maybeCommit_spared ?_ ?_).bind fun _ _ => .ok _
      · rw [(modifyProgress_sends _ _ _).raftLog]
        exact appendNew_whole hw h₁
      · rw [(modifyProgress_sends _ _ _).term]
        exact hterm.trans_ne ht

theorem appendEntry_whole (hw : r.raftLog.Whole) {es : List Entry} {b : Bool}
    (h : r.appendEntry es = .ok (r', b)) : r'.raftLog.Whole := by
  have hk := increaseUncommittedSize_keeps r (Raft.stampEntries r.term (r.raftLog.lastIndex + 1) es)
  unfold Raft.appendEntry at h
  dsimp only at h
  split at h
  · rename_i r₁ hr₁
    rw [hr₁] at hk
    have hlog : r₁.raftLog = r.raftLog := hk.raftLog
    rw [← (Prod.mk.inj (Except.ok.inj h)).1, hlog]
    exact hw
  · rename_i r₁ hr₁
    rw [hr₁] at hk
    have hlog : r₁.raftLog = r.raftLog := hk.raftLog
    rw [hlog] at h
    obtain ⟨log, h₁, h⟩ := bind_ok h
    split at h
    · cases h
    · obtain ⟨⟨r₂, c⟩, h₂, h⟩ := bind_ok h
      rw [← (Prod.mk.inj (Except.ok.inj h)).1]
      refine maybeCommit_whole ?_ h₂
      rw [(modifyProgress_sends _ _ _).raftLog]
      exact appendNew_whole hw h₁

theorem becomeLeader_spared (hw : r.raftLog.Whole) (ht : r.term ≠ 0) : Spared r.becomeLeader := by
  unfold Raft.becomeLeader
  split
  · exact .error (by decide)
  · dsimp only
    split
    · exact .error (by decide)
    · refine (appendEntry_spared ?_ ?_ _).bind ?_
      · simpa using hw
      · simpa using ht
      · rintro ⟨r₁, ok⟩ -
        dsimp only
        split
        · exact .error (by decide)
        · exact .ok _

theorem becomeLeader_whole (hw : r.raftLog.Whole) (h : r.becomeLeader = .ok r') : r'.raftLog.Whole := by
  unfold Raft.becomeLeader at h
  split at h
  · cases h
  · dsimp only at h
    split at h
    · cases h
    · obtain ⟨⟨r₁, ok⟩, h₁, h⟩ := bind_ok h
      dsimp only at h
      split at h
      · cases h
      · obtain rfl := Except.ok.inj h
        rw [(reduceUncommittedSize_keeps _ _).raftLog]
        exact appendEntry_whole (by simpa using hw) h₁

theorem becomeCandidate_spared (r : Raft) : Spared r.becomeCandidate := by
  unfold Raft.becomeCandidate
  exact .ite (.error (by decide)) (.ok _)

theorem becomeCandidate_log (h : r.becomeCandidate = .ok r') :
    r'.raftLog = r.raftLog ∧ r'.term = r.term + 1 := by
  unfold Raft.becomeCandidate at h
  split at h
  · cases h
  · obtain rfl := Except.ok.inj h
    exact ⟨by simp, by simp⟩

theorem campaignElection_spared (hw : r.raftLog.Whole) : Spared r.campaignElection := by
  refine (becomeCandidate_spared r).bind fun r₁ h₁ => ?_
  obtain ⟨hlog, hterm⟩ := becomeCandidate_log h₁
  have hpoll := poll_keeps r₁ r₁.id true
  have hw₁ : (r₁.poll r₁.id true).1.raftLog.Whole := by
    rw [hpoll.raftLog, hlog]
    exact hw
  dsimp only
  split
  · refine becomeLeader_spared hw₁ ?_
    rw [hpoll.term, hterm]
    exact Nat.succ_ne_zero _
  · exact sendVoteRequests_spared hw₁ _ _

theorem becomePreCandidate_spared (r : Raft) : Spared r.becomePreCandidate := by
  unfold Raft.becomePreCandidate
  exact .ite (.error (by decide)) (.ok _)

theorem becomePreCandidate_log (h : r.becomePreCandidate = .ok r') : r'.raftLog = r.raftLog := by
  unfold Raft.becomePreCandidate at h
  split at h
  · cases h
  · obtain rfl := Except.ok.inj h
    rfl

theorem campaign_spared (hw : r.raftLog.Whole) (ct : CampaignType) : Spared (r.campaign ct) := by
  cases ct with
  | preElection =>
      refine (becomePreCandidate_spared r).bind fun r₁ h₁ => ?_
      have hw₁ : (r₁.poll r₁.id true).1.raftLog.Whole := by
        rw [(poll_keeps _ _ _).raftLog, becomePreCandidate_log h₁]
        exact hw
      dsimp only
      split
      · exact campaignElection_spared hw₁
      · exact sendVoteRequests_spared hw₁ _ _
  | election => exact campaignElection_spared hw
  | transfer => exact campaignElection_spared hw

theorem stepHup_spared (hw : r.raftLog.Whole) : Spared r.stepHup := by
  unfold Raft.stepHup
  split
  · refine (hw.slice_spared _ _ _).bind ?_
    rintro ⟨status, entries⟩ -
    dsimp only
    split
    · exact .error (by decide)
    · split
      · exact .ok _
      · exact campaign_spared hw _
  · exact .ok _

theorem voteRespMsgType_spared (ty : MessageType) : Spared (voteRespMsgType ty) := by
  unfold voteRespMsgType
  split
  · exact .ok _
  · exact .ok _
  · exact .error (by decide)

theorem isUpToDate_spared (hw : l.Whole) (lasti term : Nat) : Spared (l.isUpToDate lasti term) := by
  unfold RaftLog.isUpToDate
  rw [hw.lastTerm_eq]
  exact (Avoids.ok _).bind fun _ _ => .ok _

theorem stepVote_spared (hw : r.raftLog.Whole) (msg : Message) : Spared (r.stepVote msg) := by
  unfold Raft.stepVote
  refine .ite (.ok _) ?_
  refine (isUpToDate_spared hw _ _).bind fun upToDate _ => ?_
  refine (voteRespMsgType_spared _).bind fun type _ => ?_
  exact .ite ((send_spared _ _).bind fun _ _ => .ok _) (send_spared _ _)

end Electing

section Leading

theorem requestCtx_spared (m : Message) : Spared (Raft.requestCtx m) := by
  unfold Raft.requestCtx
  split
  · exact .error (by decide)
  · exact .ok _

theorem leaderProp_spared (hg : Good cfg r) (hl : r.state = .leader) (msg : Message) : Spared (r.leaderProp msg) := by
  have hk := filterConfChanges_keeps r 0 msg.entries
  have hw : (r.filterConfChanges 0 msg.entries).1.raftLog.Whole := by
    rw [hk.raftLog]
    exact hg.whole
  have ht : (r.filterConfChanges 0 msg.entries).1.term ≠ 0 := by
    rw [hk.term]
    exact hg.term_pos (Or.inr hl)
  unfold Raft.leaderProp
  refine .ite (.error (by decide)) (.ite (.ok _) (.ite (.ok _) ?_))
  dsimp only
  refine (appendEntry_spared hw ht _).bind ?_
  rintro ⟨r₁, ok⟩ h₁
  exact .ite (.ok _) ((bcastAppend_spared (appendEntry_whole hw h₁)).bind fun _ _ => .ok _)

theorem addRequest_spared (ro : ReadOnly) (index : Nat) (m : Message) : Spared (ro.addRequest index m) := by
  unfold ReadOnly.addRequest
  split
  · exact .error (by decide)
  · split
    · exact .ok _
    · exact .ok _

theorem leaderReadIndex_spared (hw : r.raftLog.Whole) (msg : Message) : Spared (r.leaderReadIndex msg) := by
  unfold Raft.leaderReadIndex
  dsimp only
  refine .ite (.ite (.ok _) ?_) ((requestCtx_spared _).bind fun _ _ => .ok _)
  split
  · refine (addRequest_spared _ _ _).bind fun ro _ => (requestCtx_spared _).bind fun ctx _ => ?_
    exact bcastHeartbeatWithCtx_spared (r := { r with readOnly := ro }) hw ctx
  · exact .ite ((requestCtx_spared _).bind fun _ _ => .ok _) (send_spared _ _)

theorem progressAfterAck_spared (pr : Progress) (index : Nat) : Spared (Raft.progressAfterAck pr index) := by
  unfold Raft.progressAfterAck
  exact .ite (.ok _) (.ite (.ok _) (.ite ((freeTo_spared _ _).bind fun _ _ => .ok _) (.ok _)))

theorem sendAfterAck_spared (hw : r.raftLog.Whole) (id : Nat) (changed paused : Bool) :
    Spared (r.sendAfterAck id changed paused) := by
  unfold Raft.sendAfterAck
  exact .ite (bcastAppend_spared hw) (.ite (sendAppend_spared hw id) (.ok _))

theorem leaderAppResp_spared (hg : Good cfg r) (hl : r.state = .leader) (msg : Message) :
    Spared (r.leaderAppResp msg) := by
  have hmark := modifyProgress_sends r msg.from_ fun p => { p with recentActive := true }
  have hw : (r.modifyProgress msg.from_ fun p => { p with recentActive := true }).raftLog.Whole := by
    rw [hmark.raftLog]
    exact hg.whole
  have ht : (r.modifyProgress msg.from_ fun p => { p with recentActive := true }).term ≠ 0 := by
    rw [hmark.term]
    exact hg.term_pos (Or.inr hl)
  -- neither the log nor the term depends on what is noted about a peer
  have hw' : ∀ {r₁ : Raft} (f : Progress → Progress), r₁.raftLog.Whole →
      (r₁.modifyProgress msg.from_ f).raftLog.Whole := by
    intro r₁ f hw₁
    rw [(modifyProgress_sends _ _ _).raftLog]
    exact hw₁
  unfold Raft.leaderAppResp
  dsimp only
  split
  · exact .ok _
  split
  · split
    · exact .ok _
    · exact sendAppend_spared (hw' _ hw) _
  · split
    · exact .ok _
    · refine (progressAfterAck_spared _ _).bind fun pr _ => ?_
      refine (maybeCommit_spared (hw' _ hw) ?_).bind ?_
      · rw [(modifyProgress_sends _ _ _).term]
        exact ht
      rintro ⟨r₁, changed⟩ h₁
      have hw₁ : r₁.raftLog.Whole := maybeCommit_whole (hw' _ hw) h₁
      refine (sendAfterAck_spared hw₁ _ _ _).bind fun r₂ h₂ => ?_
      have hw₂ : r₂.raftLog.Whole := (sendAfterAck_sends h₂).raftLog ▸ hw₁
      refine (sendAppendLoop_spared hw₂ _ _).bind fun r₃ _ => ?_
      split
      · exact .ok _
      · exact .ite (send_spared _ _) (.ok _)

theorem answerReads_spared (r : Raft) (rss : List ReadIndexStatus) : Spared (r.answerReads rss) := by
  refine Avoids.foldlM (I := fun _ => True) ?_ (fun _ _ _ _ _ => trivial) rss trivial
  intro r₁ rs _
  exact .ite ((requestCtx_spared _).bind fun _ _ => .ok _) (send_spared _ _)

theorem collect_spared (ro : ReadOnly) (ctx : Bytes) (queue : List Bytes) : Spared (ro.collect ctx queue) := by
  induction queue with
  | nil => exact .ok _
  | cons okctx rest ih =>
      unfold ReadOnly.collect
      split
      · exact .error (by decide)
      · exact .ite (.ok _) (ih.bind fun _ _ => .ok _)

theorem erasePending_spared (pending : AList (fun _ : Bytes => ReadIndexStatus)) (rss : List ReadIndexStatus) :
    Spared (ReadOnly.erasePending pending rss) := by
  induction rss generalizing pending with
  | nil => exact .ok _
  | cons rs rss ih =>
      unfold ReadOnly.erasePending
      split
      · exact .error (by decide)
      · exact ih _

theorem advance_spared (ro : ReadOnly) (msg : Message) : Spared (ro.advance msg) := by
  refine (collect_spared _ _ _).bind ?_
  rintro ⟨rss, found⟩ -
  exact .ite ((erasePending_spared _ _).bind fun _ _ => .ok _) (.ok _)

theorem progressAfterBeat_spared (pr : Progress) : Spared (Raft.progressAfterBeat pr) := by
  unfold Raft.progressAfterBeat
  exact .ite ((freeTo_spared _ _).bind fun _ _ => .ok _) (.ok _)

theorem leaderHeartbeatResp_spared (hw : r.raftLog.Whole) (msg : Message) : Spared (r.leaderHeartbeatResp msg) := by
  -- what follows the entries that are sent: the reads that were confirmed
  have hreads : ∀ r₁ : Raft, Spared (if r₁.readOnly.option ≠ .safe ∨ msg.context = [] then .ok r₁ else
      if (r₁.readOnly.recvAck msg).2 < Raft.quorum { r₁ with readOnly := (r₁.readOnly.recvAck msg).1 } then
        .ok { r₁ with readOnly := (r₁.readOnly.recvAck msg).1 }
      else do
        let read ← (r₁.readOnly.recvAck msg).1.advance msg
        Raft.answerReads { { r₁ with readOnly := (r₁.readOnly.recvAck msg).1 } with readOnly := read.1 } read.2) :=
    fun r₁ => .ite (.ok _) (.ite (.ok _) ((advance_spared _ _).bind fun _ _ => answerReads_spared _ _))
  unfold Raft.leaderHeartbeatResp
  split
  · exact .ok _
  · refine (progressAfterBeat_spared _).bind fun pr _ => ?_
    dsimp only
    split
    · refine (sendAppend_spared ?_ _).bind fun r₁ _ => hreads r₁
      rw [(modifyProgress_sends _ _ _).raftLog]
      exact hw
    · exact (Avoids.ok _).bind fun r₁ _ => hreads r₁

theorem leaderTransferLeader_spared (hw : r.raftLog.Whole) (pr : Progress) (msg : Message) :
    Spared (r.leaderTransferLeader pr msg) := by
  unfold Raft.leaderTransferLeader
  refine .ite (.ok _) (.ite (.ok _) ?_)
  dsimp only
  refine .ite (.ok _) (.ite (send_spared _ _) (sendAppend_spared ?_ _))
  dsimp only
  split <;> exact hw

theorem withOk_spared {x : Result Raft} (h : Spared x) : Spared (Raft.withOk x) := h.bind fun _ _ => .ok _

theorem stepLeaderProgress_spared (hg : Good cfg r) (hl : r.state = .leader) (msg : Message) :
    Spared (r.stepLeaderProgress msg) := by
  unfold Raft.stepLeaderProgress
  split
  · exact .ok _
  split
  · exact leaderAppResp_spared hg hl msg
  · exact leaderHeartbeatResp_spared hg.whole msg
  · exact .ok _
  · exact .ok _
  · exact leaderTransferLeader_spared hg.whole _ msg
  · exact .ok _

theorem stepLeader_spared (hg : Good cfg r) (hl : r.state = .leader) (msg : Message) : Spared (r.stepLeader msg) := by
  unfold Raft.stepLeader
  split
  · exact withOk_spared (bcastHeartbeatWithCtx_spared hg.whole _)
  · exact .ok _
  · exact leaderProp_spared hg hl msg
  · exact withOk_spared (leaderReadIndex_spared hg.whole msg)
  · exact withOk_spared (stepLeaderProgress_spared hg hl msg)

end Leading

section Stepping

/-- What a node may be told to append or to commit. -/
structure Told (l : RaftLog) (msg : Message) : Prop where
  app : msg.type = .msgApp → IndexedFrom (msg.index + 1) msg.entries ∧ (msg.index ≠ 0 → msg.logTerm ≠ 0) ∧
    ∀ e ∈ msg.entries, e.term ≠ 0
  beat : msg.type = .msgHeartbeat → msg.commit ≤ l.log.length
  snap : msg.type ≠ .msgSnap

/-- A message that the node makes for itself tells it neither. -/
theorem Told.of_local (hp : msg.type.isPeer = false) (hs : msg.type ≠ .msgSnap) : Told l msg where
  app h := by
    rw [h] at hp
    cases hp
  beat h := by
    rw [h] at hp
    cases hp
  snap := hs

theorem handleAppendEntries_spared (hw : r.raftLog.Whole) (ht : Told r.raftLog msg) (hty : msg.type = .msgApp) :
    Spared (r.handleAppendEntries msg) := by
  obtain ⟨hidx, hprev, hterms⟩ := ht.app hty
  unfold Raft.handleAppendEntries
  split
  · exact send_spared _ _
  · rename_i hle
    refine (hw.maybeAppend_spared _ hidx (Nat.not_lt.mp hle) hprev hterms).bind ?_
    rintro ⟨log, ok⟩ -
    dsimp only
    split
    · exact send_spared _ _
    · exact send_spared _ _

theorem handleHeartbeat_spared (hw : r.raftLog.Whole) (ht : Told r.raftLog msg) (hty : msg.type = .msgHeartbeat) :
    Spared (r.handleHeartbeat msg) := (hw.commitTo_spared (ht.beat hty)).bind fun _ _ => send_spared _ _

theorem stepCandidate_spared (hg : Good cfg r) (ht : Told r.raftLog msg) : Spared (r.stepCandidate msg) := by
  have hfollow : ∀ lead, (r.becomeFollower msg.term lead).raftLog = r.raftLog := fun _ => by simp [Raft.becomeFollower]
  -- the count of the answers, for both kinds of them
  have htally : Spared (if (r.poll msg.from_ (!msg.reject)).1.quorum = (r.poll msg.from_ (!msg.reject)).2 then
      if (r.poll msg.from_ (!msg.reject)).1.state = .preCandidate then
        Raft.withOk ((r.poll msg.from_ (!msg.reject)).1.campaign .election)
      else if (r.poll msg.from_ (!msg.reject)).1.state = .candidate then Raft.withOk (do
        let r ← (r.poll msg.from_ (!msg.reject)).1.becomeLeader
        r.bcastAppend)
      else .error "assert(state_ == RaftState::Candidate)"
    else if (r.poll msg.from_ (!msg.reject)).1.quorum =
        (r.poll msg.from_ (!msg.reject)).1.votes.keys.length - (r.poll msg.from_ (!msg.reject)).2 then
      .ok ((r.poll msg.from_ (!msg.reject)).1.becomeFollower (r.poll msg.from_ (!msg.reject)).1.term 0, .ok)
    else .ok ((r.poll msg.from_ (!msg.reject)).1, .ok) : Result (Raft × Status)) := by
    have hpoll := poll_keeps r msg.from_ (!msg.reject)
    have hw : (r.poll msg.from_ (!msg.reject)).1.raftLog.Whole := hpoll.raftLog ▸ hg.whole
    refine .ite ?_ (.ite (.ok _) (.ok _))
    split
    · exact withOk_spared (campaign_spared hw _)
    · split
      · rename_i hc
        have hterm : (r.poll msg.from_ (!msg.reject)).1.term ≠ 0 := by
          rw [hpoll.term]
          exact hg.term_pos (Or.inl (hpoll.state.symm.trans hc))
        refine withOk_spared ((becomeLeader_spared hw hterm).bind fun r₁ h₁ => ?_)
        exact bcastAppend_spared (becomeLeader_whole hw h₁)
      · exact .error (by decide)
  unfold Raft.stepCandidate
  split
  · exact .ok _
  · rename_i hty
    exact withOk_spared (handleAppendEntries_spared ((hfollow _).symm ▸ hg.whole) ((hfollow _).symm ▸ ht) hty)
  · rename_i hty
    exact withOk_spared (handleHeartbeat_spared ((hfollow _).symm ▸ hg.whole) ((hfollow _).symm ▸ ht) hty)
  · rename_i hty
    exact absurd hty ht.snap
  · exact htally
  · exact htally
  · exact .ok _

theorem stepFollower_spared (hg : Good cfg r) (ht : Told r.raftLog msg) : Spared (r.stepFollower msg) := by
  unfold Raft.stepFollower
  split
  · exact .ite (.ok _) (.ite (.ok _) (withOk_spared (send_spared _ _)))
  · rename_i hty
    exact withOk_spared (handleAppendEntries_spared hg.whole ht hty)
  · rename_i hty
    exact withOk_spared (handleHeartbeat_spared hg.whole ht hty)
  · rename_i hty
    exact absurd hty ht.snap
  · exact .ite (.ok _) (withOk_spared (send_spared _ _))
  · exact .ite (.ok _) (withOk_spared (send_spared _ _))
  · exact .ite (withOk_spared (campaign_spared hg.whole _)) (.ok _)
  · split
    · exact .ok _
    · exact .ok _
  · exact .ok _

theorem stepBody_spared (hg : Good cfg r) (ht : Told r.raftLog msg) : Spared (r.stepBody msg) := by
  unfold Raft.stepBody
  split
  · exact withOk_spared (stepHup_spared hg.whole)
  · exact withOk_spared (stepVote_spared hg.whole msg)
  · exact withOk_spared (stepVote_spared hg.whole msg)
  · split
    · exact stepFollower_spared hg ht
    · exact stepCandidate_spared hg ht
    · exact stepCandidate_spared hg ht
    · rename_i hl
      exact stepLeader_spared hg hl msg

theorem lowerTerm_spared (r : Raft) (msg : Message) : Spared (r.lowerTerm msg) := by
  unfold Raft.lowerTerm
  exact .ite (send_spared _ _) (.ite (send_spared _ _) (.ok _))

/-- A message of an earlier term never gets as far as the log. -/
theorem step_spared (hg : Good cfg r) (ht : msg.term = 0 ∨ r.term ≤ msg.term → Told r.raftLog msg) :
    Spared (r.step msg) := by
  unfold Raft.step
  split
  · rename_i h0
    exact stepBody_spared hg (ht (Or.inl h0))
  split
  · rename_i hgt
    refine .ite (.ok _) ?_
    have htold := ht (Or.inr (Nat.le_of_lt hgt))
    rcases higherTerm_cases r msg with ⟨heq, -⟩ | ⟨lead, heq⟩
    · rw [heq]
      exact stepBody_spared hg htold
    · rw [heq]
      have hf : Sim cfg ∅ True r (r.becomeFollower msg.term lead) := becomeFollower_sim hg (Nat.le_of_lt hgt)
      refine stepBody_spared hf.good ?_
      have hlog : (r.becomeFollower msg.term lead).raftLog = r.raftLog := by simp [Raft.becomeFollower]
      rw [hlog]
      exact htold
  split
  · exact withOk_spared (lowerTerm_spared r msg)
  · rename_i hge
    exact stepBody_spared hg (ht (Or.inr (Nat.not_lt.mp hge)))

theorem step_local_spared (hg : Good cfg r) (hp : msg.type.isPeer = false) (hs : msg.type ≠ .msgSnap) :
    Spared (r.step msg) := step_spared hg fun _ => .of_local hp hs

theorem tickElection_spared (hg : Good cfg r) : Spared r.tickElection := by
  have hsame : ∀ e, SameCore r { r with electionElapsed := e } := fun e => by constructor <;> rfl
  unfold Raft.tickElection
  exact .ite ((step_local_spared ((hsame 0).good hg) rfl (by simp)).bind fun _ _ => .ok _) (.ok _)

theorem tickCheckQuorum_spared (hg : Good cfg r) : Spared r.tickCheckQuorum := by
  have hsame : SameCore r { r with electionElapsed := 0 } := by constructor <;> rfl
  unfold Raft.tickCheckQuorum
  dsimp only
  split
  · exact ((step_local_spared (hsame.good hg) rfl (by simp)).map _).bind fun _ _ => .ok _
  · exact .ok _

theorem tickHeartbeat_spared (hg : Good cfg r) : Spared r.tickHeartbeat := by
  have hsame : SameCore r { r with
      heartbeatElapsed := (r.heartbeatElapsed + 1) % 2 ^ 32
      electionElapsed := (r.electionElapsed + 1) % 2 ^ 32 } := by constructor <;> rfl
  -- the second half, whatever became of the check of the quorum
  have hbeat : ∀ r₁ : Raft, Good cfg r₁ → Spared (if r₁.state ≠ .leader then .ok r₁
      else if r₁.heartbeatElapsed ≥ r₁.heartbeatTimeout then do
        let beaten ← Raft.step { r₁ with heartbeatElapsed := 0 } { from_ := r₁.id, type := .msgBeat }
        .ok beaten.1
      else .ok r₁ : Result Raft) := by
    intro r₁ hg₁
    have hsame₁ : SameCore r₁ { r₁ with heartbeatElapsed := 0 } := by constructor <;> rfl
    exact .ite (.ok _) (.ite ((step_local_spared (hsame₁.good hg₁) rfl (by simp)).bind fun _ _ => .ok _) (.ok _))
  unfold Raft.tickHeartbeat
  dsimp only
  split
  · refine (tickCheckQuorum_spared (hsame.good hg)).bind fun r₁ h₁ => ?_
    exact hbeat r₁ (tickCheckQuorum_sim (N := ∅) (B := True) (hsame.good hg) h₁).good
  · exact (Avoids.ok _).bind fun r₁ h₁ => hbeat r₁ (Except.ok.inj h₁ ▸ hsame.good hg)

theorem tick_spared (hg : Good cfg r) : Spared r.tick := by
  unfold Raft.tick
  split
  · exact tickHeartbeat_spared hg
  · exact tickElection_spared hg

end Stepping

section Serving

theorem storageAppend_spared (st : MemoryStorage) (es : List Entry) : Spared (st.append es) := by
  unfold MemoryStorage.append
  split
  · exact .ok _
  · refine .ite (.ok _) ?_
    split
    · exact .error (by decide)
    · exact .ite (.ok _) (.error (by decide))

theorem handleReady_spared {node : RawNode} (hw : node.raft.raftLog.Whole) : Spared node.handleReady := by
  have hready : Spared node.ready := (hw.nextEntries_spared.bind fun _ _ => .ok _).bind fun _ _ => .ok _
  exact hready.bind fun _ _ => (storageAppend_spared _ _).bind fun _ _ => .ok _

theorem initialPeers_spared (c : Config) : Spared (Raft.initialPeers c) := by
  unfold Raft.initialPeers
  exact .ite (.ite (.error (by decide)) (.ok _)) (.ok _)

theorem addLearners_spared (r : Raft) (learners : List Nat) : Spared (r.addLearners learners) :=
  Avoids.foldlM (I := fun _ => True) (fun _ _ _ => .ite (.error (by decide)) (.ok _)) (fun _ _ _ _ _ => trivial)
    learners trivial

theorem loadState_spared (r : Raft) (hs : HardState) : Spared (r.loadState hs) := by
  unfold Raft.loadState
  exact .ite (.error (by decide)) (.ok _)

theorem restartNode_spared (c : Config) : Spared (RawNode.restartNode c) := by
  refine Avoids.bind ?_ fun _ _ => .ok _
  unfold Raft.new
  refine (initialPeers_spared c).bind fun _ _ => (addLearners_spared _ _).bind fun r₁ _ => ?_
  dsimp only
  split
  · exact (loadState_spared _ _).bind fun _ _ => .ok _
  · exact (Avoids.ok _).bind fun _ _ => .ok _

end Serving

end RaftEtcd
