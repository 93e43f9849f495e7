import RaftEtcd.Handlers

/-! The handlers of `Raft::step`, one by one, for messages that arrive in the term of the node. -/
namespace RaftEtcd
open Consensus
variable {cfg : ClusterConfig} {N : Set (Msg Nat Entry)} {B : Prop} {r r' : Raft} {msg : Message}

/-- The types that are handled only in the term they carry. -/
def MessageType.isTermed : MessageType → Bool
  | .msgApp | .msgAppResp | .msgVote | .msgVoteResp | .msgHeartbeat | .msgHeartbeatResp => true
  | _ => false

/-- What a node may rely on when a message reaches its handlers. -/
structure Input (cfg : ClusterConfig) (N : Set (Msg Nat Entry)) (r : Raft) (msg : Message) : Prop where
  peer : msg.type.isPeer = true → msg.from_ ∈ cfg.members ∧ msg.from_ ≠ r.id ∧ msg.to_ = r.id
  known : absMsg msg ⊆ N
  term : msg.type.isTermed = true → msg.term = r.term ∧ r.term ≠ 0
  snap : msg.type ≠ .msgSnap
  app : msg.type = .msgApp → IndexedFrom (msg.index + 1) msg.entries
  pre : msg.type.isPre = true → cfg.UsesPreVote

/-- The same message for a node that differs in neither name nor term. -/
theorem Input.congr (h : Input cfg N r msg) (hid : r'.id = r.id) (ht : r'.term = r.term) : Input cfg N r' msg :=
  ⟨hid ▸ h.peer, h.known, ht ▸ h.term, h.snap, h.app, h.pre⟩

/-- A follower that takes over entries, and says so. -/
theorem acceptEntries_sim (hg : Good cfg r) (hf : r.state = .follower) (hin : Input cfg N r msg)
    (hty : msg.type = .msgApp) {log : RaftLog}
    (hc : r.raftLog.committed ≤ msg.index) (hw : log.Whole) (hst : log.storage = r.raftLog.storage)
    (hterm : termAt Entry.term r.raftLog.log msg.index = msg.logTerm)
    (hmerge : Merge Entry.term r.raftLog.log msg.index msg.entries r.raftLog.committed log.log)
    (hcom : log.committed = max r.raftLog.committed (min msg.commit (msg.index + msg.entries.length)))
    (hlen : min msg.commit (msg.index + msg.entries.length) ≤ log.log.length)
    (h : Raft.send { r with raftLog := log }
      { to_ := msg.from_, type := .msgAppResp, index := msg.index + msg.entries.length } = .ok r') :
    Sim cfg N B r r' := by
  obtain ⟨hmem, hne, hto⟩ := hin.peer (by rw [hty]; rfl)
  obtain ⟨hmt, ht0⟩ := hin.term (by rw [hty]; rfl)
  have hnl : r.state ≠ .leader := by
    rw [hf]
    decide
  have hg₁ : Good cfg { r with raftLog := log } :=
    ⟨hw, hg.member, hg.keys, hg.learnerKeys, hg.voter, hg.term_pos, hg.leader_voter, hg.vote_zero, hg.next_pos,
      hg.msgs, hg.pre⟩
  have hgood : Tells cfg N False { r with raftLog := log } r' :=
    send_tells hg₁ h rfl (by simp) hmem hne (fun _ => ht0) nofun fun _ _ _ hF => hF.elim
  obtain ⟨t, rfl, -, ht⟩ := send_spec h
  obtain rfl := ht rfl (by simp)
  refine ⟨hgood.good, rfl, hst, fun _ _ => ⟨.of_ne hnl, .single ?_⟩⟩
  have habs : ({ { r with raftLog := log } with
      msgs := r.msgs ++ [{ to_ := msg.from_, type := .msgAppResp, index := msg.index + msg.entries.length,
                           from_ := r.id, term := r.term }] } : Raft).abs =
      { r.abs with
        log := log.log
        commit := max r.abs.commit (min msg.commit (msg.index + msg.entries.length))
        out := insert (.ack r.id r.abs.term (msg.index + msg.entries.length)) r.abs.out } := by
    ext1 <;> try rfl
    · exact hcom
    · refine (absMsgs_append _ _).trans ?_
      rw [absMsgs_singleton, Set.union_comm]
      rfl
  rw [habs]
  refine .recvApp r.abs msg.from_ msg.index msg.logTerm msg.entries msg.commit log.log ?_ ?_ hc hterm hmerge hlen
  · simp [Raft.abs, absRole, hf]
  · apply hin.known
    rw [absMsg, hty, hmt]
    exact Set.mem_insert _ _

theorem handleAppendEntries_sim (hg : Good cfg r) (hf : r.state = .follower) (hin : Input cfg N r msg)
    (hty : msg.type = .msgApp) (h : r.handleAppendEntries msg = .ok r') : Sim cfg N B r r' := by
  obtain ⟨hmem, hne, hto⟩ := hin.peer (by rw [hty]; rfl)
  obtain ⟨hmt, ht0⟩ := hin.term (by rw [hty]; rfl)
  rw [Raft.handleAppendEntries] at h
  split at h
  · -- entries below the commit index are answered with the commit index
    refine (send_tells hg h rfl (by simp) hmem hne (fun _ => ht0) (fun hty => by cases hty) ?_).toSim
    intro t _ ht _ _
    right
    rw [ht rfl]
    refine .ack r.raftLog.committed le_rfl (Or.inr ⟨msg.from_, msg.index, msg.logTerm, msg.entries, msg.commit, ?_⟩)
    apply hin.known
    rw [absMsg, hty, hmt]
    exact Set.mem_insert _ _
  · rename_i hidx
    obtain ⟨⟨log, ok⟩, hlog, h⟩ := bind_ok h
    simp only at h
    rcases hg.whole.maybeAppend_spec (hin.app hty) hlog with ⟨rfl, rfl⟩ | ⟨rfl, hw, hst, hterm, hmerge, hcom, hlen⟩
    · refine (send_tells hg h rfl (by simp) hmem hne (fun _ => ht0) (fun hty => by cases hty) ?_).toSim
      intro t _ _ _ _
      exact Or.inl rfl
    · exact acceptEntries_sim hg hf hin hty (Nat.not_lt.mp hidx) hw hst hterm hmerge hcom hlen h

theorem handleHeartbeat_sim (hg : Good cfg r) (hf : r.state = .follower) (hin : Input cfg N r msg)
    (hty : msg.type = .msgHeartbeat) (h : r.handleHeartbeat msg = .ok r') : Sim cfg N B r r' := by
  obtain ⟨hmem, hne, hto⟩ := hin.peer (by rw [hty]; rfl)
  obtain ⟨hmt, ht0⟩ := hin.term (by rw [hty]; rfl)
  unfold Raft.handleHeartbeat at h
  obtain ⟨log, hlog, h⟩ := bind_ok h
  obtain ⟨rfl, hle⟩ := RaftLog.commitTo_spec hg.whole hlog
  have hnl : r.state ≠ .leader := by
    rw [hf]
    decide
  have hcommit : Sim cfg N B r
      { r with raftLog := { r.raftLog with committed := max r.raftLog.committed msg.commit } } := by
    refine ⟨⟨hg.whole.withCommitted hle, hg.member, hg.keys, hg.learnerKeys, hg.voter, hg.term_pos,
      hg.leader_voter, hg.vote_zero, hg.next_pos, hg.msgs, hg.pre⟩, rfl, rfl, fun _ _ => ⟨.of_ne hnl, .single ?_⟩⟩
    refine .recvBeat r.abs msg.from_ msg.commit ?_ ?_ ((le_max_right _ _).trans hle)
    · simp [Raft.abs, absRole, hf]
    · apply hin.known
      rw [absMsg, hty, hmt, hto]
      exact Set.mem_singleton _
  refine hcommit.trans (send_tells hcommit.good h rfl (by simp) hmem hne (fun _ => ht0) (fun hty => by cases hty) ?_).toSim
  intro t _ _ _ _
  exact Or.inl rfl

/-- The vote of a voter for a log that is up to date. -/
theorem grantVote_sim (hg : Good cfg r) (hin : Input cfg N r msg) (hty : msg.type = .msgVote)
    (hv : r.isLearner = false) (hcan : r.vote = msg.from_ ∨ r.vote = 0)
    (hup : UpToDate Entry.term r.raftLog.log msg.index msg.logTerm) {r₁ : Raft}
    (h : r.send { to_ := msg.from_, term := msg.term, type := .msgVoteResp } = .ok r₁) :
    Sim cfg N B r { r₁ with electionElapsed := 0, vote := msg.from_ } := by
  obtain ⟨hmem, hne, hto⟩ := hin.peer (by rw [hty]; rfl)
  obtain ⟨hmt, ht0⟩ := hin.term (by rw [hty]; rfl)
  have hgood : Tells cfg N False r r₁ :=
    send_tells hg h rfl (by simp) hmem hne nofun nofun fun _ _ _ hF => hF.elim
  have h0 : msg.from_ ≠ 0 := ClusterConfig.ne_zero_of_mem hmem
  obtain ⟨t, rfl, ht, -⟩ := send_spec h
  obtain rfl := (ht rfl).1
  have hg₁ := hgood.good
  refine ⟨⟨hg₁.whole, hg₁.member, hg₁.keys, hg₁.learnerKeys, hg₁.voter, hg₁.term_pos, hg₁.leader_voter,
    fun hz => absurd hz ht0, hg₁.next_pos, hg₁.msgs, hg₁.pre⟩, rfl, rfl, fun _ hb => ⟨hb, .single ?_⟩⟩
  have habs : ({ r with
      msgs := r.msgs ++ [{ to_ := msg.from_, term := msg.term, type := .msgVoteResp, from_ := r.id }]
      electionElapsed := 0
      vote := msg.from_ } : Raft).abs =
      { r.abs with vote := some msg.from_, out := insert (.grant r.id msg.from_ r.abs.term) r.abs.out } := by
    ext1 <;> try rfl
    · simp [Raft.abs, absVote, h0]
    · refine (absMsgs_append _ _).trans ?_
      rw [absMsgs_singleton, Set.union_comm, hmt]
      rfl
  rw [habs]
  refine .castVote r.abs msg.from_ msg.index msg.logTerm (List.mem_toFinset.mpr (hg.voter hv)) ?_ ?_ hup
  · apply hin.known
    rw [absMsg, hty, hmt]
    exact Set.mem_insert _ _
  · simp only [Raft.abs, absVote]
    rcases hcan with hcan | hcan
    · right
      rw [hcan, if_neg h0]
    · left
      rw [if_pos hcan]

theorem isUpToDate_spec {l : RaftLog} (h : l.Whole) {li lt : Nat} {b : Bool} (hu : l.isUpToDate li lt = .ok b) :
    b = true → UpToDate Entry.term l.log li lt := by
  unfold RaftLog.isUpToDate at hu
  rw [h.lastTerm_eq] at hu
  obtain ⟨t, ht, hu⟩ := bind_ok hu
  obtain rfl := Except.ok.inj ht
  rw [← Except.ok.inj hu, h.lastIndex_eq]
  intro hb
  simp only [Bool.or_eq_true, Bool.and_eq_true, decide_eq_true_eq, beq_iff_eq] at hb
  rcases hb with hlt | ⟨heq, hle⟩
  · exact Or.inl hlt
  · exact Or.inr ⟨heq.symm, hle⟩

theorem stepVote_sim (hg : Good cfg r) (hin : Input cfg N r msg) (hty : msg.type = .msgVote ∨ msg.type = .msgPreVote)
    (h : r.stepVote msg = .ok r') : Sim cfg N B r r' := by
  obtain ⟨hmem, hne, hto⟩ := hin.peer (by rcases hty with hty | hty <;> rw [hty] <;> rfl)
  cases stepVote_votes h with
  | learns learner same =>
      rw [same]
      exact .refl hg
  | grants voter type answer free upToDate r₁ sent noted =>
      rcases hty with hty | hty
      · rw [hty] at answer noted free
        obtain rfl := Except.ok.inj answer
        rw [noted, if_pos rfl]
        refine grantVote_sim hg hin hty voter ?_ (isUpToDate_spec hg.whole upToDate rfl) sent
        rcases free with hv | ⟨hv, -⟩ | ⟨hpre, -⟩
        · exact Or.inl hv
        · exact Or.inr hv
        · cases hpre
      · -- a pre-vote is answered and nothing else happens
        rw [hty] at answer noted
        obtain rfl := Except.ok.inj answer
        rw [noted, if_neg (by simp)]
        refine (send_tells hg sent rfl (by simp) hmem hne nofun (fun _ => hin.pre (by rw [hty]; rfl)) ?_).toSim
        intro t _ _ _ _
        exact Or.inl rfl
  | refuses type answer sent =>
      rcases hty with hty | hty
      · rw [hty] at answer
        obtain rfl := Except.ok.inj answer
        refine (send_tells hg sent rfl (by simp) hmem hne nofun nofun ?_).toSim
        intro t _ _ _ _
        exact Or.inl rfl
      · rw [hty] at answer
        obtain rfl := Except.ok.inj answer
        refine (send_tells hg sent rfl (by simp) hmem hne nofun (fun _ => hin.pre (by rw [hty]; rfl)) ?_).toSim
        intro t _ _ _ _
        exact Or.inl rfl

/-- The node after `becomeFollower` in the term of the message, with the message still to handle. -/
theorem Input.becomeFollower (hin : Input cfg N r msg) (ht : msg.type.isTermed = true) (lead : Nat) :
    Input cfg N (r.becomeFollower msg.term lead) msg ∧ (r.becomeFollower msg.term lead).state = .follower :=
  ⟨hin.congr (by simp [Raft.becomeFollower]) (by simp [Raft.becomeFollower, (hin.term ht).1]), rfl⟩

/-- Answers to a campaign. An answer to a pre-vote must not find a candidate unless it is a
rejection, because it is tallied all the same. -/
theorem tally_sim (hg : Good cfg r) (hin : Input cfg N r msg)
    (hty : msg.type = .msgVoteResp ∨ (msg.type = .msgPreVoteResp ∧ (r.state = .candidate → msg.reject = true)))
    (h : Tally (r.poll msg.from_ (!msg.reject)).1 (r.poll msg.from_ (!msg.reject)).2 r') : Sim cfg N B r r' := by
  have hpoll : Tells cfg N B r (r.poll msg.from_ (!msg.reject)).1 := by
    refine poll_tells hg fun hc hv => Or.inr ?_
    have hrej : msg.reject = false := by simpa using hv
    rcases hty with hty | ⟨-, hpre⟩
    · apply hin.known
      rw [absMsg, hty, hrej, (hin.term (by rw [hty]; rfl)).1, (hin.peer (by rw [hty]; rfl)).2.2]
      exact Set.mem_singleton _
    · rw [hpre hc] at hrej
      cases hrej
  refine hpoll.toSim.trans ?_
  cases h with
  | stands quorum role campaign => exact campaign_sim hpoll.good (by simp) campaign
  | wins quorum role l lead cast =>
      obtain ⟨Q, hQ, hcard⟩ := poll_count r msg.from_ (!msg.reject) (hpoll.state ▸ role)
      obtain ⟨hlead, hl⟩ := becomeLeader_sim (N := N) (B := B) hpoll.good role hQ
        (hpoll.good.card_lt_of_quorum (by omega)) lead
      exact hlead.trans (bcastAppend_tells hlead.good hl cast).toSim
  | loses follows =>
      rw [follows]
      exact becomeFollower_sim hpoll.good le_rfl
  | waits same =>
      rw [same]
      exact .refl hpoll.good

theorem stepCandidate_sim (hg : Good cfg r) (hin : Input cfg N r msg)
    (hpre : msg.type = .msgPreVoteResp → r.state = .candidate → msg.reject = true) {st : Status}
    (h : r.stepCandidate msg = .ok (r', st)) : Sim cfg N B r r' := by
  -- a leader of the term ends the campaign before its message is handled
  have hfollow : msg.type.isTermed = true →
      Sim cfg N B r (r.becomeFollower msg.term msg.from_) := fun ht =>
    becomeFollower_sim hg (hin.term ht).1.ge
  cases stepCandidate_step h with
  | keeps same =>
      rw [same]
      exact .refl hg
  | appends type handled =>
      have ht : msg.type.isTermed = true := by rw [type]; rfl
      obtain ⟨hin', hf⟩ := hin.becomeFollower ht msg.from_
      exact (hfollow ht).trans (handleAppendEntries_sim (hfollow ht).good hf hin' type handled)
  | beats type handled =>
      have ht : msg.type.isTermed = true := by rw [type]; rfl
      obtain ⟨hin', hf⟩ := hin.becomeFollower ht msg.from_
      exact (hfollow ht).trans (handleHeartbeat_sim (hfollow ht).good hf hin' type handled)
  | restores type handled => exact absurd type hin.snap
  | counts type c polled votes frame tally =>
      rw [← polled] at tally
      exact tally_sim hg hin (type.imp_right fun hty => ⟨hty, hpre hty⟩) tally

theorem stepFollower_sim (hg : Good cfg r) (hf : r.state = .follower) (hin : Input cfg N r msg) {st : Status}
    (h : r.stepFollower msg = .ok (r', st)) : Sim cfg N B r r' := by
  have hsame : SameCore r { r with electionElapsed := 0, lead := msg.from_ } := by constructor <;> rfl
  cases stepFollower_step h with
  | keeps unread same =>
      rw [same]
      exact .refl hg
  | forwards type sent =>
      refine (send_tells_quiet hg sent ?_ ?_).toSim
      · rcases type with type | type | type <;> simp [type, MessageType.isPeer]
      · rcases type with type | type | type <;> simp [type]
  | appends type handled =>
      exact (hsame.sim hg).trans (handleAppendEntries_sim (hsame.good hg) hf (hin.congr rfl rfl) type handled)
  | beats type handled =>
      exact (hsame.sim hg).trans (handleHeartbeat_sim (hsame.good hg) hf (hin.congr rfl rfl) type handled)
  | restores type handled => exact absurd type hin.snap
  | stands type promotable campaign => exact campaign_sim hg (by simp) campaign
  | reads type e one noted =>
      rw [noted]
      exact SameCore.sim (by constructor <;> rfl) hg

end RaftEtcd
