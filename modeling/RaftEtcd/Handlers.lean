import RaftEtcd.Refine.Elect

/-! What the handlers of `Raft::step` can do with a message. Each handler is taken apart here once, with a
case for each way through it. -/
namespace RaftEtcd
variable {r r' : Raft} {msg : Message} {st : Status}

theorem poll_frame (r : Raft) (id : Nat) (v : Bool) : ∃ votes, (r.poll id v).1 = { r with votes := votes } := by
  rw [Raft.poll_fst]
  split
  · exact ⟨_, rfl⟩
  · exact ⟨_, rfl⟩

/-- A node stands for election on its own account, or the call does nothing. -/
theorem stepHup_cases (h : r.stepHup = .ok r') :
    r' = r ∨ r.state ≠ .leader ∧ r.campaign (if r.preVote then .preElection else .election) = .ok r' := by
  unfold Raft.stepHup at h
  split at h
  · rename_i hl
    obtain ⟨⟨status, entries⟩, -, h⟩ := bind_ok h
    simp only at h
    split at h
    · cases h
    split at h
    · exact Or.inl (Except.ok.inj h).symm
    · exact Or.inr ⟨hl, h⟩
  · exact Or.inl (Except.ok.inj h).symm

/-- A learner is silent when it is asked for its vote; another node grants it or refuses. -/
inductive Votes (msg : Message) (r r' : Raft) : Prop
  | learns (learner : r.isLearner = true) (same : r' = r)
  | grants (voter : r.isLearner = false) (type : MessageType) (answer : voteRespMsgType msg.type = .ok type)
      (free : r.vote = msg.from_ ∨ (r.vote = 0 ∧ r.lead = 0) ∨ (msg.type = .msgPreVote ∧ msg.term > r.term))
      (upToDate : r.raftLog.isUpToDate msg.index msg.logTerm = .ok true) (r₁ : Raft)
      (sent : r.send { to_ := msg.from_, term := msg.term, type := type } = .ok r₁)
      (noted : r' = if msg.type = .msgVote then { r₁ with electionElapsed := 0, vote := msg.from_ } else r₁)
  | refuses (type : MessageType) (answer : voteRespMsgType msg.type = .ok type)
      (sent : r.send { to_ := msg.from_, term := r.term, type := type, reject := true } = .ok r')

theorem stepVote_votes (h : r.stepVote msg = .ok r') : Votes msg r r' := by
  unfold Raft.stepVote at h
  split at h
  · rename_i hlearner
    exact .learns hlearner (Except.ok.inj h).symm
  rename_i hvoter
  obtain ⟨upToDate, hup, h⟩ := bind_ok h
  obtain ⟨type, htype, h⟩ := bind_ok h
  split at h
  · rename_i hgrant
    obtain ⟨r₁, h₁, h⟩ := bind_ok h
    rw [hgrant.2] at hup
    exact .grants (Bool.eq_false_iff.mpr hvoter) type htype hgrant.1 hup r₁ h₁ (Except.ok.inj h).symm
  · exact .refuses type htype h

/-- The answer moves the vote and the timer at most. -/
theorem stepVote_frame (h : r.stepVote msg = .ok r') :
    ∃ ms elapsed vote, r' = { r with msgs := ms, electionElapsed := elapsed, vote := vote } := by
  cases stepVote_votes h with
  | learns learner same => exact ⟨_, _, _, same⟩
  | grants voter type answer free upToDate r₁ sent noted =>
      obtain ⟨t, rfl, -, -⟩ := send_spec sent
      rw [noted]
      split
      · exact ⟨_, _, _, rfl⟩
      · exact ⟨_, _, _, rfl⟩
  | refuses type answer sent =>
      obtain ⟨t, rfl, -, -⟩ := send_spec sent
      exact ⟨_, _, _, rfl⟩

/-- Entries are answered after the log took or refused them; below the commit index it is left alone. -/
theorem handleAppendEntries_cases (h : r.handleAppendEntries msg = .ok r') : ∃ log m, m.type = .msgAppResp ∧
    (log = r.raftLog ∨
      ∃ ok, r.raftLog.maybeAppend msg.index msg.logTerm msg.commit msg.entries = .ok (log, ok)) ∧
    { r with raftLog := log }.send m = .ok r' := by
  unfold Raft.handleAppendEntries at h
  split at h
  · exact ⟨r.raftLog, _, rfl, Or.inl rfl, h⟩
  obtain ⟨⟨log, ok⟩, hlog, h⟩ := bind_ok h
  simp only at h
  split at h
  · exact ⟨log, _, rfl, Or.inr ⟨_, hlog⟩, h⟩
  · exact ⟨log, _, rfl, Or.inr ⟨_, hlog⟩, h⟩

/-- The tally after an answer to a campaign has been counted: a majority of grants carries the campaign
on or wins it, a majority of refusals ends it. -/
inductive Tally (c : Raft) (granted : Nat) (r' : Raft) : Prop
  | stands (quorum : c.quorum = granted) (role : c.state = .preCandidate) (campaign : c.campaign .election = .ok r')
  | wins (quorum : c.quorum = granted) (role : c.state = .candidate) (l : Raft) (lead : c.becomeLeader = .ok l)
      (cast : l.bcastAppend = .ok r')
  | loses (follows : r' = c.becomeFollower c.term 0)
  | waits (same : r' = c)

/-- What a node that campaigns does with a message. -/
inductive CandidateStep (msg : Message) (r r' : Raft) : Prop
  | keeps (same : r' = r)
  | appends (type : msg.type = .msgApp)
      (handled : (r.becomeFollower msg.term msg.from_).handleAppendEntries msg = .ok r')
  | beats (type : msg.type = .msgHeartbeat)
      (handled : (r.becomeFollower msg.term msg.from_).handleHeartbeat msg = .ok r')
  | restores (type : msg.type = .msgSnap)
      (handled : (r.becomeFollower msg.term msg.from_).handleSnapshot msg = .ok r')
  | counts (type : msg.type = .msgVoteResp ∨ msg.type = .msgPreVoteResp) (c : Raft)
      (polled : (r.poll msg.from_ (!msg.reject)).1 = c) (votes : AssocMap Nat Bool) (frame : c = { r with votes := votes })
      (tally : Tally c (r.poll msg.from_ (!msg.reject)).2 r')

theorem stepCandidate_step (h : r.stepCandidate msg = .ok (r', st)) : CandidateStep msg r r' := by
  have hkeep : ∀ {st' : Status}, (Except.ok (r, st') : Result _) = .ok (r', st) → CandidateStep msg r r' :=
    fun h => .keeps (Prod.mk.inj (Except.ok.inj h)).1.symm
  -- one tally for the answers to both kinds of requests
  have hcount : msg.type = .msgVoteResp ∨ msg.type = .msgPreVoteResp →
      (let tally := r.poll msg.from_ (!msg.reject)
        if tally.1.quorum = tally.2 then
          if tally.1.state = RaftState.preCandidate then Raft.withOk (tally.1.campaign .election)
          else if tally.1.state = RaftState.candidate then Raft.withOk (do
            let l ← tally.1.becomeLeader
            l.bcastAppend)
          else .error "assert(state_ == RaftState::Candidate)"
        else if tally.1.quorum = tally.1.votes.keys.length - tally.2 then
          .ok (tally.1.becomeFollower tally.1.term 0, .ok)
        else .ok (tally.1, .ok)) = .ok (r', st) → CandidateStep msg r r' := by
    intro hty h
    obtain ⟨votes, hpoll⟩ := poll_frame r msg.from_ (!msg.reject)
    refine .counts hty _ rfl votes hpoll ?_
    simp only at h
    split at h
    · rename_i hquorum
      split at h
      · rename_i hrole
        exact .stands hquorum hrole (withOk_ok h)
      split at h
      · rename_i hrole
        obtain ⟨l, hl, h⟩ := bind_ok (withOk_ok h)
        exact .wins hquorum hrole l hl h
      · cases h
    split at h
    · exact .loses (Prod.mk.inj (Except.ok.inj h)).1.symm
    · exact .waits (Prod.mk.inj (Except.ok.inj h)).1.symm
  unfold Raft.stepCandidate at h
  split at h
  · exact hkeep h
  · rename_i hty
    exact .appends hty (withOk_ok h)
  · rename_i hty
    exact .beats hty (withOk_ok h)
  · rename_i hty
    exact .restores hty (withOk_ok h)
  · rename_i hty
    exact hcount (Or.inr hty) h
  · rename_i hty
    exact hcount (Or.inl hty) h
  · exact hkeep h

/-- What a follower does with a message. -/
inductive FollowerStep (msg : Message) (r r' : Raft) : Prop
  | keeps (unread : msg.type = .msgReadIndexResp → ∀ e, msg.entries ≠ [e]) (same : r' = r)
  | forwards (type : msg.type = .msgProp ∨ msg.type = .msgTransferLeader ∨ msg.type = .msgReadIndex)
      (sent : r.send { msg with to_ := r.lead } = .ok r')
  | appends (type : msg.type = .msgApp)
      (handled : { r with electionElapsed := 0, lead := msg.from_ }.handleAppendEntries msg = .ok r')
  | beats (type : msg.type = .msgHeartbeat)
      (handled : { r with electionElapsed := 0, lead := msg.from_ }.handleHeartbeat msg = .ok r')
  | restores (type : msg.type = .msgSnap)
      (handled : { r with electionElapsed := 0, lead := msg.from_ }.handleSnapshot msg = .ok r')
  | stands (type : msg.type = .msgTimeoutNow) (promotable : r.promotable = true) (campaign : r.campaign .transfer = .ok r')
  | reads (type : msg.type = .msgReadIndexResp) (e : Entry) (one : msg.entries = [e])
      (noted : r' = { r with readStates := r.readStates ++ [{ index := msg.index, requestCtx := e.data }] })

theorem stepFollower_step (h : r.stepFollower msg = .ok (r', st)) : FollowerStep msg r r' := by
  have hkeep : ∀ {st' : Status}, (msg.type = .msgReadIndexResp → ∀ e, msg.entries ≠ [e]) →
      (Except.ok (r, st') : Result _) = .ok (r', st) → FollowerStep msg r r' :=
    fun hunread h => .keeps hunread (Prod.mk.inj (Except.ok.inj h)).1.symm
  unfold Raft.stepFollower at h
  split at h
  · rename_i hty
    split at h
    · exact hkeep (by simp [hty]) h
    split at h
    · exact hkeep (by simp [hty]) h
    · exact .forwards (Or.inl hty) (withOk_ok h)
  · rename_i hty
    exact .appends hty (withOk_ok h)
  · rename_i hty
    exact .beats hty (withOk_ok h)
  · rename_i hty
    exact .restores hty (withOk_ok h)
  · rename_i hty
    split at h
    · exact hkeep (by simp [hty]) h
    · exact .forwards (Or.inr (Or.inl hty)) (withOk_ok h)
  · rename_i hty
    split at h
    · exact hkeep (by simp [hty]) h
    · exact .forwards (Or.inr (Or.inr hty)) (withOk_ok h)
  · rename_i hty
    split at h
    · rename_i hpromotable
      exact .stands hty hpromotable (withOk_ok h)
    · exact hkeep (by simp [hty]) h
  · rename_i hty
    split at h
    · rename_i e hone
      exact .reads hty e hone (Prod.mk.inj (Except.ok.inj h)).1.symm
    · rename_i hmany
      exact hkeep (fun _ => hmany) h
  · rename_i hty
    exact hkeep (fun hresp => absurd hresp hty) h

/-! A leader with the messages that any node may send it. -/

/-- A leader refuses a proposal at once, or for its size, or takes it and tells the peers. -/
inductive Proposes (msg : Message) (st : Status) (r r' : Raft) : Prop
  | refuses (why : (r.prs.lookup r.id).isNone ∨ r.leadTransferee ≠ 0)
      (status : st = .invalidArgument "raft proposal dropped") (same : r' = r)
  | drops (member : (r.prs.lookup r.id).isSome) (settled : r.leadTransferee = 0)
      (append : (r.filterConfChanges 0 msg.entries).1.appendEntry (r.filterConfChanges 0 msg.entries).2 = .ok (r', false))
      (status : st = .invalidArgument "raft proposal dropped")
  | takes (nonempty : msg.entries ≠ []) (r₁ : Raft)
      (append : (r.filterConfChanges 0 msg.entries).1.appendEntry (r.filterConfChanges 0 msg.entries).2 = .ok (r₁, true))
      (cast : r₁.bcastAppend = .ok r') (status : st = .ok)

theorem leaderProp_proposes (h : r.leaderProp msg = .ok (r', st)) : Proposes msg st r r' := by
  unfold Raft.leaderProp at h
  split at h
  · cases h
  rename_i hne
  split at h
  · rename_i hnone
    obtain ⟨rfl, rfl⟩ := Prod.mk.inj (Except.ok.inj h)
    exact .refuses (Or.inl hnone) rfl rfl
  rename_i hmember
  split at h
  · rename_i htransfer
    obtain ⟨rfl, rfl⟩ := Prod.mk.inj (Except.ok.inj h)
    exact .refuses (Or.inr htransfer) rfl rfl
  rename_i hsettled
  obtain ⟨⟨r₁, taken⟩, happend, h⟩ := bind_ok h
  cases taken with
  | false =>
      obtain ⟨rfl, rfl⟩ := Prod.mk.inj (Except.ok.inj h)
      exact .drops (Option.isSome_iff_ne_none.mpr (by simpa using hmember)) (not_ne_iff.mp hsettled) happend rfl
  | true =>
      obtain ⟨r₂, hcast, h⟩ := bind_ok h
      obtain ⟨rfl, rfl⟩ := Prod.mk.inj (Except.ok.inj h)
      exact .takes hne r₁ happend hcast rfl

/-- A leader waits with a read until an entry of its term is committed, queues it for a round of heartbeats, or
answers it: to itself, or, with a lease, with a message. -/
inductive ReadIndexes (msg : Message) (r r' : Raft) : Prop
  | waits (many : 1 < r.quorum) (term : (r.raftLog.term r.raftLog.committed).toOption.getD 0 ≠ r.term) (same : r' = r)
  | queues (many : 1 < r.quorum) (safe : r.readOnly.option = .safe) (ro : ReadOnly) (ctx : Bytes)
      (add : r.readOnly.addRequest r.raftLog.committed msg = .ok ro) (context : Raft.requestCtx msg = .ok ctx)
      (beat : { r with readOnly := ro }.bcastHeartbeatWithCtx ctx = .ok r')
  | reads (why : r.quorum ≤ 1 ∨ (r.raftLog.term r.raftLog.committed).toOption.getD 0 = r.term ∧
        r.readOnly.option = .leaseBased ∧ (msg.from_ = 0 ∨ msg.from_ = r.id))
      (ctx : Bytes) (context : Raft.requestCtx msg = .ok ctx)
      (read : r' = { r with readStates := r.readStates ++ [{ index := r.raftLog.committed, requestCtx := ctx }] })
  | replies (many : 1 < r.quorum) (lease : r.readOnly.option = .leaseBased)
      (other : ¬ (msg.from_ = 0 ∨ msg.from_ = r.id))
      (sent : r.send { to_ := 0, type := .msgReadIndexResp, index := r.raftLog.committed, entries := msg.entries } = .ok r')

theorem leaderReadIndex_cases (h : r.leaderReadIndex msg = .ok r') : ReadIndexes msg r r' := by
  have hread : (r.quorum ≤ 1 ∨ (r.raftLog.term r.raftLog.committed).toOption.getD 0 = r.term ∧
        r.readOnly.option = .leaseBased ∧ (msg.from_ = 0 ∨ msg.from_ = r.id)) →
      (Raft.requestCtx msg >>= fun ctx => (Except.ok { r with
        readStates := r.readStates ++ [{ index := r.raftLog.committed, requestCtx := ctx }] } : Result _)) = .ok r' →
      ReadIndexes msg r r' := by
    intro hwhy h
    obtain ⟨ctx, hctx, h⟩ := bind_ok h
    exact .reads hwhy ctx hctx (Except.ok.inj h).symm
  unfold Raft.leaderReadIndex at h
  split at h
  · rename_i hmany
    dsimp only at h
    -- the term of the committed entry is known or not; the rest is the same
    split at h
    all_goals
      rename_i hterm
      have hval := congrArg (fun x => x.toOption.getD 0) hterm
      simp only [Except.toOption, Option.getD_some, Option.getD_none] at hval
      split at h
      · rename_i hne
        exact .waits hmany (fun heq => hne (hval.symm.trans heq)) (Except.ok.inj h).symm
      rename_i heq
      split at h
      · rename_i hsafe
        obtain ⟨ro, hro, h⟩ := bind_ok h
        obtain ⟨ctx, hctx, h⟩ := bind_ok h
        exact .queues hmany hsafe ro ctx hro hctx h
      rename_i hlease
      split at h
      · rename_i hown
        exact hread (Or.inr ⟨hval.trans (not_not.mp heq), hlease, hown⟩) h
      · rename_i hother
        exact .replies hmany hlease hother h
  · rename_i hone
    exact hread (Or.inl (Nat.not_lt.mp hone)) h

/-- A leader turns to a peer: it has the peer wait, offers it entries, or the snapshot in their place. -/
inductive Supplies (id : Nat) (sendIfEmpty : Bool) (p : Progress) (r : Raft) : Raft → Bool → Prop
  | waits (paused : p.isPaused = true) : Supplies id sendIfEmpty p r r false
  | spares (status : Status) (offered : r.raftLog.entries p.next r.maxMsgSize [] = .ok (status, []))
      (unasked : sendIfEmpty = false) : Supplies id sendIfEmpty p r r false
  | skips (status : Status) (es : List Entry) (offered : r.raftLog.entries p.next r.maxMsgSize [] = .ok (status, es))
      (missing : ∀ t, r.raftLog.term (p.next - 1) = .ok t → status.isOk = true → False)
      (inactive : p.recentActive = false) : Supplies id sendIfEmpty p r r false
  | entries (t : Nat) (status : Status) (es : List Entry) (p' : Progress) (r' : Raft) (ready : p.isPaused = false)
      (before : r.raftLog.term (p.next - 1) = .ok t) (offered : r.raftLog.entries p.next r.maxMsgSize [] = .ok (status, es))
      (due : es ≠ [] ∨ sendIfEmpty = true)
      (noted : es = [] ∧ p' = p ∨ ∃ last, es.getLast? = some last ∧ Raft.progressAfterSend p last.index = .ok p')
      (sent : (r.modifyProgress id fun _ => p').send
        { to_ := id, type := .msgApp, index := p.next - 1, logTerm := t, entries := es,
          commit := r.raftLog.committed } = .ok r') : Supplies id sendIfEmpty p r r' true
  | snapshot (status : Status) (es : List Entry) (r' : Raft) (ready : p.isPaused = false)
      (offered : r.raftLog.entries p.next r.maxMsgSize [] = .ok (status, es)) (due : es ≠ [] ∨ sendIfEmpty = true)
      (missing : ∀ t, r.raftLog.term (p.next - 1) = .ok t → status.isOk = true → False)
      (sent : (r.modifyProgress id fun p => p.becomeSnapshot r.raftLog.snapshot.metadata.index).send
        { to_ := id, type := .msgSnap, snapshot := r.raftLog.snapshot } = .ok r') : Supplies id sendIfEmpty p r r' true

theorem maybeSendAppend_supplies {id : Nat} {e b : Bool} (h : r.maybeSendAppend id e = .ok (r', b)) :
    ∃ p, r.getProgress id = some p ∧ Supplies id e p r r' b := by
  have hstay : ∀ {p : Progress} {b' : Bool}, (Except.ok (r, b') : Result _) = .ok (r', b) → Supplies id e p r r b' →
      Supplies id e p r r' b := by
    intro p b' h hs
    obtain ⟨rfl, rfl⟩ := Prod.mk.inj (Except.ok.inj h)
    exact hs
  unfold Raft.maybeSendAppend at h
  split at h
  · cases h
  rename_i p hp
  refine ⟨p, hp, ?_⟩
  split at h
  · rename_i hpaused
    exact hstay h (.waits hpaused)
  rename_i hready
  have hready := Bool.not_eq_true _ ▸ hready
  obtain ⟨⟨status, es⟩, hes, h⟩ := bind_ok h
  simp only at h
  split at h
  · rename_i hnone
    obtain ⟨rfl, hunasked⟩ := hnone
    exact hstay h (.spares status hes (by simpa using hunasked))
  rename_i hdue
  have hdue : es ≠ [] ∨ e = true := by
    by_contra hnot
    obtain ⟨hnil, hunasked⟩ := not_or.mp hnot
    exact hdue ⟨not_not.mp hnil, by simpa using hunasked⟩
  split at h
  · rename_i t ht _
    have hsend : ∀ {p' : Progress}, es = [] ∧ p' = p ∨ (∃ last, es.getLast? = some last ∧
        Raft.progressAfterSend p last.index = .ok p') →
        (do let r₁ ← (r.modifyProgress id fun _ => p').send
              { to_ := id, type := .msgApp, index := p.next - 1, logTerm := t, entries := es,
                commit := r.raftLog.committed }
            Except.ok (r₁, true) : Result _) = .ok (r', b) → Supplies id e p r r' b := by
      intro p' hnoted h
      obtain ⟨r₁, hsent, h⟩ := bind_ok h
      obtain ⟨rfl, rfl⟩ := Prod.mk.inj (Except.ok.inj h)
      exact .entries t status es p' _ hready ht hes hdue hnoted hsent
    split at h
    · rename_i hlast
      obtain ⟨p', hp', h⟩ := bind_ok h
      exact hsend (Or.inl ⟨List.getLast?_eq_none_iff.mp hlast, (Except.ok.inj hp').symm⟩) h
    · rename_i last hlast
      obtain ⟨p', hp', h⟩ := bind_ok h
      exact hsend (Or.inr ⟨last, hlast, hp'⟩) h
  · rename_i hmissing
    split at h
    · rename_i hinactive
      exact hstay h (.skips status es hes hmissing (by simpa using hinactive))
    split at h
    · cases h
    obtain ⟨r₁, hsent, h⟩ := bind_ok h
    obtain ⟨rfl, rfl⟩ := Prod.mk.inj (Except.ok.inj h)
    exact .snapshot status es _ hready hes hdue hmissing hsent

/-- A leader gives a transfer up that was going on, and turns to the sender. -/
inductive Transfers (msg : Message) (pr : Progress) (r r' : Raft) : Prop
  | keeps (why : pr.isLearner = true ∨ r.leadTransferee = msg.from_) (same : r' = r)
  | aborts (self : msg.from_ = r.id) (transferee : Nat) (frame : r' = { r with leadTransferee := transferee })
  | urges (other : msg.from_ ≠ r.id)
      (sent : Raft.sendTimeoutNow { r with electionElapsed := 0, leadTransferee := msg.from_ } msg.from_ = .ok r')
  | appends (other : msg.from_ ≠ r.id)
      (sent : Raft.sendAppend { r with electionElapsed := 0, leadTransferee := msg.from_ } msg.from_ = .ok r')

theorem leaderTransferLeader_cases {pr : Progress} (h : r.leaderTransferLeader pr msg = .ok r') :
    Transfers msg pr r r' := by
  unfold Raft.leaderTransferLeader at h
  split at h
  · rename_i hlearner
    exact .keeps (Or.inl hlearner) (Except.ok.inj h).symm
  split at h
  · rename_i hsame
    exact .keeps (Or.inr hsame.2) (Except.ok.inj h).symm
  obtain ⟨t, habort⟩ : ∃ t, (if r.leadTransferee ≠ 0 then r.abortLeaderTransfer else r) =
      { r with leadTransferee := t } := by
    split
    · exact ⟨_, rfl⟩
    · exact ⟨_, rfl⟩
  simp only [habort] at h
  split at h
  · rename_i hself
    exact .aborts hself t (Except.ok.inj h).symm
  rename_i hother
  split at h
  · exact .urges hother h
  · exact .appends hother h

/-! The term of the message comes before the rest. -/

/-- A higher term makes a node a follower of that term, except for pre-votes and their grants. -/
theorem higherTerm_cases (r : Raft) (msg : Message) :
    (r.higherTerm msg = r ∧ (msg.type = .msgPreVote ∨ msg.type = .msgPreVoteResp)) ∨
      ∃ lead, r.higherTerm msg = r.becomeFollower msg.term lead := by
  unfold Raft.higherTerm
  cases hty : msg.type with
  | msgPreVote => exact Or.inl ⟨rfl, Or.inl rfl⟩
  | msgPreVoteResp =>
      simp only
      split
      · exact Or.inl ⟨rfl, Or.inr trivial⟩
      · exact Or.inr ⟨_, rfl⟩
  | _ => exact Or.inr ⟨_, rfl⟩

/-- A message of a lower term is answered at most. -/
theorem lowerTerm_cases (h : r.lowerTerm msg = .ok r') :
    r' = r ∨ ∃ m, (m.type = .msgAppResp ∨ m.type = .msgPreVoteResp) ∧ r.send m = .ok r' := by
  unfold Raft.lowerTerm at h
  split at h
  · exact Or.inr ⟨_, Or.inl rfl, h⟩
  split at h
  · exact Or.inr ⟨_, Or.inr rfl, h⟩
  · exact Or.inl (Except.ok.inj h).symm

/-- Where the term of a message leads: to the switch, in the term of the node or as a follower in a higher
term, or around it. -/
inductive StepWay (msg : Message) (st : Status) (r r' : Raft) : Prop
  | stays (term : msg.term = 0 ∨ msg.term = r.term ∨
        r.term < msg.term ∧ r.higherTerm msg = r ∧ (msg.type = .msgPreVote ∨ msg.type = .msgPreVoteResp))
      (body : r.stepBody msg = .ok (r', st))
  | follows (later : r.term < msg.term) (lead : Nat) (heard : r.higherTerm msg = r.becomeFollower msg.term lead)
      (body : (r.becomeFollower msg.term lead).stepBody msg = .ok (r', st))
  | leased (later : r.term < msg.term) (type : msg.type = .msgVote ∨ msg.type = .msgPreVote) (same : r' = r)
  | stale (sent : msg.term ≠ 0) (earlier : msg.term < r.term) (lower : r.lowerTerm msg = .ok r')

theorem step_way (h : r.step msg = .ok (r', st)) : StepWay msg st r r' := by
  unfold Raft.step at h
  split at h
  · rename_i hzero
    exact .stays (Or.inl hzero) h
  rename_i hset
  split at h
  · rename_i hlater
    split at h
    · rename_i hlease
      exact .leased hlater hlease.1 (Prod.mk.inj (Except.ok.inj h)).1.symm
    rcases higherTerm_cases r msg with ⟨hsame, hty⟩ | ⟨lead, hfollow⟩
    · rw [hsame] at h
      exact .stays (Or.inr (Or.inr ⟨hlater, hsame, hty⟩)) h
    · exact .follows hlater lead hfollow (hfollow ▸ h)
  split at h
  · rename_i hearlier
    exact .stale hset hearlier (withOk_ok h)
  · exact .stays (Or.inr (Or.inl (by omega))) h

end RaftEtcd
