import RaftEtcd.Feeding
import RaftEtcd.Lease
import RaftEtcd.QuorumCommit
import RaftEtcd.Replicas
import RaftEtcd.Spared

/-! The nodes of a majority can elect a leader among themselves, whatever has happened before. They come back from their
disks, the one with the best log looks for a term in which the others are free to vote for it, and they do. -/
namespace RaftEtcd
open Consensus
variable {cfg : ClusterConfig} {c c' : Cluster} {r r' : Raft} {node node' : RawNode} {msg answer : Message}
  {log : List Entry}
  {n m t : Nat}

/-! ### A round of the driver -/

section Readies

theorem RaftLog.Whole.nextEntries_ok {l : RaftLog} (h : l.Whole) : ∃ es, l.nextEntries = .ok es := by
  have hcom := h.committed_le
  unfold RaftLog.nextEntries
  rw [h.firstIndex_eq, max_eq_left (Nat.le_add_left 1 _)]
  simp only
  split
  · obtain ⟨es, hslice, -⟩ := h.slice_spec l.maxNextEntsSize (show 1 ≤ l.applied + 1 by omega)
      (show l.applied + 1 ≤ l.committed + 1 by omega) (by omega)
    rw [hslice]
    exact ⟨es, rfl⟩
  · exact ⟨[], rfl⟩

/-- A log that is in one piece can be written down. -/
theorem persist_whole {l : RaftLog} (h : l.Whole) {rd : Ready} (hents : rd.entries = l.unstable.entries)
    (hsnap : rd.snapshot = {}) : ∃ st, persist l.storage rd = .ok st := by
  unfold persist
  rw [hsnap, hents]
  simp only [Snapshot.isEmpty, beq_self_eq_true, if_true]
  split
  · exact ⟨_, append_unstable h rfl rfl⟩
  · have happend : (l.storage.setHardState rd.hardState).append l.unstable.entries =
        .ok { l.storage.setHardState rd.hardState with ents := l.log } := append_unstable h rfl rfl
    exact ⟨_, happend⟩

theorem handleReady_ok (hg : Good cfg node.raft) : ∃ msgs node', node.handleReady = .ok (msgs, node') := by
  obtain ⟨es, hes⟩ := hg.whole.nextEntries_ok
  obtain ⟨rd, n₁, hready⟩ : ∃ rd n₁, node.ready = .ok (rd, n₁) := by
    unfold RawNode.ready Ready.new
    rw [hes]
    exact ⟨_, _, rfl⟩
  obtain ⟨-, hents, hsnap, hlog⟩ := ready_spec hready
  rw [hg.whole.no_snapshot] at hsnap
  obtain ⟨st, hst⟩ := persist_whole hg.whole hents hsnap
  unfold RawNode.handleReady
  rw [hready]
  simp only [bind, Except.bind, hlog, hst]
  exact ⟨_, _, rfl⟩

end Readies

/-! ### The voters -/

section Voters

/-- The node follows nobody, and its log is not ahead of the given one. -/
structure Raft.Open (log : List Entry) (r : Raft) : Prop where
  voter : r.isLearner = false
  free : r.lead = 0
  behind : UpToDate Entry.term r.raftLog.log log.length (lastTerm Entry.term log)

/-- The node is in no later term, and has not voted for another one in the term. -/
def Raft.MayVote (r : Raft) (n t : Nat) : Prop := r.term < t ∨ r.term = t ∧ (r.vote = 0 ∨ r.vote = n)

/-- A request for a vote, or for the promise of one. -/
structure Message.AsksFor (msg : Message) (log : List Entry) (n t : Nat) : Prop where
  type : msg.type = .msgVote ∨ msg.type = .msgPreVote
  term : msg.term = t
  source : msg.from_ = n
  index : msg.index = log.length
  logTerm : msg.logTerm = lastTerm Entry.term log

theorem isUpToDate_of {l : RaftLog} (h : l.Whole) {li lt : Nat} (hup : UpToDate Entry.term l.log li lt) :
    l.isUpToDate li lt = .ok true := by
  unfold RaftLog.isUpToDate
  rw [h.lastTerm_eq, h.lastIndex_eq]
  rcases hup with hlt | ⟨heq, hle⟩
  · simp only [bind, Except.bind, gt_iff_lt, hlt, decide_true, Bool.true_or]
  · simp only [bind, Except.bind, heq, beq_self_eq_true, ge_iff_le, hle, decide_true, Bool.and_self, Bool.or_true]

/-- The answer that grants a request. -/
structure Message.Grant (msg answer : Message) (m : Nat) : Prop where
  type : voteRespMsgType msg.type = .ok answer.type
  source : answer.from_ = m
  to_ : answer.to_ = msg.from_
  term : answer.term = msg.term
  granted : answer.reject = false

/-- Votes and promises carry their term. -/
theorem send_vote (r : Raft) (msg : Message) (hty : msg.type.isVote = true) (hterm : msg.term ≠ 0) :
    r.send msg = .ok { r with msgs := r.msgs ++ [{ msg with from_ := r.id }] } := by
  have hvote : msg.type = .msgVote ∨ msg.type = .msgVoteResp ∨ msg.type = .msgPreVote ∨ msg.type = .msgPreVoteResp := by
    revert hty
    cases msg.type <;> simp [MessageType.isVote]
  unfold Raft.send
  simp only [if_pos hvote, if_neg hterm]

/-- What agreeing leaves of the node: a vote at most is new. -/
structure Agreed (msg : Message) (r r' : Raft) (log : List Entry) (n : Nat) : Prop where
  raftLog : r'.raftLog = r.raftLog
  open_ : r'.Open log
  term : r'.term = r.term
  vote : r'.vote = if msg.type = .msgVote then n else r.vote
  answer : ∃ answer ∈ r'.msgs, msg.Grant answer r.id

theorem stepVote_agrees (hw : r.raftLog.Whole) (ho : r.Open log) (ha : msg.AsksFor log n t) (hpos : t ≠ 0)
    (hcan : r.vote = n ∨ r.vote = 0 ∨ (msg.type = .msgPreVote ∧ msg.term > r.term)) :
    ∃ r', r.stepVote msg = .ok r' ∧ Agreed msg r r' log n := by
  obtain ⟨hty, rfl, rfl, hindex, hterm⟩ := ha
  have hup := isUpToDate_of hw (hindex ▸ hterm ▸ ho.behind)
  have hfree : r.vote = msg.from_ ∨ (r.vote = 0 ∧ r.lead = 0) ∨ (msg.type = .msgPreVote ∧ msg.term > r.term) := by
    rcases hcan with h | h | h
    · exact Or.inl h
    · exact Or.inr (Or.inl ⟨h, ho.free⟩)
    · exact Or.inr (Or.inr h)
  -- the answer has the type that belongs to the request, and goes out
  obtain ⟨type, hvote, htype⟩ : ∃ type : MessageType, type.isVote = true ∧ voteRespMsgType msg.type = .ok type := by
    rcases hty with hty | hty
    · exact ⟨.msgVoteResp, rfl, by rw [hty]; rfl⟩
    · exact ⟨.msgPreVoteResp, rfl, by rw [hty]; rfl⟩
  have hsend := send_vote r { to_ := msg.from_, term := msg.term, type := type } hvote hpos
  unfold Raft.stepVote
  rw [if_neg (by rw [ho.voter]; decide), hup, htype]
  simp only [bind, Except.bind, hfree, and_self, if_true, hsend]
  refine ⟨_, rfl, ?_⟩
  have hgrant : ∃ answer ∈ r.msgs ++ [{ to_ := msg.from_, term := msg.term, type := type, from_ := r.id }],
      msg.Grant answer r.id := ⟨_, List.mem_append_right _ (List.mem_singleton_self _), htype, rfl, rfl, rfl, rfl⟩
  split
  · rename_i hty
    exact ⟨rfl, ⟨ho.voter, ho.free, ho.behind⟩, rfl, (if_pos hty).symm, hgrant⟩
  · rename_i hty
    exact ⟨rfl, ⟨ho.voter, ho.free, ho.behind⟩, rfl, (if_neg hty).symm, hgrant⟩

/-- A node that is free to vote grants the request, and stays so. -/
theorem step_agrees (hw : r.raftLog.Whole) (ho : r.Open log) (hmay : r.MayVote n t) (ha : msg.AsksFor log n t)
    (hpos : t ≠ 0) : ∃ r', r.step msg = .ok (r', .ok) ∧ r'.raftLog = r.raftLog ∧ r'.Open log ∧ r'.MayVote n t ∧
      ∃ answer ∈ r'.msgs, msg.Grant answer r.id := by
  have hterm := ha.term
  have hbody : ∀ g : Raft, g.stepBody msg = Raft.withOk (g.stepVote msg) := by
    intro g
    unfold Raft.stepBody
    rcases ha.type with hty | hty
    · rw [hty]
    · rw [hty]
  unfold Raft.step
  rw [if_neg (by omega)]
  rcases hmay with hlt | ⟨rfl, hvote⟩
  · have hleased : r.inLease = false := by simp [Raft.inLease, ho.free]
    rw [if_pos (by omega), if_neg (by rw [hleased]; simp), hbody]
    rcases ha.type with hty | hty
    · -- a real election takes the node to the term, where it has not voted yet
      have hfollow : r.higherTerm msg = r.becomeFollower t 0 := by
        unfold Raft.higherTerm
        rw [hty, hterm]
      have hfresh : (r.becomeFollower t 0).vote = 0 := by
        simp only [Raft.becomeFollower, Raft.reset_vote, if_neg (show ¬ r.term = t by omega)]
      have hlog : (r.becomeFollower t 0).raftLog = r.raftLog := Raft.reset_raftLog r t
      obtain ⟨r', hok, hagrees⟩ := stepVote_agrees (r := r.becomeFollower t 0) (hlog ▸ hw)
        ⟨by simpa [Raft.becomeFollower] using ho.voter, rfl, hlog ▸ ho.behind⟩ ha hpos (Or.inr (Or.inl hfresh))
      rw [hfollow, hok]
      refine ⟨r', rfl, hagrees.raftLog.trans hlog, hagrees.open_, Or.inr ⟨?_, Or.inr ?_⟩, ?_⟩
      · rw [hagrees.term]
        simp [Raft.becomeFollower]
      · rw [hagrees.vote, if_pos hty]
      · simpa [Raft.becomeFollower] using hagrees.answer
    · have hsame : r.higherTerm msg = r := by
        unfold Raft.higherTerm
        rw [hty]
      obtain ⟨r', hok, hagrees⟩ := stepVote_agrees hw ho ha hpos (Or.inr (Or.inr ⟨hty, by omega⟩))
      rw [hsame, hok]
      exact ⟨r', rfl, hagrees.raftLog, hagrees.open_, Or.inl (by rw [hagrees.term]; exact hlt), hagrees.answer⟩
  · obtain ⟨r', hok, hagrees⟩ := stepVote_agrees hw ho ha hpos (hvote.symm.imp_right Or.inl)
    rw [if_neg (by omega), if_neg (by omega), hbody, hok]
    refine ⟨r', rfl, hagrees.raftLog, hagrees.open_, Or.inr ⟨hagrees.term, ?_⟩, hagrees.answer⟩
    rw [hagrees.vote]
    split
    · exact Or.inr rfl
    · exact hvote

end Voters

/-! ### The candidate -/

section Candidates

/-- A request as `campaign` writes it. -/
def Raft.voteRequest (r : Raft) (ty : MessageType) (t id : Nat) : Message :=
  { type := ty, to_ := id, from_ := r.id, term := t, index := r.raftLog.log.length,
    logTerm := lastTerm Entry.term r.raftLog.log }

/-- The requests to all other voters. -/
def Raft.voteRequests (r : Raft) (ty : MessageType) (t : Nat) : List Message :=
  (r.prs.keys.filter fun id => id ≠ r.id).map (r.voteRequest ty t)

/-- A node that may campaign: it does not lead, and nothing that it has committed waits to be applied. -/
structure Raft.Settled (r : Raft) : Prop where
  role : r.state ≠ .leader
  applied : r.raftLog.applied = r.raftLog.committed

/-- What a campaign asks for first. -/
def askType (pre : Bool) : MessageType := if pre then .msgPreVote else .msgVote

def answerType (pre : Bool) : MessageType := if pre then .msgPreVoteResp else .msgVoteResp

/-- The node as it asks for votes in the next term, or for promises. -/
def Raft.campaigning (pre : Bool) (r : Raft) : Raft := if pre then r.asking else r.standing

/-- Its state once the requests are on their way. -/
def Raft.asked (pre : Bool) (r : Raft) : Raft :=
  { r.campaigning pre with msgs := r.msgs ++ r.voteRequests (askType pre) (r.term + 1) }

/-- The node campaigns, for the term or for a promise for it, and nobody has refused it yet. -/
structure Raft.Polls (pre : Bool) (log : List Entry) (t : Nat) (r : Raft) : Prop where
  state : r.state = if pre then .preCandidate else .candidate
  term : r.term + (if pre then 1 else 0) = t
  granted : ∀ v ∈ AssocMap.values r.votes, v = true
  log : r.raftLog.log = log

/-- Nobody but the node itself has answered yet. -/
theorem asked_polls (pre : Bool) (hlog : r.raftLog.log = log) : (r.asked pre).Polls pre log (r.term + 1) ∧
    (r.asked pre).votes.keys = [r.id] ∧ ∀ id ∈ r.prs.keys, id ≠ r.id →
      ∃ msg ∈ (r.asked pre).msgs, msg.AsksFor log r.id (r.term + 1) ∧ msg.type = askType pre ∧ msg.to_ = id := by
  refine ⟨?_, ?_, fun id hid hne => ?_⟩
  · cases pre with
    | true => exact ⟨rfl, rfl, by simp [Raft.asked, Raft.campaigning, Raft.asking, Raft.ownVote, AssocMap.values], hlog⟩
    | false =>
        have hterm : r.standing.term = r.term + 1 := Raft.reset_term r _
        have hlog' : r.standing.raftLog.log = log := by rwa [Raft.standing_raftLog]
        exact ⟨rfl, by simpa [Raft.asked, Raft.campaigning] using hterm,
          by simp [Raft.asked, Raft.campaigning, Raft.ownVote, AssocMap.values], hlog'⟩
  · cases pre with
    | true => rfl
    | false => rfl
  · refine ⟨r.voteRequest (askType pre) (r.term + 1) id, List.mem_append_right _ ?_, ⟨?_, rfl, rfl, ?_, ?_⟩, rfl, rfl⟩
    · exact List.mem_map_of_mem (List.mem_filter.mpr ⟨hid, decide_eq_true hne⟩)
    · cases pre with
      | true => exact Or.inr rfl
      | false => exact Or.inl rfl
    · rw [Raft.voteRequest, hlog]
    · rw [Raft.voteRequest, hlog]

/-- One answer more in the tally. -/
def Raft.tallied (r : Raft) (m : Nat) : Raft := { r with votes := r.votes.insert m true }

theorem poll_tallied {pre : Bool} (hp : r.Polls pre log t) (hnew : m ∉ r.votes.keys) :
    r.poll m true = (r.tallied m, r.votes.keys.length + 1) ∧ (r.tallied m).votes.keys.length = r.votes.keys.length + 1 ∧
      (r.tallied m).Polls pre log t := by
  have hnone : ¬ (r.votes.lookup m).isSome := fun h => hnew ((AssocMap.lookup_isSome_iff _ _).mp h)
  have hvalues : AssocMap.values (r.tallied m).votes = true :: AssocMap.values r.votes := by
    unfold AssocMap.values Raft.tallied
    rw [AList.entries_insert_of_notMem (show m ∉ r.votes from hnew)]
    rfl
  have hgranted : ∀ v ∈ AssocMap.values (r.tallied m).votes, v = true := by
    rw [hvalues]
    exact List.forall_mem_cons.mpr ⟨rfl, hp.granted⟩
  have hlength : (AssocMap.values r.votes).length = r.votes.keys.length := by
    simp [AssocMap.values, AList.keys, List.keys]
  have hkeys : (r.tallied m).votes.keys.length = r.votes.keys.length + 1 := by
    have hsame : (AssocMap.values (r.tallied m).votes).length = (r.tallied m).votes.keys.length := by
      simp [AssocMap.values, AList.keys, List.keys]
    rw [← hsame, hvalues, List.length_cons, hlength]
  refine ⟨?_, hkeys, hp.state, hp.term, hgranted, hp.log⟩
  have hcount : (AssocMap.values (r.tallied m).votes).count true = r.votes.keys.length + 1 := by
    have hall : (AssocMap.values (r.tallied m).votes).count true = (AssocMap.values (r.tallied m).votes).length :=
      List.count_eq_length.mpr fun v hv => (hgranted v hv).symm
    rw [hall, hvalues, List.length_cons, hlength]
  unfold Raft.poll
  simp only [if_neg hnone]
  exact congrArg (Prod.mk (r.tallied m)) hcount

/-- An answer that grants what the campaign asks for. -/
structure Message.Grants (pre : Bool) (t : Nat) (answer : Message) : Prop where
  type : answer.type = answerType pre
  term : answer.term = t
  granted : answer.reject = false

/-- Such an answer goes straight into the tally. -/
theorem step_polls {pre : Bool} (hp : r.Polls pre log t) (ha : answer.Grants pre t) (hpos : t ≠ 0) :
    r.step answer = r.stepCandidate answer := by
  have hterm := ha.term
  have hpolls := hp.term
  have hbody : r.stepBody answer = r.stepCandidate answer := by
    unfold Raft.stepBody
    rw [ha.type, hp.state]
    cases pre with
    | true => rfl
    | false => rfl
  unfold Raft.step
  rw [if_neg (by omega)]
  cases pre with
  | true =>
      have hsame : r.higherTerm answer = r := by
        unfold Raft.higherTerm
        rw [ha.type, ha.granted]
        rfl
      simp only [if_true] at hpolls
      rw [if_pos (by omega), if_neg (by rw [ha.type]; simp [answerType]), hsame, hbody]
  | false =>
      simp only [Bool.false_eq_true, if_false] at hpolls
      rw [if_neg (by omega), if_neg (by omega), hbody]

/-- What an answer in favour amounts to. -/
theorem step_counts {pre : Bool} (hp : r.Polls pre log t) (ha : answer.Grants pre t) (hpos : t ≠ 0)
    (hnew : answer.from_ ∉ r.votes.keys) : r.step answer =
      if r.quorum = r.votes.keys.length + 1 then
        if pre then Raft.withOk ((r.tallied answer.from_).campaign .election)
        else Raft.withOk (do
          let l ← (r.tallied answer.from_).becomeLeader
          l.bcastAppend)
      else .ok (r.tallied answer.from_, .ok) := by
  obtain ⟨hpoll, hkeys, hpolls⟩ := poll_tallied hp hnew
  have hquorum : (r.tallied answer.from_).quorum = r.quorum := rfl
  rw [step_polls hp ha hpos]
  unfold Raft.stepCandidate
  rw [ha.type]
  have hcount : ∀ {α : Type} (a b : α),
      (if r.quorum = (r.tallied answer.from_).votes.keys.length - (r.votes.keys.length + 1) then a else b) = b := by
    intro α a b
    rw [hkeys, if_neg (by unfold Raft.quorum; omega)]
  cases pre with
  | true =>
      simp only [answerType, if_true, ha.granted, Bool.not_false, hpoll, hquorum, hcount, hpolls.state]
  | false =>
      simp only [answerType, Bool.false_eq_true, if_false, ha.granted, Bool.not_false, hpoll, hquorum, hcount,
        hpolls.state, reduceCtorEq,
        if_true]

end Candidates

/-! ### The winner -/

section Winners
variable {id : Nat}

theorem appendNew_ok {l : RaftLog} (hw : l.Whole) (u : Nat) (e : Entry) :
    ∃ l', l.append (Raft.stampEntries u (l.lastIndex + 1) [e]) = .ok l' := by
  have hlen := hw.length_log
  have hpos := hw.offset_pos
  have hlast := hw.lastIndex_eq
  have hcom := hw.committed_le
  unfold RaftLog.append Unstable.truncateAndAppend
  simp only [Raft.stampEntries]
  rw [if_neg (by omega), if_pos (by omega)]
  exact ⟨_, rfl⟩

/-- The index that a quorum holds has the term of the leader only where the log has it. -/
theorem maybeCommit_goes (hw : r.raftLog.Whole) (hpos : r.term ≠ 0) (hv : r.prs.keys ≠ []) :
    ∃ r' changed, r.maybeCommit = .ok (r', changed) := by
  obtain ⟨i, -, hpicks⟩ := r.maybeCommit_picks hv
  have hlog : ∃ l changed, r.raftLog.maybeCommit i r.term = .ok (l, changed) := by
    unfold RaftLog.maybeCommit
    split
    · rw [hw.term_eq]
      simp only
      split
      · rename_i hsame
        have hin : i ≤ r.raftLog.log.length := le_length_of_termAt_pos (Nat.pos_of_ne_zero (hsame ▸ hpos))
        rw [RaftLog.commitTo, if_pos (by assumption), if_neg (by rw [hw.lastIndex_eq]; omega)]
        exact ⟨_, _, rfl⟩
      · exact ⟨_, _, rfl⟩
    · exact ⟨_, _, rfl⟩
  obtain ⟨l, changed, hlog⟩ := hlog
  have hcommit := hpicks r.learnerPrs
  rw [hlog] at hcommit
  exact ⟨_, _, hcommit⟩

/-- Nothing waits to be committed, so an entry is not refused; the peers do not hear of it yet. -/
theorem appendEntry_goes (hw : r.raftLog.Whole) (hpos : r.term ≠ 0) (hv : r.id ∈ r.prs.keys)
    (hroom : r.uncommittedSize = 0) (e : Entry) :
    ∃ r', r.appendEntry [e] = .ok (r', true) ∧ ∀ id, id ≠ r.id → r'.getProgress id = r.getProgress id := by
  obtain ⟨l, hl⟩ := appendNew_ok hw r.term e
  obtain ⟨p, hp⟩ := Option.isSome_iff_exists.mp (getProgress_isSome_iff.mpr (List.mem_append_left r.learnerPrs.keys hv))
  obtain ⟨size, hsize⟩ : ∃ size, r.increaseUncommittedSize (Raft.stampEntries r.term (r.raftLog.lastIndex + 1) [e]) =
      ({ r with uncommittedSize := size }, true) := by
    unfold Raft.increaseUncommittedSize
    simp only
    rw [if_neg fun h => absurd h.1 (by omega)]
    exact ⟨_, rfl⟩
  -- the node's own progress moves, and then the commit index may
  let grown : Raft := { r with uncommittedSize := size, raftLog := l }
  have hgrown : grown.getProgress grown.id = some p := hp
  obtain ⟨prs, lprs, hmod⟩ := grown.modifyProgress_eq r.id fun p => (p.maybeUpdate l.lastIndex).1
  have hposts := modifyProgress_posts grown r.id (fun p => (p.maybeUpdate l.lastIndex).1)
    fun p _ => maybeUpdate_flags p _
  obtain ⟨r', changed, hcommit⟩ := maybeCommit_goes
    (r := grown.modifyProgress r.id fun p => (p.maybeUpdate l.lastIndex).1)
    (hposts.raftLog ▸ appendNew_whole hw hl) (hposts.term ▸ hpos)
    (fun h => absurd (hposts.voters.keys ▸ hv : r.id ∈ _) (by rw [h]; exact List.not_mem_nil))
  refine ⟨r', ?_, fun k hk => ?_⟩
  · unfold Raft.appendEntry
    simp only [hsize, hl, bind, Except.bind]
    rw [hgrown]
    simp only
    rw [hcommit]
  · have hother := grown.getProgress_modifyProgress r.id k fun p => (p.maybeUpdate l.lastIndex).1
    rw [if_neg hk] at hother
    obtain ⟨c, rfl⟩ := maybeCommit_frame hcommit
    exact hother

/-- Every other peer is waiting for a first message. -/
def Raft.Probes (r : Raft) : Prop :=
  ∀ id p, id ≠ r.id → r.getProgress id = some p → p.state = .probe ∧ 1 ≤ p.next

theorem becomeLeader_goes (hw : r.raftLog.Whole) (hpos : r.term ≠ 0) (hv : r.id ∈ r.prs.keys)
    (hrole : r.state ≠ .follower) :
    ∃ r', r.becomeLeader = .ok r' ∧ r'.Probes := by
  have hself : r.id ∈ (r.reset r.term).prs.keys := by
    rw [Raft.reset_prs_keys]
    exact hv
  obtain ⟨p, hp⟩ := Option.isSome_iff_exists.mp ((AssocMap.lookup_isSome_iff _ _).mpr hself)
  rw [← r.reset_id r.term] at hp
  obtain ⟨r', happend, hothers⟩ := appendEntry_goes (r := { r.reset r.term with
      lead := (r.reset r.term).id
      state := .leader
      prs := AssocMap.modify (r.reset r.term).id Progress.becomeReplicate (r.reset r.term).prs
      pendingConfIndex := (r.reset r.term).raftLog.lastIndex })
    (by simpa using hw) (by simpa using hpos) (by simpa using hv) rfl {}
  have hlead : r.becomeLeader = .ok (r'.reduceUncommittedSize [{}]) := by
    unfold Raft.becomeLeader
    rw [if_neg hrole]
    simp only [hp]
    rw [happend]
    rfl
  refine ⟨_, hlead, fun k q hk hq => ?_⟩
  rw [(becomeLeader_new hlead).id] at hk
  rw [Raft.reduceUncommittedSize_eq] at hq
  have hfresh : (r.reset r.term).getProgress k = some q := by
    rw [Raft.getProgress, ← AssocMap.lookup_modify_ne hk Progress.becomeReplicate]
    rw [← r.reset_id r.term] at hk
    have hother := (hothers k hk).symm.trans hq
    rw [Raft.reset_id] at hother
    exact hother
  rw [Raft.reset_getProgress] at hfresh
  obtain ⟨q₀, -, rfl⟩ := Option.map_eq_some_iff.mp hfresh
  exact ⟨rfl, Nat.succ_pos _⟩

/-- A peer that is probed gets a message, and is asked no more until it answers. -/
theorem sendAppend_probes (hw : r.raftLog.Whole) (hp : r.Probes) (hid : id ≠ r.id) (hpeer : (r.getProgress id).isSome) :
    ∃ r', r.sendAppend id = .ok r' ∧ r'.Probes := by
  obtain ⟨p, hget⟩ := Option.isSome_iff_exists.mp hpeer
  obtain ⟨hstate, hnext⟩ := hp id p hid hget
  obtain ⟨es, hentries, -⟩ := hw.entries_spec r.maxMsgSize hnext
  unfold Raft.sendAppend Raft.maybeSendAppend
  simp only [hget]
  by_cases hpaused : p.isPaused = true
  · rw [if_pos hpaused]
    exact ⟨r, rfl, hp⟩
  · -- the message goes out, whatever it says, and leaves a probe of the peer
    have hgoes : ∀ q : Progress, q.state = .probe → 1 ≤ q.next → ∃ ms,
        (r.modifyProgress id fun _ => q).send
          { to_ := id, type := .msgApp, index := p.next - 1, logTerm := termAt Entry.term r.raftLog.log (p.next - 1),
            entries := es, commit := r.raftLog.committed } = .ok { r.modifyProgress id fun _ => q with msgs := ms } ∧
        ({ r.modifyProgress id fun _ => q with msgs := ms } : Raft).Probes := by
      intro q hstate hnext
      obtain ⟨ms, hsend⟩ := send_total (r := r.modifyProgress id fun _ => q)
        (m := { to_ := id, type := .msgApp, index := p.next - 1,
                logTerm := termAt Entry.term r.raftLog.log (p.next - 1), entries := es,
                commit := r.raftLog.committed }) rfl rfl
      refine ⟨ms, hsend, fun k q' hk hq' => ?_⟩
      have hsame : (r.modifyProgress id fun _ => q).id = r.id := (modifyProgress_sends r id _).id
      change (r.modifyProgress id fun _ => q).getProgress k = some q' at hq'
      rw [Raft.getProgress_modifyProgress, hget] at hq'
      split at hq'
      · rw [← Option.some.inj hq']
        exact ⟨hstate, hnext⟩
      · exact hp k q' (hsame ▸ hk) hq'
    rw [if_neg hpaused, hentries, hw.term_eq]
    simp only [bind, Except.bind, Status.isOk, Bool.not_true, Bool.false_eq_true, and_false, if_false]
    cases es.getLast? with
    | none =>
        obtain ⟨ms, hsend, hprobes⟩ := hgoes p hstate hnext
        simp only [hsend]
        exact ⟨_, rfl, hprobes⟩
    | some e =>
        obtain ⟨ms, hsend, hprobes⟩ := hgoes p.setPause hstate hnext
        simp only [Raft.progressAfterSend, hstate, hsend]
        exact ⟨_, rfl, hprobes⟩

theorem bcastAppend_probes (hw : r.raftLog.Whole) (hp : r.Probes) : ∃ r', r.bcastAppend = .ok r' := by
  have hrounds : ∀ (ids : List Nat) (g : Raft), g.raftLog.Whole → g.Probes →
    (∀ id ∈ ids, id ≠ g.id ∧ (g.getProgress id).isSome) →
      ∃ g', ids.foldlM (fun r id => r.sendAppend id) g = .ok g' := by
    intro ids
    induction ids with
    | nil => exact fun g _ _ _ => ⟨g, rfl⟩
    | cons id ids ih =>
        intro g hw hp hids
        obtain ⟨hne, hpeer⟩ := hids id (List.mem_cons_self ..)
        obtain ⟨g₁, hsend, hp₁⟩ := sendAppend_probes hw hp hne hpeer
        have hposts := sendAppend_posts hsend
        have hmembers := SameMembers.of_posts hposts
        rw [List.foldlM_cons, hsend]
        refine ih g₁ (hposts.raftLog ▸ hw) hp₁ fun k hk => ?_
        obtain ⟨hne, hpeer⟩ := hids k (List.mem_cons_of_mem _ hk)
        rw [hmembers.id, getProgress_isSome_iff, hmembers.progressIds, ← getProgress_isSome_iff]
        exact ⟨hne, hpeer⟩
  refine hrounds _ r hw hp fun k hk => ?_
  obtain ⟨hmem, hne⟩ := List.mem_filter.mp hk
  exact ⟨of_decide_eq_true hne, getProgress_isSome_iff.mpr hmem⟩

/-- A candidate with a quorum takes the lead, and says so to everybody. -/
theorem leads_of_quorum (hw : r.raftLog.Whole) (hpos : r.term ≠ 0) (hv : r.id ∈ r.prs.keys)
    (hrole : r.state ≠ .follower) :
    ∃ r', (do
        let l ← r.becomeLeader
        l.bcastAppend) = .ok r' ∧ r'.state = .leader ∧ r'.term = r.term ∧ r.raftLog.log <+: r'.raftLog.log := by
  obtain ⟨l, hlead, hp⟩ := becomeLeader_goes hw hpos hv hrole
  have hnew := becomeLeader_new hlead
  obtain ⟨r', hbcast⟩ := bcastAppend_probes (becomeLeader_whole hw hlead) hp
  have hposts := bcastAppend_posts hbcast
  refine ⟨r', ?_, hposts.state.trans hnew.state, hposts.term.trans hnew.term, ?_⟩
  · rw [hlead]
    exact hbcast
  · obtain ⟨log, c, happend, hlog⟩ := hnew.log
    have hspec := (hw.append_spec (Nat.succ_pos _) (by simp [Raft.stampEntries]) (stampEntries_indexed _ _ _)
      happend).2.1
    rw [Nat.succ_sub_one, hw.lastIndex_eq, List.take_length] at hspec
    rw [hposts.raftLog, hlog]
    exact ⟨_, hspec.symm⟩

/-- The votes are enough. -/
theorem step_elected (hw : r.raftLog.Whole) (hp : r.Polls false log t) (ha : answer.Grants false t)
    (hnew : answer.from_ ∉ r.votes.keys) (hmost : r.quorum = r.votes.keys.length + 1) (hv : r.id ∈ r.prs.keys)
    (hpos : t ≠ 0) :
    ∃ r', r.step answer = .ok (r', .ok) ∧ r'.state = .leader ∧ r'.term = t ∧ log <+: r'.raftLog.log := by
  have hterm : r.term = t := hp.term
  have hrole : (r.tallied answer.from_).state ≠ .follower := by
    change r.state ≠ .follower
    rw [hp.state]
    decide
  obtain ⟨r', hlead, hstate, hsame, hlog⟩ :=
    leads_of_quorum (r := r.tallied answer.from_) hw (show r.term ≠ 0 by omega) hv hrole
  refine ⟨r', ?_, hstate, hsame.trans hterm, hp.log ▸ hlog⟩
  rw [step_counts hp ha hpos hnew, if_pos hmost, if_neg Bool.false_ne_true, hlead]
  rfl

end Winners

end RaftEtcd
