import RaftEtcd.CatchUp
import RaftEtcd.Matching
import RaftEtcd.SendLoop

/-! What a follower does with an append of its term, and a leader with the answer: the one puts the entries in where
they fit, the other goes on from there with whatever the window takes. -/
namespace RaftEtcd
variable {r r' f f' g g' : Raft} {msg resp m : Message} {p p' : Progress} {l : LogicalLog} {id : Nat}

/-! ### The follower -/

/-- What a follower does with an append of its term. -/
inductive Raft.Follows (f : Raft) (msg : Message) (f' : Raft) (resp : Message) : Prop
  | behind (low : msg.index < f.raftLog.committed) (log : f'.raftLog = f.raftLog) (accepts : resp.reject = false)
      (index : resp.index = f.raftLog.committed)
  | refuses (high : f.raftLog.committed ≤ msg.index) (unmatched : f.raftLog.matchTerm msg.index msg.logTerm = false)
      (log : f'.raftLog = f.raftLog) (rejects : resp.reject = true) (index : resp.index = msg.index)
      (hint : resp.rejectHint = f.raftLog.lastIndex)
  | takes (high : f.raftLog.committed ≤ msg.index) (matched : f.raftLog.matchTerm msg.index msg.logTerm = true)
      (accepts : resp.reject = false) (index : resp.index = msg.index + msg.entries.length)
      (coupled : f'.raftLog.Coupled) (committed : f'.raftLog.committed ≤ msg.index + msg.entries.length)
      (appended : f.raftLog.logical.Appended msg.index msg.entries f'.raftLog.logical)

/-- The follower has stepped a message and answered it. -/
structure Raft.Responds (f : Raft) (msg : Message) (f' : Raft) (resp : Message) : Prop where
  step : f.step msg = .ok (f', .ok)
  same : f'.id = f.id ∧ f'.term = f.term ∧ f'.state = f.state
  msgs : f'.msgs = f.msgs ++ [resp]
  type : resp.type = .msgAppResp
  to_ : resp.to_ = msg.from_
  from_ : resp.from_ = f.id
  term : resp.term = f.term
  follows : f.Follows msg f' resp

theorem follower_responds (hf : f.state = .follower) (hc : f.raftLog.Coupled) (hty : msg.type = .msgApp)
    (hterm : msg.term = f.term) (ht : msg.index ≠ 0 → msg.logTerm ≠ 0) (hidx : IndexedFrom (msg.index + 1) msg.entries)
    (hpos : ∀ e ∈ msg.entries, e.term ≠ 0) : ∃ f' resp, f.Responds msg f' resp := by
  have hstep : f.step msg =
      Raft.withOk (Raft.handleAppendEntries { f with electionElapsed := 0, lead := msg.from_ } msg) := by
    rw [step_same_term hterm]
    unfold Raft.stepBody
    simp only [hty, hf, Raft.stepFollower]
  unfold Raft.handleAppendEntries at hstep
  simp only at hstep
  by_cases hlow : msg.index < f.raftLog.committed
  · rw [if_pos hlow] at hstep
    exact ⟨_, _, hstep, ⟨rfl, rfl, rfl⟩, rfl, rfl, rfl, rfl, rfl, .behind hlow rfl rfl rfl⟩
  rw [if_neg hlow] at hstep
  have hhigh := Nat.not_lt.mp hlow
  cases hmatch : f.raftLog.matchTerm msg.index msg.logTerm with
  | false =>
      have hrefused : f.raftLog.maybeAppend msg.index msg.logTerm msg.commit msg.entries = .ok (f.raftLog, none) := by
        rw [RaftLog.maybeAppend, hmatch]
        rfl
      rw [hrefused] at hstep
      exact ⟨_, _, hstep, ⟨rfl, rfl, rfl⟩, rfl, rfl, rfl, rfl, rfl, .refuses hhigh hmatch rfl rfl rfl rfl⟩
  | true =>
      obtain ⟨log, happ, hcom, -, hcoupled, happended⟩ : ∃ log, f.raftLog.maybeAppend msg.index msg.logTerm msg.commit
          msg.entries = .ok (log, some (msg.index + msg.entries.length)) ∧ _ := hc.maybeAppend_ok hmatch hhigh ht hidx hpos
      rw [happ] at hstep
      refine ⟨_, _, hstep, ⟨rfl, rfl, rfl⟩, rfl, rfl, rfl, rfl, rfl, .takes hhigh hmatch rfl rfl hcoupled ?_ happended⟩
      simp only [hcom]
      omega

/-! ### The leader -/

/-- A leader that has the whole of its log to offer. -/
structure Raft.Offers (l : LogicalLog) (r : Raft) : Prop where
  state : r.state = .leader
  term : r.term ≠ 0
  coupled : r.raftLog.Coupled
  logical : r.raftLog.logical = l
  servable : r.raftLog.Servable
  windowed : r.Windowed

/-- An append to the peer with a piece of the log. -/
structure Message.Copies (l : LogicalLog) (lead term id : Nat) (m : Message) : Prop where
  type : m.type = .msgApp
  from_ : m.from_ = lead
  to_ : m.to_ = id
  term : m.term = term
  logTerm : m.logTerm = l.termOf m.index
  piece : l.Piece m.index m.entries

/-- The leader has turned to the peer: it sends nothing, or the batch that comes next. -/
inductive Raft.Offered (l : LogicalLog) (id : Nat) (e : Bool) (p : Progress) (r r' : Raft) : Bool → Prop
  | rests (same : r' = r) (why : p.isPaused = true ∨ e = false ∧ p.next = l.lastIndex + 1) : Offered l id e p r r' false
  | appends (m : Message) (p' : Progress) (ready : p.isPaused = false) (copies : m.Copies l r.id r.term id)
      (index : m.index + 1 = p.next) (batch : m.entries = l.batch m.index r.maxMsgSize) (msgs : r'.msgs = r.msgs ++ [m])
      (progress : r'.getProgress id = some p') (noted : m.entries = [] ∧ p' = p ∨
        m.entries ≠ [] ∧ Raft.progressAfterSend p (m.index + m.entries.length) = .ok p') : Offered l id e p r r' true

namespace Raft.Offers

theorem offered (hr : r.Offers l) (hl : l.Complete) (hp : r.getProgress id = some p) (hpos : 1 ≤ p.next)
    (hle : p.next ≤ l.lastIndex + 1) {e b : Bool} (h : r.maybeSendAppend id e = .ok (r', b)) :
    Raft.Offered l id e p r r' b := by
  have hbatch : r.raftLog.entries p.next r.maxMsgSize [] = .ok (.ok, l.batch (p.next - 1) r.maxMsgSize) := by
    rw [hr.coupled.entries_batch (hr.logical ▸ hl) hpos (hr.logical ▸ hle), hr.logical]
  have hterm : r.raftLog.term (p.next - 1) = .ok (l.termOf (p.next - 1)) := by
    rw [hr.coupled.term_eq, hr.logical]
  have hoffered : ∀ {status es}, r.raftLog.entries p.next r.maxMsgSize [] = .ok (status, es) →
      status = .ok ∧ es = l.batch (p.next - 1) r.maxMsgSize := by
    intro status es hes
    exact Prod.mk.inj (Except.ok.inj (hes.symm.trans hbatch))
  obtain ⟨q, hq, hs⟩ := maybeSendAppend_supplies h
  obtain rfl := Option.some.inj (hp.symm.trans hq)
  cases hs with
  | waits paused => exact .rests rfl (Or.inl paused)
  | spares status offered unasked =>
      have hnil := (LogicalLog.batch_nil hl (by omega)).mp (hoffered offered).2.symm
      exact .rests rfl (Or.inr ⟨unasked, by omega⟩)
  | skips status es offered missing inactive =>
      obtain ⟨rfl, -⟩ := hoffered offered
      exact (missing _ hterm rfl).elim
  | snapshot status es _ ready offered due missing sent =>
      obtain ⟨rfl, -⟩ := hoffered offered
      exact (missing _ hterm rfl).elim
  | entries t status es p' _ ready before offered due noted sent =>
      obtain ⟨-, rfl⟩ := hoffered offered
      obtain rfl := Except.ok.inj (before.symm.trans hterm)
      have hget := r.getProgress_modifyProgress id id fun _ => p'
      rw [if_pos rfl, hp] at hget
      obtain ⟨prs, lprs, heq⟩ := r.modifyProgress_eq id fun _ => p'
      obtain ⟨t, rfl, -, ht⟩ := send_spec sent
      rw [heq] at hget ht ⊢
      have hpiece : l.Piece (p.next - 1) (l.batch (p.next - 1) r.maxMsgSize) := LogicalLog.batch_piece hl (by omega)
      refine .appends _ p' ready ⟨rfl, rfl, rfl, ht rfl nofun, rfl, hpiece⟩ (Nat.sub_add_cancel hpos) rfl rfl hget ?_
      rcases noted with hnone | ⟨last, hlast, hnoted⟩
      · exact Or.inl hnone
      · obtain ⟨front, hfront⟩ := List.getLast?_eq_some_iff.mp hlast
        have hindex := hpiece.index_of_get (k := front.length) (e := last) (by rw [hfront, List.getElem?_concat_length])
        refine Or.inr ⟨List.ne_nil_of_mem (List.mem_of_getLast? hlast), ?_⟩
        rw [← hnoted]
        congr 1
        simp only [hfront, List.length_append, List.length_singleton]
        omega

theorem kept : Raft.KeptByAppends (Raft.Offers l) := by
  intro r r' id e b hr h
  have hposts := maybeSendAppend_posts h
  have hlog := hposts.raftLog
  exact ⟨hposts.state.trans hr.state, hposts.term ▸ hr.term, hlog ▸ hr.coupled, hlog ▸ hr.logical, hlog ▸ hr.servable,
    maybeSendAppend_keeps Raft.Windowed.kept hr.windowed h⟩

end Raft.Offers

/-- Turning to another peer puts nothing out for this one and leaves what is known of it. -/
theorem maybeSendAppend_others {k : Nat} {e b : Bool} (hne : id ≠ k) (h : r.maybeSendAppend k e = .ok (r', b)) :
    r'.getProgress id = r.getProgress id ∧ ∃ ms, r'.msgs = r.msgs ++ ms ∧ ∀ m ∈ ms, m.to_ = k := by
  have hstay : r.getProgress id = r.getProgress id ∧ ∃ ms, r.msgs = r.msgs ++ ms ∧ ∀ m ∈ ms, m.to_ = k :=
    ⟨rfl, [], (List.append_nil _).symm, nofun⟩
  have hsend : ∀ {f : Progress → Progress} {m : Message}, m.to_ = k → (r.modifyProgress k f).send m = .ok r' →
      r'.getProgress id = r.getProgress id ∧ ∃ ms, r'.msgs = r.msgs ++ ms ∧ ∀ m ∈ ms, m.to_ = k := by
    intro f m hto hs
    have hget := r.getProgress_modifyProgress k id f
    rw [if_neg hne] at hget
    obtain ⟨prs, lprs, heq⟩ := r.modifyProgress_eq k f
    obtain ⟨t, rfl, -, -⟩ := send_spec hs
    rw [heq] at hget ⊢
    refine ⟨hget, _, rfl, fun m' hm' => ?_⟩
    rw [List.mem_singleton.mp hm']
    exact hto
  obtain ⟨p, -, hs⟩ := maybeSendAppend_supplies h
  cases hs with
  | waits paused => exact hstay
  | spares status offered unasked => exact hstay
  | skips status es offered missing inactive => exact hstay
  | entries t status es p' _ ready before offered due noted sent => exact hsend rfl sent
  | snapshot status es _ ready offered due missing sent => exact hsend rfl sent

/-- The appends among some messages that are for the peer. -/
def appendsTo (id : Nat) (ms : List Message) : List Message := ms.filter fun m => m.type = .msgApp ∧ m.to_ = id

theorem appendsTo_append (ms ms' : List Message) : appendsTo id (ms ++ ms') = appendsTo id ms ++ appendsTo id ms' :=
  List.filter_append ..

theorem appendsTo_none {ms : List Message} (h : ∀ m ∈ ms, m.type ≠ .msgApp ∨ m.to_ ≠ id) : appendsTo id ms = [] := by
  rw [appendsTo, List.filter_eq_nil_iff]
  intro m hm
  simpa [imp_iff_not_or] using h m hm

/-- Appends that carry the log from one index to another, each from where the one before ends. -/
def Flow (l : LogicalLog) (lead term id : Nat) : Nat → List Message → Nat → Prop
  | i, [], j => i = j
  | i, m :: ms, j => m.Copies l lead term id ∧ m.index = i ∧ Flow l lead term id (i + m.entries.length) ms j

section Flowing
variable {lead term i j k : Nat} {ms ms' : List Message}

theorem Flow.append (h : Flow l lead term id i ms j) (h' : Flow l lead term id j ms' k) :
    Flow l lead term id i (ms ++ ms') k := by
  induction ms generalizing i with
  | nil =>
      obtain rfl := h
      exact h'
  | cons m ms ih => exact ⟨h.1, h.2.1, ih h.2.2⟩

theorem Flow.le (h : Flow l lead term id i ms j) : i ≤ j := by
  induction ms generalizing i with
  | nil => exact Nat.le_of_eq h
  | cons m ms ih => exact (Nat.le_add_right _ _).trans (ih h.2.2)

end Flowing

/-- The same node in the same term, with the same voters and the same limit on what goes into one message. -/
structure Raft.Like (r₀ r : Raft) : Prop where
  id : r.id = r₀.id
  term : r.term = r₀.term
  limit : r.maxMsgSize = r₀.maxMsgSize
  voters : r.prs.keys = r₀.prs.keys

theorem Raft.Like.posts {r₀ : Raft} (h : Raft.Like r₀ r) (hp : Posts r r') : Raft.Like r₀ r' := by
  have hkeys := hp.voters.keys
  obtain ⟨prs, lprs, msgs, rfl⟩ := hp.rest
  exact ⟨h.id, h.term, h.limit, hkeys.trans h.voters⟩

/-- The leader replicates to the peer, which is known to have the log up to `m`. The appends that it has put out since
`r₀` carry the log on from `a` to the next index of the peer; without a window there are none. -/
structure Raft.Feeding (l : LogicalLog) (id : Nat) (r₀ : Raft) (a m size : Nat) (r : Raft) (p : Progress)
    (ms : List Message) : Prop where
  known : r.getProgress id = some p
  state : p.state = .replicate
  matched : p.matched = m
  window : p.inflights.size = size
  pipelined : p.Pipelined
  within : p.next ≤ l.lastIndex + 1
  msgs : r.msgs = r₀.msgs ++ ms
  flow : Flow l r₀.id r₀.term id a (appendsTo id ms) (p.next - 1)
  idle : size = 0 → appendsTo id ms = []

structure Raft.Feeds (l : LogicalLog) (id : Nat) (r₀ : Raft) (a m size : Nat) (r : Raft) : Prop where
  offers : r.Offers l
  like : Raft.Like r₀ r
  feeding : ∃ p ms, Raft.Feeding l id r₀ a m size r p ms

/-- The peer gets the batch that comes next. -/
theorem Raft.Feeding.appends {r₀ : Raft} {a m size : Nat} {ms : List Message} {msg : Message}
    (h : Raft.Feeding l id r₀ a m size r p ms) (hlaid : p.inflights.Laid) (ready : p.isPaused = false)
    (copies : msg.Copies l r₀.id r₀.term id) (index : msg.index + 1 = p.next) (msgs : r'.msgs = r.msgs ++ [msg])
    (known : r'.getProgress id = some p') (noted : msg.entries = [] ∧ p' = p ∨
      msg.entries ≠ [] ∧ Raft.progressAfterSend p (msg.index + msg.entries.length) = .ok p') :
    Raft.Feeding l id r₀ a m size r' p' (ms ++ [msg]) := by
  have hfull : p.inflights.isFull = false := by
    rw [← ready, Progress.isPaused, h.state]
  have hroom : size ≠ 0 := by
    intro hzero
    have hcount := hlaid.count_le
    have hwindow := h.window
    have hne := beq_eq_false_iff_ne.mp hfull
    omega
  have hnew : appendsTo id (ms ++ [msg]) = appendsTo id ms ++ [msg] := by
    rw [appendsTo_append]
    congr 1
    simp [appendsTo, copies.type, copies.to_]
  have hmsgs : r'.msgs = r₀.msgs ++ (ms ++ [msg]) := by
    rw [msgs, h.msgs, List.append_assoc]
  have hflow : ∀ j, j = msg.index + msg.entries.length → Flow l r₀.id r₀.term id a (appendsTo id (ms ++ [msg])) j := by
    rintro j rfl
    rw [hnew]
    exact h.flow.append ⟨copies, by omega, by rw [show p.next - 1 = msg.index by omega]; rfl⟩
  rcases noted with ⟨hnil, rfl⟩ | ⟨hne, hnoted⟩
  · refine ⟨known, h.state, h.matched, h.window, h.pipelined, h.within, hmsgs, hflow _ ?_,
      fun hzero => absurd hzero hroom⟩
    rw [hnil, List.length_nil]
    omega
  · have hlen := List.length_pos_iff.mpr hne
    unfold Raft.progressAfterSend at hnoted
    simp only [h.state] at hnoted
    obtain ⟨w, hadd, hnoted⟩ := bind_ok hnoted
    obtain ⟨-, -, hsent, hsize⟩ := hlaid.add hadd
    obtain rfl := Except.ok.inj hnoted
    refine ⟨known, h.state, h.matched, hsize.trans h.window, h.pipelined.sends (by omega) hsent,
      Nat.succ_le_succ copies.piece.within, hmsgs, hflow _ ?_, fun hzero => absurd hzero hroom⟩
    simp only [Progress.optimisticUpdate]
    omega

theorem Raft.Feeds.kept (hl : l.Complete) (id : Nat) (r₀ : Raft) (a m size : Nat) :
    Raft.KeptByAppends (Raft.Feeds l id r₀ a m size) := by
  intro r r' k e b hr h
  have hposts := maybeSendAppend_posts h
  have hoffers := Raft.Offers.kept hr.offers h
  obtain ⟨p, ms, hp⟩ := hr.feeding
  have hlike := hr.like.posts hposts
  by_cases hk : id = k
  · subst hk
    have hpos : 1 ≤ p.next := Nat.lt_of_le_of_lt (Nat.zero_le _) hp.pipelined.behind
    cases hr.offers.offered hl hp.known hpos hp.within h with
    | rests same why =>
        subst same
        exact hr
    | appends msg p' ready copies index batch msgs progress noted =>
        rw [hr.like.id, hr.like.term] at copies
        exact ⟨hoffers, hlike, p', _, hp.appends (hr.offers.windowed.get hp.known).window.laid ready copies index msgs
          progress noted⟩
  · obtain ⟨hget, ms', hms', hto⟩ := maybeSendAppend_others hk h
    have hnone : appendsTo id (ms ++ ms') = appendsTo id ms := by
      have hothers : appendsTo id ms' = [] := appendsTo_none fun m hm => Or.inr fun heq => hk (heq.symm.trans (hto m hm))
      rw [appendsTo_append, hothers, List.append_nil]
    exact ⟨hoffers, hlike, p, ms ++ ms', hget.trans hp.known, hp.state, hp.matched, hp.window, hp.pipelined, hp.within,
      by rw [hms', hp.msgs, List.append_assoc], hnone ▸ hp.flow, hnone ▸ hp.idle⟩

/-! ### What the leader makes of an answer -/

theorem RaftLog.Coupled.orderly {log : RaftLog} (h : log.Coupled) : log.Orderly where
  stored := h.stored
  unstable := h.indexed
  snapshot_le := by
    have hbase := h.base_le
    have hcom := h.committed_lt
    have hlen := h.aligned.length_eq
    rw [h.lastIndex_eq, LogicalLog.lastIndex]
    unfold RaftLog.snapshot
    cases hs : log.unstable.snapshot with
    | none =>
        have := h.snapshot_le
        simp only
        omega
    | some s =>
        rw [RaftLog.logical_some hs]
        simp only
        omega

/-- Only the commit index moves, within the log. -/
theorem RaftLog.Coupled.commits {log : RaftLog} (h : log.Coupled) {c : Nat} (hge : log.committed ≤ c)
    (hle : c ≤ log.lastIndex) : RaftLog.Coupled { log with committed := c } := by
  have hcommit := RaftLog.commitTo_eq hle
  rw [max_eq_right hge] at hcommit
  exact (h.commitTo hcommit).1

namespace Raft.Offers
variable {q : Progress}

/-- Whatever the leader notes of a peer, it has its log to offer. -/
theorem notes (hr : r.Offers l) (hp : r.getProgress id = some p) (hq : q.Sound) :
    (r.modifyProgress id fun _ => q).Offers l ∧ Raft.Like r (r.modifyProgress id fun _ => q) ∧
      (r.modifyProgress id fun _ => q).msgs = r.msgs ∧ (r.modifyProgress id fun _ => q).getProgress id = some q := by
  have hwindowed := hr.windowed.modify id (f := fun _ => q) fun _ _ _ => hq
  have hkeys := (modifyProgress_sends r id fun _ => q).keys
  have hget := r.getProgress_modifyProgress id id fun _ => q
  rw [if_pos rfl, hp] at hget
  obtain ⟨prs, lprs, heq⟩ := r.modifyProgress_eq id fun _ => q
  rw [heq] at hwindowed hkeys hget ⊢
  exact ⟨⟨hr.state, hr.term, hr.coupled, hr.logical, hr.servable, hwindowed⟩, ⟨rfl, rfl, rfl, hkeys⟩, rfl, hget⟩

theorem commits (hr : r.Offers l) {c : Nat} (hge : r.raftLog.committed ≤ c) (hle : c ≤ r.raftLog.lastIndex) :
    Raft.Offers l { r with raftLog := { r.raftLog with committed := c } } := by
  have hlogical : RaftLog.logical { r.raftLog with committed := c } = r.raftLog.logical := rfl
  exact ⟨hr.state, hr.term, hr.coupled.commits hge hle, hlogical.trans hr.logical, hr.servable.commits hge hle,
    hr.windowed.congr rfl ⟨rfl, rfl⟩⟩

theorem sendAfterAck_ok (hr : r.Offers l) (hid : (r.getProgress id).isSome) (changed paused : Bool) :
    ∃ r', r.sendAfterAck id changed paused = .ok r' := by
  unfold Raft.sendAfterAck
  cases changed with
  | true => exact bcastAppend_ok hr.servable hr.windowed
  | false =>
      cases paused with
      | true => exact sendAppend_ok hr.servable hr.windowed hid
      | false => exact ⟨r, rfl⟩

end Raft.Offers

/-- What follows the loop puts out no append. -/
theorem afterSendLoop_ok (r : Raft) (msg : Message) : ∃ r' ms, r.afterSendLoop msg = .ok r' ∧
    r' = { r with msgs := r.msgs ++ ms } ∧ ∀ m ∈ ms, m.type ≠ .msgApp := by
  have hstay : ∃ ms, r = { r with msgs := r.msgs ++ ms } ∧ ∀ m ∈ ms, m.type ≠ .msgApp :=
    ⟨[], by rw [List.append_nil], nofun⟩
  unfold Raft.afterSendLoop
  split
  · exact ⟨r, hstay.choose, rfl, hstay.choose_spec⟩
  split
  · refine ⟨_, [_], rfl, rfl, fun m hm => ?_⟩
    rw [List.mem_singleton.mp hm]
    exact nofun
  · exact ⟨r, hstay.choose, rfl, hstay.choose_spec⟩

/-- An acknowledgement brings news: the leader notes it in `q`, commits what a quorum has, turns to its peers, and
goes on with this one until nothing more is due. -/
structure Raft.HearsNews (l : LogicalLog) (r : Raft) (msg : Message) (q : Progress) (r₂ r₃ : Raft) : Prop where
  offers : r₂.Offers l
  like : Raft.Like r r₂
  msgs : r₂.msgs = r.msgs
  progress : r₂.getProgress msg.from_ = some q
  sent : ∀ I : Raft → Prop, Raft.KeptByAppends I → I r₂ → I r₃
  done : r₃.maybeSendAppend msg.from_ false = .ok (r₃, false)
  after : r.leaderAppResp msg = r₃.afterSendLoop msg

theorem Raft.Offers.hearsNews (hr : r.Offers l) (hvoter : r.prs.keys ≠ []) (hp : r.getProgress msg.from_ = some p)
    (haccept : msg.reject = false) (hnews : p.matched < msg.index) {q : Progress}
    (hq : Raft.progressAfterAck (Progress.maybeUpdate { p with recentActive := true } msg.index).1 msg.index = .ok q) :
    ∃ r₂ r₃, r.HearsNews l msg q r₂ r₃ := by
  have hactive : Progress.Sound { p with recentActive := true } :=
    ⟨(hr.windowed.get hp).next_pos, (hr.windowed.get hp).window⟩
  obtain ⟨q', hack, hsound⟩ := (hactive.maybeUpdate msg.index).ack msg.index
  obtain rfl := Except.ok.inj (hq.symm.trans hack)
  have hnoted : (r.modifyProgress msg.from_ fun p => { p with recentActive := true }).modifyProgress msg.from_
      (fun _ => q) = r.modifyProgress msg.from_ fun _ => q := Raft.Presides.modifyProgress_modifyProgress r msg.from_ _ _
  obtain ⟨hmodified, hlike, hmsgs, hget⟩ := hr.notes hp hsound
  generalize r.modifyProgress msg.from_ (fun _ => q) = r₁ at hnoted hmodified hlike hmsgs hget
  -- a quorum may have more than before
  obtain ⟨c, changed, hcommit, hge, hle⟩ := maybeCommit_ok hmodified.servable (fun hzero => absurd hzero hmodified.term)
    (hlike.voters ▸ hvoter)
  have hoffers := hmodified.commits hge hle
  have hget₂ : Raft.getProgress { r₁ with raftLog := { r₁.raftLog with committed := c } } msg.from_ = some q := hget
  obtain ⟨g, hsent⟩ := hoffers.sendAfterAck_ok (Option.isSome_of_eq_some hget₂) changed p.isPaused
  have hbefore : r.beforeSendLoop msg = .ok (some g) := by
    have hget₁ := r.getProgress_modifyProgress msg.from_ msg.from_ fun p => { p with recentActive := true }
    rw [if_pos rfl, hp, Option.map_some] at hget₁
    have hupdate : Progress.maybeUpdate { p with recentActive := true } msg.index =
        ((Progress.maybeUpdate { p with recentActive := true } msg.index).1, true) := by
      rw [Progress.maybeUpdate_eq]
      exact Prod.ext rfl (decide_eq_true hnews)
    unfold Raft.beforeSendLoop
    dsimp only
    rw [hget₁]
    dsimp only
    rw [hupdate]
    dsimp only
    rw [hq]
    change (Raft.maybeCommit ((Raft.modifyProgress _ _ _).modifyProgress _ _) >>= _) = _
    rw [hnoted, hcommit]
    change (Raft.sendAfterAck _ msg.from_ changed p.isPaused >>= _) = _
    rw [hsent]
    rfl
  -- the loop goes on from there, and ends
  have hmember : (g.getProgress msg.from_).isSome :=
    sendAfterAck_keeps (member_kept msg.from_) (Option.isSome_of_eq_some hget₂) hsent
  have hg : g.Offers l := Raft.KeptByAppends.sendAfterAck Raft.Offers.kept hoffers hsent
  obtain ⟨p', hp'⟩ := Option.isSome_iff_exists.mp hmember
  have hloop := sendAppendLoop_repeats ⟨hg.coupled.orderly, p', hp', (hg.windowed.get hp').window.laid⟩
  obtain ⟨r₃, hr₃⟩ := Raft.Ready.loop ⟨hg.servable, hg.windowed, hmember⟩ hloop
  rw [hr₃] at hloop
  obtain ⟨b, hdone⟩ := hloop.done
  obtain rfl := maybeSendAppend_stops hdone
  refine ⟨_, r₃, hoffers, ⟨hlike.id, hlike.term, hlike.limit, hlike.voters⟩, hmsgs, hget₂, fun I hI hr₂ => ?_, hdone, ?_⟩
  · exact hI.sendAppendLoop (hI.sendAfterAck hr₂ hsent) hr₃
  · rw [leaderAppResp_loop haccept hbefore, hr₃]
    rfl

end RaftEtcd
