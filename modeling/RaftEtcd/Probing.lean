import RaftEtcd.Feeding
import RaftEtcd.Voterless

/-! A leader finds out how far the log of a follower agrees with its own, and then brings it up to its end: the exchange
of appends and answers between the two, with each stream in order and their steps in any order. -/
namespace RaftEtcd
variable {msg m resp : Message} {p p' : Progress} {l : LogicalLog} {log : RaftLog} {id i n maxSize size : Nat}

/-- The answers among some messages that are for the leader. -/
def answersTo (id : Nat) (ms : List Message) : List Message := ms.filter fun m => m.type = .msgAppResp ∧ m.to_ = id

/-- A leader, one of its peers, and what is on its way between them. -/
structure Exchange where
  leader : Raft
  follower : Raft
  appends : List Message
  answers : List Message := []

namespace Exchange
variable {x y : Exchange}

/-- The leader turns to the follower. -/
def start (leader follower : Raft) : Result Exchange := do
  let r ← leader.sendAppend follower.id
  .ok { leader := r, follower := follower, appends := appendsTo follower.id (r.msgs.drop leader.msgs.length) }

/-- One of the two steps the message that comes next. -/
inductive Step (x : Exchange) : Exchange → Prop
  | follower (m : Message) (ms : List Message) (f : Raft) (st : Status) (due : x.appends = m :: ms)
      (step : x.follower.step m = .ok (f, st)) :
      Step x { x with
        follower := f, appends := ms
        answers := x.answers ++ answersTo x.leader.id (f.msgs.drop x.follower.msgs.length) }
  | leader (m : Message) (ms : List Message) (r : Raft) (st : Status) (due : x.answers = m :: ms)
      (step : x.leader.step m = .ok (r, st)) :
      Step x { x with
        leader := r, answers := ms
        appends := x.appends ++ appendsTo x.follower.id (r.msgs.drop x.leader.msgs.length) }

/-- What the leader knows of the follower. -/
def peer (x : Exchange) : Option Progress := x.leader.getProgress x.follower.id

/-- The follower is known to have, and has, what the leader has. -/
structure Arrived (x : Exchange) : Prop where
  matched : ∃ p, x.peer = some p ∧ p.matched = x.leader.raftLog.lastIndex
  agrees : x.leader.raftLog.logical.Agrees x.follower.raftLog.logical x.leader.raftLog.lastIndex

/-- Both can step what they get, a rejection lowers the next index, and when nothing is left the follower has the
log. -/
structure Goes (x : Exchange) : Prop where
  follower : ∀ m ms, x.appends = m :: ms → ∃ f st, x.follower.step m = .ok (f, st)
  leader : ∀ m ms, x.answers = m :: ms → ∃ r st, x.leader.step m = .ok (r, st)
  lowers : ∀ m ms r st, x.answers = m :: ms → m.reject = true → x.leader.step m = .ok (r, st) →
    ∃ p p', x.peer = some p ∧ r.getProgress x.follower.id = some p' ∧ p'.next < p.next
  arrives : x.appends = [] → x.answers = [] → x.Arrived

end Exchange

/-- Where the probes end that begin at an index: below what the follower has committed, or with a batch that it
takes. -/
inductive Lands (l : LogicalLog) (log : RaftLog) (maxSize : Nat) : Nat → Nat → Prop
  | behind {i : Nat} (low : i < log.committed) : Lands l log maxSize i log.committed
  | takes {i : Nat} (high : log.committed ≤ i) (matched : log.matchTerm i (l.termOf i) = true) :
      Lands l log maxSize i (i + (l.batch i maxSize).length)
  | refuses {i n : Nat} (high : log.committed ≤ i) (unmatched : log.matchTerm i (l.termOf i) = false)
      (rest : Lands l log maxSize (min i (log.lastIndex + 1) - 1) n) : Lands l log maxSize i n

section Landing
variable (hl : l.Complete) (hlog : log.Coupled) (hagrees : l.Agrees log.logical log.committed)

include hl hlog hagrees

/-- What the follower has committed is not refused. -/
theorem committed_lt_of_unmatched (high : log.committed ≤ i) (unmatched : log.matchTerm i (l.termOf i) = false) :
    log.committed < i := by
  refine lt_of_le_of_ne high fun heq => ?_
  rw [← heq, hlog.matchTerm_eq, hagrees.matchTerm hl hlog.aligned.entries_indexed] at unmatched
  cases unmatched

end Landing

/-! ### The stages of the exchange -/

structure Message.Answers (id term : Nat) (m : Message) : Prop where
  type : m.type = .msgAppResp
  from_ : m.from_ = id
  term : m.term = term

/-- Acknowledgements that raise what is known of a peer from one index to another, or leave it. -/
def Acks (id term : Nat) : Nat → List Message → Nat → Prop
  | i, [], j => i = j
  | i, m :: ms, j => m.Answers id term ∧ m.reject = false ∧ i ≤ m.index ∧ Acks id term m.index ms j

theorem Acks.concat {term i j : Nat} {ms : List Message} (h : Acks id term i ms j) (hm : m.Answers id term)
    (haccept : m.reject = false) (hle : j ≤ m.index) : Acks id term i (ms ++ [m]) m.index := by
  induction ms generalizing i with
  | nil =>
      obtain rfl := h
      exact ⟨hm, haccept, hle, rfl⟩
  | cons m' ms ih => exact ⟨h.1, h.2.1, h.2.2.1, ih h.2.2.2⟩

theorem Acks.le {term i j : Nat} {ms : List Message} (h : Acks id term i ms j) : i ≤ j := by
  induction ms generalizing i with
  | nil => exact Nat.le_of_eq h
  | cons m ms ih => exact h.2.2.1.trans (ih h.2.2.2)

/-- The peer is being probed and is not known to have anything. -/
structure Progress.Probed (size : Nat) (p : Progress) : Prop where
  state : p.state = .probe
  matched : p.matched = 0
  window : p.inflights.size = size

namespace Exchange
variable {r₀ : Raft} {x : Exchange}

/-- What stays as it is in the exchange that a leader begins. -/
structure Faces (l : LogicalLog) (r₀ : Raft) (x : Exchange) : Prop where
  offers : x.leader.Offers l
  like : Raft.Like r₀ x.leader
  state : x.follower.state = .follower
  term : x.follower.term = r₀.term
  coupled : x.follower.raftLog.Coupled
  matched : l.Matches x.follower.raftLog.logical

/-- A probe that will end at `n`. -/
structure Probes (l : LogicalLog) (r₀ : Raft) (size n : Nat) (x : Exchange) (p : Progress) (i : Nat) : Prop where
  known : x.peer = some p
  probed : p.Probed size
  next : p.next = i + 1
  within : i ≤ l.lastIndex
  committed : l.Agrees x.follower.raftLog.logical x.follower.raftLog.committed
  lands : Lands l x.follower.raftLog r₀.maxMsgSize i n

/-- The follower has the log up to `a`, and the appends go on from there. -/
structure Flows (l : LogicalLog) (r₀ : Raft) (size n : Nat) (x : Exchange) (p : Progress) (a : Nat) : Prop where
  voters : r₀.prs.keys ≠ []
  known : x.peer = some p
  state : p.state = .replicate
  window : p.inflights.size = size
  pipelined : p.Pipelined
  within : p.next ≤ l.lastIndex + 1
  agrees : l.Agrees x.follower.raftLog.logical a
  committed : x.follower.raftLog.committed ≤ a
  flow : Flow l r₀.id r₀.term x.follower.id a x.appends (p.next - 1)
  acks : Acks x.follower.id r₀.term p.matched x.answers a
  settled : p.isPaused = true ∨ p.next = l.lastIndex + 1
  idle : size = 0 → x.appends = [] ∧ x.answers = [] ∧ p.matched = n

/-- A probe is on its way, or its rejection, or the answer that accepts it; then the leader replicates. -/
inductive Stage (l : LogicalLog) (r₀ : Raft) (size n : Nat) (x : Exchange) : Prop
  | asked (p : Progress) (m : Message) (probes : Probes l r₀ size n x p m.index)
      (copies : m.Copies l r₀.id r₀.term x.follower.id) (batch : m.entries = l.batch m.index r₀.maxMsgSize)
      (appends : x.appends = [m]) (answers : x.answers = [])
  | refused (p : Progress) (m : Message) (probes : Probes l r₀ size n x p m.index)
      (answer : m.Answers x.follower.id r₀.term) (rejects : m.reject = true)
      (hint : m.rejectHint = x.follower.raftLog.lastIndex) (high : x.follower.raftLog.committed ≤ m.index)
      (unmatched : x.follower.raftLog.matchTerm m.index (l.termOf m.index) = false)
      (appends : x.appends = []) (answers : x.answers = [m])
  | landed (p : Progress) (m : Message) (known : x.peer = some p) (probed : p.Probed size)
      (answer : m.Answers x.follower.id r₀.term) (accepts : m.reject = false) (index : m.index = n) (pos : 0 < n)
      (next : p.next ≤ l.lastIndex + 1) (agrees : l.Agrees x.follower.raftLog.logical n)
      (committed : x.follower.raftLog.committed ≤ n) (appends : x.appends = []) (answers : x.answers = [m])
  | flowing (p : Progress) (a : Nat) (flows : Flows l r₀ size n x p a)

/-- The follower steps the append that comes next. -/
theorem follower_next (hx : x.Faces l r₀) (hl : l.Complete)
    (hm : m.Copies l r₀.id r₀.term x.follower.id) : ∃ f resp, x.follower.Responds m f resp ∧
      resp.Answers x.follower.id r₀.term ∧
      answersTo x.leader.id (f.msgs.drop x.follower.msgs.length) = [resp] := by
  have hterms : m.index ≠ 0 → m.logTerm ≠ 0 := by
    intro hne
    have hwithin := hm.piece.within
    rw [hm.logTerm]
    exact hl.termOf_ne hne (by omega)
  obtain ⟨f, resp, hresp⟩ := follower_responds hx.state hx.coupled hm.type (hm.term.trans hx.term.symm) hterms
    hm.piece.indexed (hm.piece.terms hl)
  refine ⟨f, resp, hresp, ⟨hresp.type, hresp.from_, hresp.term.trans hx.term⟩, ?_⟩
  rw [hresp.msgs, List.drop_left]
  simp [answersTo, hresp.type, hresp.to_, hm.from_, hx.like.id]

/-- What the exchange is like when the follower has answered. -/
def answered (x : Exchange) (f : Raft) (ms : List Message) (resp : Message) : Exchange :=
  { x with follower := f, appends := ms, answers := x.answers ++ [resp] }

/-- Where the follower takes the entries, it has the log up to their end. -/
theorem Faces.takes {f : Raft} (hx : x.Faces l r₀) (ms : List Message) (hm : m.Copies l r₀.id r₀.term x.follower.id)
    (hresp : x.follower.Responds m f resp) (coupled : f.raftLog.Coupled)
    (appended : x.follower.raftLog.logical.Appended m.index m.entries f.raftLog.logical)
    (hagrees : l.Agrees x.follower.raftLog.logical m.index) :
    (x.answered f ms resp).Faces l r₀ ∧ l.Agrees f.raftLog.logical (m.index + m.entries.length) :=
  ⟨⟨hx.offers, hx.like, hresp.same.2.2.trans hx.state, hresp.same.2.1.trans hx.term, coupled,
    appended.matches hm.piece hx.matched hagrees⟩, appended.agrees hm.piece hx.matched hagrees⟩

theorem Faces.keeps {f : Raft} {ms : List Message} (hx : x.Faces l r₀) (hresp : x.follower.Responds m f resp)
    (hlog : f.raftLog = x.follower.raftLog) : (x.answered f ms resp).Faces l r₀ :=
  ⟨hx.offers, hx.like, hresp.same.2.2.trans hx.state, hresp.same.2.1.trans hx.term, hlog.symm ▸ hx.coupled,
    hlog.symm ▸ hx.matched⟩

/-- The follower answers a probe. -/
theorem Probes.follower {f : Raft} (hl : l.Complete) (hx : x.Faces l r₀) (h : x.Probes l r₀ size n p m.index)
    (hm : m.Copies l r₀.id r₀.term x.follower.id) (hbatch : m.entries = l.batch m.index r₀.maxMsgSize)
    (hanswers : x.answers = []) (hresp : x.follower.Responds m f resp) (hanswer : resp.Answers x.follower.id r₀.term) :
    (x.answered f [] resp).Faces l r₀ ∧ (x.answered f [] resp).Stage l r₀ size n := by
  have hknown : (x.answered f [] resp).peer = some p := by
    rw [← h.known]
    exact congrArg x.leader.getProgress hresp.same.1
  have hpending : (x.answered f [] resp).answers = [resp] := by
    rw [answered, hanswers]
    rfl
  have hanswer' : resp.Answers f.id r₀.term := hresp.same.1.symm ▸ hanswer
  have hnext := h.next
  have hwithin := h.within
  have hlands := h.lands
  cases hresp.follows with
  | behind low log accepts index =>
      have hn : n = x.follower.raftLog.committed := by
        cases hlands with
        | behind low => rfl
        | takes high matched => omega
        | refuses high unmatched rest => omega
      refine ⟨hx.keeps hresp log, .landed p resp hknown h.probed hanswer' accepts (index.trans hn.symm) (by omega)
        (by omega) ?_ ?_ rfl hpending⟩
      · change l.Agrees f.raftLog.logical n
        rw [log, hn]
        exact h.committed
      · change f.raftLog.committed ≤ n
        rw [log, hn]
  | refuses high unmatched log rejects index hint =>
      rw [hm.logTerm] at unmatched
      refine ⟨hx.keeps hresp log, .refused p resp ⟨hknown, h.probed, index ▸ hnext, index ▸ hwithin, ?_, ?_⟩ hanswer'
        rejects ?_ ?_ ?_ rfl hpending⟩
      · change l.Agrees f.raftLog.logical f.raftLog.committed
        rw [log]
        exact h.committed
      · change Lands l f.raftLog r₀.maxMsgSize resp.index n
        rw [log, index]
        exact hlands
      · change resp.rejectHint = f.raftLog.lastIndex
        rw [log, hint]
      · change f.raftLog.committed ≤ resp.index
        rw [log, index]
        exact high
      · change f.raftLog.matchTerm resp.index (l.termOf resp.index) = false
        rw [log, index]
        exact unmatched
  | takes high matched accepts index coupled committed appended =>
      rw [hm.logTerm] at matched
      have hn : n = m.index + m.entries.length := by
        rw [hbatch]
        cases hlands with
        | behind low => omega
        | takes high matched => rfl
        | refuses high unmatched rest =>
            rw [matched] at unmatched
            cases unmatched
      have hagrees : l.Agrees x.follower.raftLog.logical m.index := by
        rw [hx.coupled.matchTerm_eq] at matched
        exact h.committed.of_matchTerm hl hx.coupled.aligned.entries_indexed hx.matched high hwithin matched
      obtain ⟨hfaces, hreached⟩ := hx.takes [] hm hresp coupled appended hagrees
      have hpos : 0 < n := by
        rcases Nat.eq_zero_or_pos m.index with hzero | hpos
        · -- a probe that begins before the first entry has entries
          have hne : m.entries ≠ [] := by
            rw [hbatch, ne_eq, LogicalLog.batch_nil hl hwithin]
            have := hl.last_pos
            omega
          have := List.length_pos_iff.mpr hne
          omega
        · omega
      exact ⟨hfaces, .landed p resp hknown h.probed hanswer' accepts (index.trans hn.symm) hpos (by omega)
        (hn ▸ hreached) (hn ▸ committed) rfl hpending⟩

/-- The follower takes the entries that come next. -/
theorem Flows.follower {f : Raft} {a : Nat} {ms : List Message} (hl : l.Complete) (hx : x.Faces l r₀)
    (h : x.Flows l r₀ size n p a) (hdue : x.appends = m :: ms) (hresp : x.follower.Responds m f resp)
    (hanswer : resp.Answers x.follower.id r₀.term) :
    (x.answered f ms resp).Faces l r₀ ∧ (x.answered f ms resp).Stage l r₀ size n := by
  have hflow := h.flow
  rw [hdue] at hflow
  obtain ⟨hm, rfl, hrest⟩ := hflow
  have hmatched : x.follower.raftLog.matchTerm m.index m.logTerm = true := by
    rw [hm.logTerm, hx.coupled.matchTerm_eq]
    exact h.agrees.matchTerm hl hx.coupled.aligned.entries_indexed
  have hcommitted := h.committed
  cases hresp.follows with
  | behind low log accepts index => omega
  | refuses high unmatched log rejects index hint =>
      rw [hmatched] at unmatched
      cases unmatched
  | takes high matched accepts index coupled committed appended =>
      obtain ⟨hfaces, hreached⟩ := hx.takes ms hm hresp coupled appended h.agrees
      have hacks := h.acks.concat hanswer accepts (by omega)
      rw [index, ← hresp.same.1] at hacks
      refine ⟨hfaces, .flowing p _ ⟨h.voters, ?_, h.state, h.window, h.pipelined, h.within, hreached, committed, ?_,
        hacks, h.settled, fun hzero => ?_⟩⟩
      · rw [← h.known]
        exact congrArg x.leader.getProgress hresp.same.1
      · change Flow l r₀.id r₀.term f.id _ ms _
        rw [hresp.same.1]
        exact hrest
      · have hnone := (h.idle hzero).1
        rw [hdue] at hnone
        cases hnone

/-- The follower can step the append that comes next. -/
theorem Stage.follower {ms : List Message} (hl : l.Complete) (hx : x.Faces l r₀) (h : x.Stage l r₀ size n)
    (hdue : x.appends = m :: ms) : ∃ f resp, x.follower.step m = .ok (f, .ok) ∧
      answersTo x.leader.id (f.msgs.drop x.follower.msgs.length) = [resp] ∧ f.id = x.follower.id ∧
      (x.answered f ms resp).Faces l r₀ ∧ (x.answered f ms resp).Stage l r₀ size n := by
  cases h with
  | asked p m' probes copies batch appends answers =>
      obtain ⟨rfl, rfl⟩ := List.cons.inj (hdue.symm.trans appends)
      obtain ⟨f, resp, hresp, hanswer, hnew⟩ := follower_next hx hl copies
      exact ⟨f, resp, hresp.step, hnew, hresp.same.1, probes.follower hl hx copies batch answers hresp hanswer⟩
  | refused p m' probes answer rejects hint high unmatched appends answers =>
      rw [hdue] at appends
      cases appends
  | landed p m' known probed answer accepts index pos next agrees committed appends answers =>
      rw [hdue] at appends
      cases appends
  | flowing p a flows =>
      have hm : m.Copies l r₀.id r₀.term x.follower.id := by
        have hflow := flows.flow
        rw [hdue] at hflow
        exact hflow.1
      obtain ⟨f, resp, hresp, hanswer, hnew⟩ := follower_next hx hl hm
      exact ⟨f, resp, hresp.step, hnew, hresp.same.1, flows.follower hl hx hdue hresp hanswer⟩

/-- What the exchange is like when the leader has stepped an answer. -/
def told (x : Exchange) (r : Raft) (ms : List Message) : Exchange :=
  { x with
    leader := r, answers := ms
    appends := x.appends ++ appendsTo x.follower.id (r.msgs.drop x.leader.msgs.length) }

theorem Faces.tells {r : Raft} {ms : List Message} (hx : x.Faces l r₀) (hr : r.Offers l)
    (hlike : Raft.Like x.leader r) : (x.told r ms).Faces l r₀ :=
  ⟨hr, ⟨hlike.id.trans hx.like.id, hlike.term.trans hx.like.term, hlike.limit.trans hx.like.limit,
    hlike.voters.trans hx.like.voters⟩, hx.state, hx.term, hx.coupled, hx.matched⟩

/-- An answer of the follower reaches its handler. -/
theorem leader_handles (hx : x.Faces l r₀) (hknown : x.peer = some p) (hm : m.Answers x.follower.id r₀.term) :
    x.leader.step m = Raft.withOk (x.leader.leaderAppResp m) := by
  refine step_leader_appResp hx.offers.state hm.type (Or.inr (hm.term.trans hx.like.term.symm)) ?_
  rw [hm.from_]
  exact Option.isSome_of_eq_some hknown

/-- The leader hears that its probe was rejected, and probes at a lower index. -/
theorem Probes.leader (hl : l.Complete) (hx : x.Faces l r₀) (h : x.Probes l r₀ size n p m.index)
    (hm : m.Answers x.follower.id r₀.term) (hreject : m.reject = true)
    (hhint : m.rejectHint = x.follower.raftLog.lastIndex) (high : x.follower.raftLog.committed ≤ m.index)
    (unmatched : x.follower.raftLog.matchTerm m.index (l.termOf m.index) = false) (happends : x.appends = []) :
    ∃ r p', x.leader.step m = .ok (r, .ok) ∧ (x.told r []).Faces l r₀ ∧ (x.told r []).Stage l r₀ size n ∧
      r.getProgress x.follower.id = some p' ∧ p'.state = .probe ∧ p'.next < p.next := by
  have hpos := committed_lt_of_unmatched hl hx.coupled h.committed high unmatched
  have hnext := h.next
  have hlands : Lands l x.follower.raftLog r₀.maxMsgSize (min m.index (x.follower.raftLog.lastIndex + 1) - 1) n := by
    cases h.lands with
    | behind low => omega
    | takes high matched =>
        rw [matched] at unmatched
        cases unmatched
    | refuses high unmatched rest => exact rest
  -- the next index that the leader notes
  obtain ⟨low, hlow⟩ : ∃ low, low = min m.index (x.follower.raftLog.lastIndex + 1) := ⟨_, rfl⟩
  generalize hq : ({ p with recentActive := true, paused := false, next := low } : Progress) = q
  have hknown : x.leader.getProgress m.from_ = some p := by
    rw [hm.from_]
    exact h.known
  have hsound : q.Sound := by
    have hp := hx.offers.windowed.get hknown
    rw [← hq]
    exact ⟨by simp only; omega, hp.window⟩
  have hresp : x.leader.leaderAppResp m = (x.leader.modifyProgress m.from_ fun _ => q).sendAppend m.from_ := by
    have hget := x.leader.getProgress_modifyProgress m.from_ m.from_ fun p => { p with recentActive := true }
    rw [if_pos rfl, hknown, Option.map_some] at hget
    have hdecreases : Progress.maybeDecreasesTo { p with recentActive := true } m.index m.rejectHint = (q, true) := by
      have hstate : ¬ Progress.state { p with recentActive := true } = .replicate := by
        rw [show Progress.state { p with recentActive := true } = .probe from h.probed.state]
        decide
      rw [Progress.maybeDecreasesTo, if_neg hstate, if_neg (by simp only; omega), ← hq, hhint, ← hlow]
      simp only
      rw [if_neg (by omega)]
    have hprobe : ¬ q.state = .replicate := by
      rw [← hq]
      simp [h.probed.state]
    unfold Raft.leaderAppResp
    dsimp only
    rw [hget]
    dsimp only
    rw [if_pos hreject, hdecreases]
    dsimp only
    rw [if_neg hprobe, Raft.Presides.modifyProgress_modifyProgress]
  obtain ⟨hoffers, hlike, hmsgs, hget⟩ := hx.offers.notes hknown hsound
  rw [hm.from_] at hresp hoffers hlike hmsgs hget
  generalize x.leader.modifyProgress x.follower.id (fun _ => q) = r₁ at hresp hoffers hlike hmsgs hget
  obtain ⟨r, hsend⟩ := sendAppend_ok hoffers.servable hoffers.windowed (Option.isSome_of_eq_some hget)
  have hlimit := hlike.limit.trans hx.like.limit
  have hr := Raft.KeptByAppends.sendAppend Raft.Offers.kept hoffers hsend
  have hlike' := hlike.posts (sendAppend_posts hsend)
  have hstep : x.leader.step m = .ok (r, .ok) := by
    rw [leader_handles hx h.known hm, hresp, hsend]
    rfl
  obtain ⟨⟨r', b⟩, hturn, hr'⟩ := bind_ok hsend
  obtain rfl := Except.ok.inj hr'
  have hqnext : q.next = low := by rw [← hq]
  have hqpaused : q.isPaused = false := by
    rw [← hq]
    simp [Progress.isPaused, h.probed.state]
  have hwithin := h.within
  cases hoffers.offered hl hget (by omega) (by omega) hturn with
  | rests same why =>
      rcases why with hpaused | ⟨hnever, -⟩
      · rw [hqpaused] at hpaused
        cases hpaused
      · cases hnever
  | appends m' p' ready copies index batch msgs progress noted =>
      have hp' : p'.Probed size ∧ p'.next = q.next := by
        have hprobed : q.Probed size := by
          rw [← hq]
          exact ⟨h.probed.state, h.probed.matched, h.probed.window⟩
        rcases noted with ⟨-, rfl⟩ | ⟨-, hnoted⟩
        · exact ⟨hprobed, rfl⟩
        · unfold Raft.progressAfterSend at hnoted
          simp only [hprobed.state] at hnoted
          rw [← Except.ok.inj hnoted]
          exact ⟨⟨hprobed.state, hprobed.matched, hprobed.window⟩, rfl⟩
      rw [hlike.id, hlike.term, hx.like.id, hx.like.term] at copies
      refine ⟨r', p', hstep, hx.tells hr hlike', .asked p' m' ⟨progress, hp'.1, by omega, by omega, h.committed, ?_⟩
        copies (hlimit ▸ batch) ?_ rfl, progress, hp'.1.state, by omega⟩
      · rw [show m'.index = min m.index (x.follower.raftLog.lastIndex + 1) - 1 by omega]
        exact hlands
      · change x.appends ++ appendsTo x.follower.id (r'.msgs.drop x.leader.msgs.length) = [m']
        rw [happends, msgs, hmsgs, List.drop_left]
        simp [appendsTo, copies.type, copies.to_]

/-- The leader hears what is news: it goes on from the index that it notes, until nothing more is due. -/
theorem Faces.news {q : Progress} (hl : l.Complete) (hx : x.Faces l r₀) (hvoter : r₀.prs.keys ≠ [])
    (hknown : x.peer = some p) (hm : m.Answers x.follower.id r₀.term) (haccept : m.reject = false)
    (hnews : p.matched < m.index)
    (hq : Raft.progressAfterAck (Progress.maybeUpdate { p with recentActive := true } m.index).1 m.index = .ok q)
    (hstate : q.state = .replicate) (hwindow : q.inflights.size = size) (hpipe : q.Pipelined)
    (hwithin : q.next ≤ l.lastIndex + 1) :
    ∃ r p' ms, x.leader.step m = .ok (r, .ok) ∧ r.Offers l ∧ Raft.Like x.leader r ∧
      Raft.Feeding l x.follower.id x.leader (q.next - 1) q.matched size r p' ms ∧
      (p'.isPaused = true ∨ p'.next = l.lastIndex + 1) := by
  have hfrom : x.leader.getProgress m.from_ = some p := by
    rw [hm.from_]
    exact hknown
  obtain ⟨r₂, r₃, hheard⟩ := hx.offers.hearsNews (hx.like.voters ▸ hvoter) hfrom haccept hnews hq
  have hprogress := hheard.progress
  have hdone := hheard.done
  rw [hm.from_] at hprogress hdone
  have hfeeds : Raft.Feeds l x.follower.id x.leader (q.next - 1) q.matched size r₂ :=
    ⟨hheard.offers, hheard.like, q, [], hprogress, hstate, rfl, hwindow, hpipe, hwithin,
      by rw [hheard.msgs, List.append_nil], rfl, fun _ => rfl⟩
  obtain ⟨hoffers, hlike, p', ms, hp'⟩ := hheard.sent _ (Raft.Feeds.kept hl _ _ _ _ _) hfeeds
  have hsettled : p'.isPaused = true ∨ p'.next = l.lastIndex + 1 := by
    have hpos : 1 ≤ p'.next := Nat.lt_of_le_of_lt (Nat.zero_le _) hp'.pipelined.behind
    cases hoffers.offered hl hp'.known hpos hp'.within hdone with
    | rests same why => exact why.imp_right And.right
  obtain ⟨r, ms', hafter, hr, hquiet⟩ := afterSendLoop_ok r₃ m
  have hnone : appendsTo x.follower.id (ms ++ ms') = appendsTo x.follower.id ms := by
    rw [appendsTo_append, appendsTo_none fun m hm => Or.inl (hquiet m hm), List.append_nil]
  refine ⟨r, p', ms ++ ms', ?_, ?_, ?_, ?_, hsettled⟩
  · rw [leader_handles hx hknown hm, hheard.after, hafter]
    rfl
  · rw [hr]
    exact ⟨hoffers.state, hoffers.term, hoffers.coupled, hoffers.logical, hoffers.servable,
      hoffers.windowed.congr rfl ⟨rfl, rfl⟩⟩
  · rw [hr]
    exact ⟨hlike.id, hlike.term, hlike.limit, hlike.voters⟩
  · have hmsgs : r.msgs = x.leader.msgs ++ (ms ++ ms') := by
      rw [hr, ← List.append_assoc, ← hp'.msgs]
    have hget : r.getProgress x.follower.id = some p' := by
      rw [hr]
      exact hp'.known
    exact ⟨hget, hp'.state, hp'.matched, hp'.window, hp'.pipelined, hp'.within, hmsgs, hnone ▸ hp'.flow,
      hnone ▸ hp'.idle⟩

/-- The appends of the leader go on behind those that are on their way. -/
theorem flows_on {r : Raft} {p' : Progress} {ms rest : List Message} {a j matched : Nat} (hx : x.Faces l r₀)
    (hvoter : r₀.prs.keys ≠ []) (hp : Raft.Feeding l x.follower.id x.leader j matched size r p' ms)
    (hsettled : p'.isPaused = true ∨ p'.next = l.lastIndex + 1)
    (hagrees : l.Agrees x.follower.raftLog.logical a) (hcommitted : x.follower.raftLog.committed ≤ a)
    (hflow : Flow l r₀.id r₀.term x.follower.id a x.appends j) (hacks : Acks x.follower.id r₀.term matched rest a)
    (hidle : size = 0 → x.appends = [] ∧ rest = [] ∧ matched = n) : (x.told r rest).Flows l r₀ size n p' a := by
  have hnew : appendsTo x.follower.id (r.msgs.drop x.leader.msgs.length) = appendsTo x.follower.id ms := by
    rw [hp.msgs, List.drop_left]
  have hmore := hp.flow
  rw [hx.like.id, hx.like.term, ← hnew] at hmore
  refine ⟨hvoter, hp.known, hp.state, hp.window, hp.pipelined, hp.within, hagrees, hcommitted, hflow.append hmore,
    hp.matched.symm ▸ hacks, hsettled, fun hzero => ?_⟩
  obtain ⟨happends, hrest, hmatched⟩ := hidle hzero
  refine ⟨?_, hrest, hp.matched.trans hmatched⟩
  change x.appends ++ appendsTo x.follower.id (r.msgs.drop x.leader.msgs.length) = []
  rw [happends, hnew, hp.idle hzero]
  rfl

/-- The first answer that accepts. -/
theorem landed_leader (hl : l.Complete) (hx : x.Faces l r₀) (hvoter : r₀.prs.keys ≠ []) (hknown : x.peer = some p)
    (hprobed : p.Probed size) (hm : m.Answers x.follower.id r₀.term) (haccept : m.reject = false) (hindex : m.index = n)
    (hpos : 0 < n) (hagrees : l.Agrees x.follower.raftLog.logical n) (hcommitted : x.follower.raftLog.committed ≤ n)
    (happends : x.appends = []) : ∃ r p', x.leader.step m = .ok (r, .ok) ∧ (x.told r []).Faces l r₀ ∧
      (x.told r []).Flows l r₀ size n p' n := by
  obtain ⟨q, hq, hstate, hmatched, hnext, hwindow⟩ : ∃ q,
      Raft.progressAfterAck (Progress.maybeUpdate { p with recentActive := true } m.index).1 m.index = .ok q ∧
        q.state = .replicate ∧ q.matched = n ∧ q.next = n + 1 ∧ q.inflights = p.inflights.reset := by
    rw [Progress.maybeUpdate_eq, Raft.progressAfterAck, if_pos (show Progress.state _ = .probe from hprobed.state)]
    refine ⟨_, rfl, rfl, ?_, ?_, rfl⟩
    · simp only [Progress.becomeReplicate, Progress.resetState, hprobed.matched, hindex]
      omega
    · simp only [Progress.becomeReplicate, hprobed.matched, hindex]
      omega
  have hwithin := hagrees.within
  have hroom : q.inflights.size = size := by
    rw [hwindow, ← hprobed.window]
    rfl
  have hnews : p.matched < m.index := by
    rw [hprobed.matched, hindex]
    exact hpos
  obtain ⟨r, p', ms, hstep, hoffers, hlike, hp', hsettled⟩ := hx.news hl hvoter hknown hm haccept hnews hq hstate hroom
    (.empty (by rw [hwindow]; rfl) (by omega)) (by omega)
  rw [hnext, hmatched, Nat.add_sub_cancel] at hp'
  exact ⟨r, p', hstep, hx.tells hoffers hlike, flows_on hx hvoter hp' hsettled hagrees hcommitted
    (by rw [happends]; rfl) rfl fun _ => ⟨happends, rfl, rfl⟩⟩

/-- The leader steps an acknowledgement while it replicates. -/
theorem Flows.leader {a : Nat} {rest : List Message} (hl : l.Complete) (hx : x.Faces l r₀)
    (h : x.Flows l r₀ size n p a) (hdue : x.answers = m :: rest) : ∃ r p', x.leader.step m = .ok (r, .ok) ∧
      (x.told r rest).Faces l r₀ ∧ (x.told r rest).Flows l r₀ size n p' a ∧ m.reject = false ∧
      (p.matched < p'.matched ∨ p'.matched = p.matched ∧ (x.told r rest).appends = x.appends) := by
  have hacks := h.acks
  rw [hdue] at hacks
  obtain ⟨hm, haccept, hle, hrest⟩ := hacks
  have hreach := hrest.le
  have hflowed := h.flow.le
  have hbehind := h.pipelined.behind
  have hbusy : size ≠ 0 := by
    intro hzero
    have hnone := (h.idle hzero).2.1
    rw [hdue] at hnone
    cases hnone
  have hknown : x.leader.getProgress m.from_ = some p := by
    rw [hm.from_]
    exact h.known
  by_cases hnews : p.matched < m.index
  · have hlaid := (hx.offers.windowed.get hknown).window.laid
    obtain ⟨w, hfree, -, hsent, hsize⟩ := hlaid.freeTo m.index
    obtain ⟨q, hq, hstate, hmatched, hnext, hwindow, hpipe⟩ : ∃ q,
        Raft.progressAfterAck (Progress.maybeUpdate { p with recentActive := true } m.index).1 m.index = .ok q ∧
          q.state = .replicate ∧ q.matched = m.index ∧ q.next = p.next ∧ q.inflights.size = size ∧ q.Pipelined := by
      have hpipe : Progress.Pipelined { p with matched := m.index, next := p.next, inflights := w } :=
        h.pipelined.frees hsent (le_max_right _ _) (by omega) (max_eq_left (by omega)).symm
      refine ⟨{ p with matched := m.index, paused := false, recentActive := true, inflights := w }, ?_, h.state, rfl, rfl,
        hsize.trans h.window, hpipe.behind, hpipe.increasing, hpipe.within, hpipe.ends⟩
      have hupdate : Progress.maybeUpdate { p with recentActive := true } m.index =
          ({ p with matched := m.index, paused := false, recentActive := true }, true) := by
        rw [Progress.maybeUpdate_eq]
        simp only [hnews, if_true, decide_true, max_eq_right hnews.le, max_eq_left (show m.index + 1 ≤ p.next by omega)]
      rw [hupdate, Raft.progressAfterAck, if_neg (by simp [h.state]), if_neg (by simp [h.state]), if_pos h.state]
      simp only [hfree]
      rfl
    obtain ⟨r, p', ms, hstep, hoffers, hlike, hp', hsettled⟩ := hx.news hl h.voters h.known hm haccept hnews hq hstate
      hwindow hpipe (hnext ▸ h.within)
    rw [hnext, hmatched] at hp'
    refine ⟨r, p', hstep, hx.tells hoffers hlike, flows_on hx h.voters hp' hsettled h.agrees h.committed h.flow hrest
      (fun hzero => absurd hzero hbusy), haccept, Or.inl ?_⟩
    rw [hp'.matched]
    exact hnews
  · have heq : m.index = p.matched := by omega
    have hsound : Progress.Sound { p with recentActive := true } :=
      ⟨(hx.offers.windowed.get hknown).next_pos, (hx.offers.windowed.get hknown).window⟩
    have hresp : x.leader.leaderAppResp m =
        .ok (x.leader.modifyProgress m.from_ fun _ => { p with recentActive := true }) := by
      have hget := x.leader.getProgress_modifyProgress m.from_ m.from_ fun p => { p with recentActive := true }
      rw [if_pos rfl, hknown, Option.map_some] at hget
      have hupdate : Progress.maybeUpdate { p with recentActive := true } m.index =
          ({ p with recentActive := true }, false) := by
        rw [Progress.maybeUpdate_eq]
        simp only [hnews, if_false, decide_false, max_eq_left (Nat.not_lt.mp hnews),
          max_eq_left (show m.index + 1 ≤ p.next by omega)]
      unfold Raft.leaderAppResp
      dsimp only
      rw [hget]
      dsimp only
      rw [haccept, if_neg (by decide), hupdate]
      dsimp only
      rw [Raft.Presides.modifyProgress_modifyProgress]
    obtain ⟨hoffers, hlike, hmsgs, hget⟩ := hx.offers.notes hknown hsound
    rw [hm.from_] at hresp hoffers hlike hmsgs hget
    generalize x.leader.modifyProgress x.follower.id (fun _ => { p with recentActive := true }) = r
      at hresp hoffers hlike hmsgs hget
    have hsame : (x.told r rest).appends = x.appends := by
      change x.appends ++ appendsTo x.follower.id (r.msgs.drop x.leader.msgs.length) = x.appends
      rw [hmsgs, List.drop_length]
      exact List.append_nil _
    refine ⟨r, { p with recentActive := true }, ?_, hx.tells hoffers hlike, ⟨h.voters, hget, h.state, h.window,
      ⟨h.pipelined.behind, h.pipelined.increasing, h.pipelined.within, h.pipelined.ends⟩, h.within, h.agrees,
      h.committed, hsame.symm ▸ h.flow, heq ▸ hrest, h.settled, fun hzero => absurd hzero hbusy⟩, haccept, Or.inr ⟨rfl, hsame⟩⟩
    rw [leader_handles hx h.known hm, hresp]
    rfl

/-! ### Whole exchanges -/

/-- How far the leader still has to go with the peer. -/
def distance (last : Nat) (p : Progress) : Nat := if p.state = .replicate then last - p.matched else last + 1 + p.next

theorem distance_replicate {last : Nat} (h : p.state = .replicate) : distance last p = last - p.matched := if_pos h

theorem distance_probe {last : Nat} (h : p.state = .probe) : distance last p = last + 1 + p.next := by
  rw [distance, if_neg (by rw [h]; decide)]

/-- The leader without a voter fails when it hears what is news. -/
theorem voters_of_landed {r : Raft} {st : Status} (hx : x.Faces l r₀) (hknown : x.peer = some p)
    (hm : m.Answers x.follower.id r₀.term) (haccept : m.reject = false) (hnews : p.matched < m.index)
    (hstep : x.leader.step m = .ok (r, st)) : r₀.prs.keys ≠ [] := by
  intro hnone
  have hfails := leaderAppResp_voterless hx.offers.windowed haccept (hx.like.voters.trans hnone)
    (by rw [hm.from_]; exact hknown) hnews
  rw [leader_handles hx hknown hm, hfails] at hstep
  cases hstep

/-- The leader has stepped the answer that comes next: it has got nearer, or it has sent nothing. -/
structure Told (l : LogicalLog) (r₀ : Raft) (size n : Nat) (x : Exchange) (m : Message) (r : Raft)
    (rest : List Message) : Prop where
  step : x.leader.step m = .ok (r, .ok)
  faces : (x.told r rest).Faces l r₀
  stage : (x.told r rest).Stage l r₀ size n
  nearer : ∃ p p', x.peer = some p ∧ r.getProgress x.follower.id = some p' ∧ (m.reject = true → p'.next < p.next) ∧
    (distance l.lastIndex p' < distance l.lastIndex p ∨
      distance l.lastIndex p' = distance l.lastIndex p ∧ (x.told r rest).appends = x.appends)

/-- The leader can step the answer that comes next, unless it is the first that accepts and there is no voter. -/
theorem Stage.leader {rest : List Message} (hl : l.Complete) (hx : x.Faces l r₀) (h : x.Stage l r₀ size n)
    (hdue : x.answers = m :: rest) (hvoter : r₀.prs.keys ≠ [] ∨ ∃ r st, x.leader.step m = .ok (r, st)) :
    ∃ r, x.Told l r₀ size n m r rest := by
  cases h with
  | asked p m' probes copies batch appends answers =>
      rw [hdue] at answers
      cases answers
  | refused p m' probes answer rejects hint high unmatched appends answers =>
      obtain ⟨rfl, rfl⟩ := List.cons.inj (hdue.symm.trans answers)
      obtain ⟨r, p', hstep, hfaces, hstage, hget, hstate, hlower⟩ := probes.leader hl hx answer rejects hint high
        unmatched appends
      refine ⟨r, hstep, hfaces, hstage, p, p', probes.known, hget, fun _ => hlower, Or.inl ?_⟩
      rw [distance_probe hstate, distance_probe probes.probed.state]
      omega
  | landed p m' known probed answer accepts index pos next agrees committed appends answers =>
      obtain ⟨rfl, rfl⟩ := List.cons.inj (hdue.symm.trans answers)
      have hnews : p.matched < m.index := by
        rw [probed.matched, index]
        exact pos
      have hvoter' : r₀.prs.keys ≠ [] := by
        rcases hvoter with hvoter | ⟨r, st, hstep⟩
        · exact hvoter
        · exact voters_of_landed hx known answer accepts hnews hstep
      obtain ⟨r, p', hstep, hfaces, hflows⟩ := landed_leader hl hx hvoter' known probed answer accepts index pos agrees
        committed appends
      refine ⟨r, hstep, hfaces, .flowing p' n hflows, p, p', known, hflows.known, fun hreject => ?_, Or.inl ?_⟩
      · rw [accepts] at hreject
        cases hreject
      · rw [distance_replicate hflows.state, distance_probe probed.state]
        omega
  | flowing p a flows =>
      obtain ⟨r, p', hstep, hfaces, hflows, haccept, hnearer⟩ := flows.leader hl hx hdue
      refine ⟨r, hstep, hfaces, .flowing p' a hflows, p, p', flows.known, hflows.known, fun hreject => ?_, ?_⟩
      · rw [haccept] at hreject
        cases hreject
      · rw [distance_replicate hflows.state, distance_replicate flows.state]
        have hbehind := hflows.pipelined.behind
        have hwithin := hflows.within
        rcases hnearer with hlt | ⟨heq, hsame⟩
        · exact Or.inl (by omega)
        · exact Or.inr ⟨by rw [heq], hsame⟩

theorem Stage.peer (h : x.Stage l r₀ size n) : ∃ p, x.peer = some p := by
  cases h with
  | asked p m probes copies batch appends answers => exact ⟨p, probes.known⟩
  | refused p m probes answer rejects hint high unmatched appends answers => exact ⟨p, probes.known⟩
  | landed p m known probed answer accepts index pos next agrees committed appends answers => exact ⟨p, known⟩
  | flowing p a flows => exact ⟨p, flows.known⟩

/-- What every step of the exchange lowers. -/
def left (last : Nat) (x : Exchange) : Nat × Nat :=
  (x.peer.elim 0 (distance last), 2 * x.appends.length + x.answers.length)

/-- What an exchange keeps. -/
structure Sound (l : LogicalLog) (r₀ : Raft) (size n : Nat) (x : Exchange) : Prop where
  faces : x.Faces l r₀
  stage : x.Stage l r₀ size n

variable {y : Exchange}

theorem Sound.step (hl : l.Complete) (h : x.Sound l r₀ size n) (hstep : x.Step y) :
    y.Sound l r₀ size n ∧ Prod.Lex (· < ·) (· < ·) (left l.lastIndex y) (left l.lastIndex x) := by
  cases hstep with
  | follower m ms f st due step =>
      obtain ⟨f', resp, hf, hnew, hid, hfaces, hstage⟩ := h.stage.follower hl h.faces due
      obtain ⟨rfl, -⟩ := Prod.mk.inj (Except.ok.inj (step.symm.trans hf))
      rw [hnew]
      refine ⟨⟨hfaces, hstage⟩, ?_⟩
      have hpeer : (x.answered f ms resp).peer = x.peer := congrArg x.leader.getProgress hid
      change Prod.Lex _ _ (left l.lastIndex (x.answered f ms resp)) _
      rw [left, left, hpeer]
      refine Prod.Lex.right _ ?_
      simp only [due, answered, List.length_append, List.length_cons, List.length_nil]
      omega
  | leader m ms r st due step =>
      obtain ⟨r', hr'⟩ := h.stage.leader hl h.faces due (Or.inr ⟨r, st, step⟩)
      obtain ⟨rfl, -⟩ := Prod.mk.inj (Except.ok.inj (step.symm.trans hr'.step))
      refine ⟨⟨hr'.faces, hr'.stage⟩, ?_⟩
      obtain ⟨p, p', hknown, hget, -, hnearer⟩ := hr'.nearer
      have hpeer : (x.told r ms).peer = some p' := hget
      change Prod.Lex _ _ (left l.lastIndex (x.told r ms)) _
      rw [left, left, hpeer, hknown]
      rcases hnearer with hlt | ⟨heq, hsame⟩
      · exact Prod.Lex.left _ _ hlt
      · simp only [Option.elim_some]
        rw [heq, hsame, due]
        refine Prod.Lex.right _ ?_
        simp only [told, List.length_cons]
        omega

theorem Sound.run (hl : l.Complete) (h : x.Sound l r₀ size n) (hrun : Relation.ReflTransGen Step x y) :
    y.Sound l r₀ size n := by
  induction hrun with
  | refl => exact h
  | tail _ hstep ih => exact (ih.step hl hstep).1

theorem Sound.ends (hl : l.Complete) (h : x.Sound l r₀ size n) : Acc (fun z y => Step y z) x := by
  have hwf : WellFounded (Prod.Lex (· < ·) (· < ·) : Nat × Nat → Nat × Nat → Prop) := (Prod.lex _ _).wf
  induction hk : left l.lastIndex x using hwf.induction generalizing x with
  | _ k ih =>
      refine Acc.intro x fun y hy => ?_
      obtain ⟨hsound, hlt⟩ := h.step hl hy
      exact ih _ (hk ▸ hlt) hsound rfl

/-- When nothing is left, the leader has got to the end of its log, or it has no room for more. -/
theorem Sound.quiet (h : x.Sound l r₀ size n) (happends : x.appends = []) (hanswers : x.answers = []) :
    ∃ p, x.Flows l r₀ size n p p.matched ∧ (p.matched = l.lastIndex ∨ size = 0 ∧ p.matched = n) := by
  cases h.stage with
  | asked p m probes copies batch appends answers =>
      rw [happends] at appends
      cases appends
  | refused p m probes answer rejects hint high unmatched appends answers =>
      rw [hanswers] at answers
      cases answers
  | landed p m known probed answer accepts index pos next agrees committed appends answers =>
      rw [hanswers] at answers
      cases answers
  | flowing p a flows =>
      have hacks := flows.acks
      have hflow := flows.flow
      rw [hanswers] at hacks
      rw [happends] at hflow
      obtain rfl : p.matched = a := hacks
      have hnext : p.matched = p.next - 1 := hflow
      have hbehind := flows.pipelined.behind
      refine ⟨p, flows, ?_⟩
      rcases flows.settled with hpaused | hend
      · have hsent : p.inflights.sent = [] := by
          refine List.eq_nil_iff_forall_not_mem.mpr fun i hi => ?_
          have := flows.pipelined.within i hi
          omega
        have hcount := (h.faces.offers.windowed.get flows.known).window.laid.empty.mp hsent
        have hfull : p.inflights.size = p.inflights.count := by
          rw [Progress.isPaused, flows.state] at hpaused
          exact beq_iff_eq.mp hpaused
        have hzero : size = 0 := flows.window.symm.trans (hfull.trans hcount)
        exact Or.inr ⟨hzero, (flows.idle hzero).2.2⟩
      · exact Or.inl (by omega)

theorem Sound.arrived (h : x.Sound l r₀ size n) {p : Progress} {a : Nat} (hflows : x.Flows l r₀ size n p a)
    (hmatched : p.matched = l.lastIndex) : x.Arrived := by
  have hlast : x.leader.raftLog.lastIndex = l.lastIndex := by
    rw [h.faces.offers.coupled.lastIndex_eq, h.faces.offers.logical]
  have hle := hflows.acks.le
  have hwithin := hflows.agrees.within
  have hagrees := hflows.agrees
  rw [show a = l.lastIndex by omega] at hagrees
  refine ⟨⟨p, hflows.known, hlast ▸ hmatched⟩, ?_⟩
  rw [hlast, h.faces.offers.logical]
  exact hagrees

theorem Sound.goes (hl : l.Complete) (h : x.Sound l r₀ size n) (hvoter : r₀.prs.keys ≠ [])
    (hroom : 0 < size ∨ n = l.lastIndex) : x.Goes where
  follower m ms hdue := by
    obtain ⟨f, resp, hstep, -⟩ := h.stage.follower hl h.faces hdue
    exact ⟨f, .ok, hstep⟩
  leader m ms hdue := by
    obtain ⟨r, hr⟩ := h.stage.leader hl h.faces hdue (Or.inl hvoter)
    exact ⟨r, .ok, hr.step⟩
  lowers m ms r st hdue hreject hstep := by
    obtain ⟨r', hr'⟩ := h.stage.leader hl h.faces hdue (Or.inl hvoter)
    obtain ⟨rfl, -⟩ := Prod.mk.inj (Except.ok.inj (hstep.symm.trans hr'.step))
    obtain ⟨p, p', hknown, hget, hlower, -⟩ := hr'.nearer
    exact ⟨p, p', hknown, hget, hlower hreject⟩
  arrives happends hanswers := by
    obtain ⟨p, hflows, hlast | ⟨hzero, hn⟩⟩ := h.quiet happends hanswers
    · exact h.arrived hflows hlast
    · exact h.arrived hflows (by omega)

end Exchange

/-- A leader that has the whole of its log is to probe a follower of its term, of which it does not know anything: the
logs match, and what the follower has committed is in the log of the leader. -/
structure Raft.Probing (r f : Raft) (p : Progress) : Prop where
  offers : r.Offers r.raftLog.logical
  complete : r.raftLog.logical.Complete
  state : f.state = .follower
  term : f.term = r.term
  coupled : f.raftLog.Coupled
  matched : r.raftLog.logical.Matches f.raftLog.logical
  committed : r.raftLog.logical.Agrees f.raftLog.logical f.raftLog.committed
  known : r.getProgress f.id = some p
  probe : p.state = .probe
  ready : p.paused = false
  fresh : p.matched = 0
  within : p.next ≤ r.raftLog.lastIndex + 1

theorem Raft.Probing.start {r f : Raft} (h : r.Probing f p)
    (hlands : Lands r.raftLog.logical f.raftLog r.maxMsgSize (p.next - 1) n) :
    ∃ x, Exchange.start r f = .ok x ∧ x.Sound r.raftLog.logical r p.inflights.size n := by
  have hpos := (h.offers.windowed.get h.known).next_pos
  have hwithin : p.next ≤ r.raftLog.logical.lastIndex + 1 := h.offers.coupled.lastIndex_eq ▸ h.within
  obtain ⟨r', hsend⟩ := sendAppend_ok h.offers.servable h.offers.windowed (Option.isSome_of_eq_some h.known)
  have hoffers := Raft.KeptByAppends.sendAppend Raft.Offers.kept h.offers hsend
  have hlike : Raft.Like r r' := Raft.Like.posts ⟨rfl, rfl, rfl, rfl⟩ (sendAppend_posts hsend)
  obtain ⟨⟨r'', b⟩, hturn, hr⟩ := bind_ok hsend
  obtain rfl := Except.ok.inj hr
  refine ⟨_, by rw [Exchange.start, hsend]; rfl, ⟨hoffers, hlike, h.state, h.term, h.coupled, h.matched⟩, ?_⟩
  cases h.offers.offered h.complete h.known hpos hwithin hturn with
  | rests same why =>
      rcases why with hpaused | ⟨hnever, -⟩
      · rw [Progress.isPaused, h.probe] at hpaused
        cases h.ready.symm.trans hpaused
      · cases hnever
  | appends m p' ready copies index batch msgs progress noted =>
      have hp' : p'.Probed p.inflights.size ∧ p'.next = p.next := by
        rcases noted with ⟨-, rfl⟩ | ⟨-, hnoted⟩
        · exact ⟨⟨h.probe, h.fresh, rfl⟩, rfl⟩
        · unfold Raft.progressAfterSend at hnoted
          simp only [h.probe] at hnoted
          rw [← Except.ok.inj hnoted]
          exact ⟨⟨h.probe, h.fresh, rfl⟩, rfl⟩
      refine .asked p' m ⟨progress, hp'.1, by omega, by omega, h.committed, ?_⟩ copies batch ?_ rfl
      · rw [show m.index = p.next - 1 by omega]
        exact hlands
      · simp only [msgs, List.drop_left]
        simp [appendsTo, copies.type, copies.to_]

end RaftEtcd
