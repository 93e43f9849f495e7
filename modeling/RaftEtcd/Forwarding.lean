import RaftEtcd.CatchUp
import RaftEtcd.Roles

/-! Requests that travel from one node to another: proposals and transfers of the leadership that a
follower passes on to its leader, and the votes that a transfer asks for. Each is followed from the
node that sends it to the node that steps it. -/
namespace RaftEtcd
variable {a b b' f l l' v : Raft} {msg fwd m : Message}

/-! ### Passing on -/

theorem stepFollower_passes_on (hty : msg.type = .msgProp ∨ msg.type = .msgTransferLeader) {a' : Raft} {st : Status}
    (h : a.stepFollower msg = .ok (a', st)) :
    a'.msgs = a.msgs ∨ a.lead ≠ 0 ∧ a.send { msg with to_ := a.lead } = .ok a' := by
  have hstay : ∀ {st' : Status}, (Except.ok (a, st') : Result _) = .ok (a', st) → a'.msgs = a.msgs := by
    intro st' h
    rw [← (Prod.mk.inj (Except.ok.inj h)).1]
  unfold Raft.stepFollower at h
  rcases hty with hty | hty
  · simp only [hty] at h
    split at h
    · exact Or.inl (hstay h)
    rename_i hlead
    split at h
    · exact Or.inl (hstay h)
    · rw [hty]
      exact Or.inr ⟨hlead, withOk_ok h⟩
  · simp only [hty] at h
    split at h
    · exact Or.inl (hstay h)
    · rename_i hlead
      rw [hty]
      exact Or.inr ⟨hlead, withOk_ok h⟩

/-- What a follower passes on comes from itself, is for its leader, and carries its term. -/
theorem passed_on (hf : a.state = .follower) (hty : msg.type = .msgProp ∨ msg.type = .msgTransferLeader)
    (h : a.Replies msg fwd) :
    a.lead ≠ 0 ∧ fwd = { msg with to_ := a.lead, from_ := a.id, term := a.term } := by
  obtain ⟨a', st, hstep, hnew⟩ := h
  have hnone : a'.msgs = a.msgs → False := by
    intro hsame
    rw [hsame, List.drop_length] at hnew
    cases hnew
  have hbody : ∀ g : Raft, g.state = .follower → g.stepBody msg = g.stepFollower msg := by
    intro g hg
    unfold Raft.stepBody
    rcases hty with hty | hty <;> rw [hty, hg]
  unfold Raft.step at hstep
  split at hstep
  · rw [hbody a hf] at hstep
    rcases stepFollower_passes_on hty hstep with hsame | ⟨hlead, hsend⟩
    · exact (hnone hsame).elim
    · obtain ⟨t, rfl, -, hterm⟩ := send_spec hsend
      refine ⟨hlead, ?_⟩
      have ht : t = a.term := by
        refine hterm ?_ ?_
        · rcases hty with hty | hty <;> rw [hty] <;> rfl
        · rcases hty with hty | hty <;> rw [hty] <;> decide
      simp only [List.drop_left, List.mem_singleton] at hnew
      rw [hnew, ht]
  rename_i hne
  split at hstep
  · -- a message of a later term leaves the follower without a leader
    split at hstep
    · rw [← (Prod.mk.inj (Except.ok.inj hstep)).1] at hnone
      exact (hnone rfl).elim
    · have hhigh : a.higherTerm msg = a.becomeFollower msg.term 0 := by
        unfold Raft.higherTerm
        rcases hty with hty | hty <;> rw [hty]
      rw [hhigh, hbody _ rfl] at hstep
      rcases stepFollower_passes_on hty hstep with hsame | ⟨hlead, -⟩
      · refine (hnone (hsame.trans ?_)).elim
        simp [Raft.becomeFollower]
      · exact absurd rfl hlead
  split at hstep
  · have hlow := withOk_ok hstep
    unfold Raft.lowerTerm at hlow
    rw [if_neg (by rcases hty with hty | hty <;> rw [hty] <;> simp),
      if_neg (by rcases hty with hty | hty <;> rw [hty] <;> simp)] at hlow
    rw [← Except.ok.inj hlow] at hnone
    exact (hnone rfl).elim
  · rw [hbody a hf] at hstep
    rcases stepFollower_passes_on hty hstep with hsame | ⟨-, hsend⟩
    · exact (hnone hsame).elim
    · -- `send` does not take a message that has a term already
      unfold Raft.send at hsend
      rcases hty with hty | hty <;> simp [hty, hne] at hsend

/-! ### Proposals -/

/-- The log of the node goes on with as many entries of its term. -/
structure Raft.Extends (r r' : Raft) (n : Nat) : Prop where
  lastIndex : r'.raftLog.lastIndex = r.raftLog.lastIndex + n
  entries : ∃ es, es <:+ r'.raftLog.unstable.entries ∧ es.length = n ∧ IndexedFrom (r.raftLog.lastIndex + 1) es ∧
    ∀ e ∈ es, e.term = r.term

/-- Entries that are numbered from behind the last one on are added at the end. -/
theorem append_lastIndex {log log' : RaftLog} {es : List Entry} (hne : es ≠ [])
    (hidx : IndexedFrom (log.lastIndex + 1) es) (h : log.append es = .ok log') :
    log'.lastIndex = log.lastIndex + es.length ∧ es <:+ log'.unstable.entries := by
  unfold RaftLog.append at h
  cases es with
  | nil => exact absurd rfl hne
  | cons e es =>
      have he : e.index = log.lastIndex + 1 := hidx.cons.1
      simp only at h
      split at h
      · cases h
      obtain ⟨u, hu, h⟩ := bind_ok h
      obtain rfl := Except.ok.inj h
      have hlast : ∀ u' : Unstable, u'.entries ≠ [] → ∀ log₀ : RaftLog,
          ({ log₀ with unstable := u' } : RaftLog).lastIndex = u'.offset + u'.entries.length - 1 := by
        intro u' hu' log₀
        simp [RaftLog.lastIndex, Unstable.maybeLastIndex, hu']
      unfold Unstable.truncateAndAppend at hu
      simp only at hu
      split at hu
      · rename_i hafter
        obtain rfl := Except.ok.inj hu
        refine ⟨?_, List.suffix_append _ _⟩
        rw [hlast _ (by simp)]
        simp only [List.length_append, List.length_cons]
        omega
      split at hu
      · obtain rfl := Except.ok.inj hu
        refine ⟨?_, List.suffix_rfl⟩
        rw [hlast _ (by simp)]
        simp only [List.length_cons]
        omega
      · -- the entries would start inside the unstable ones
        rename_i hafter hle
        obtain ⟨kept, hkept, hu⟩ := bind_ok hu
        obtain ⟨-, -, hin, -⟩ := Unstable.slice_cases hkept
        have hempty : log.unstable.entries = [] := by
          by_contra hfull
          have := hlast log.unstable hfull log
          have hpos := List.length_pos_of_ne_nil hfull
          change log.lastIndex = _ at this
          omega
        rw [hempty, List.length_nil] at hin
        omega

theorem appendEntry_extends {es : List Entry} (hne : es ≠ []) (h : b.appendEntry es = .ok (b', true)) :
    b.Extends b' es.length := by
  obtain ⟨hfalse, -⟩ | ⟨-, -, log, c, prs, lprs, u, hlog, -, -, rfl⟩ := appendEntry_frame h
  · cases hfalse
  · have hlen := stampEntries_length b.term (b.raftLog.lastIndex + 1) es
    have hne' : Raft.stampEntries b.term (b.raftLog.lastIndex + 1) es ≠ [] := by
      rw [← List.length_pos_iff, hlen, List.length_pos_iff]
      exact hne
    obtain ⟨hlast, hsuffix⟩ := append_lastIndex hne' (stampEntries_indexed _ _ es) hlog
    rw [hlen] at hlast
    exact ⟨hlast, _, hsuffix, hlen, stampEntries_indexed _ _ es, stampEntries_term _ _ es⟩

/-- A leader that does not refuse a proposal has taken it into its log. -/
theorem leaderProp_extends {st : Status} (h : b.leaderProp msg = .ok (b', st)) :
    st.isOk = false ∨ b.Extends b' msg.entries.length := by
  have hkeep := filterConfChanges_keeps b 0 msg.entries
  have hlen := filterConfChanges_length b 0 msg.entries
  cases leaderProp_proposes h with
  | refuses why status same => exact Or.inl (status ▸ rfl)
  | drops member settled append status => exact Or.inl (status ▸ rfl)
  | takes nonempty b₂ append cast status =>
      have hext := appendEntry_extends (by rw [← List.length_pos_iff, hlen, List.length_pos_iff]; exact nonempty) append
      rw [hlen] at hext
      have hlog := (bcastAppend_posts cast).raftLog
      refine Or.inr ⟨?_, ?_⟩
      · rw [hlog, hext.lastIndex, hkeep.raftLog]
      · rw [hlog, ← hkeep.raftLog, ← hkeep.term]
        exact hext.entries

theorem step_leader_prop (hb : b.state = .leader) (hty : msg.type = .msgProp) (hterm : msg.term = 0 ∨ msg.term = b.term) :
    b.step msg = b.leaderProp msg := by
  have hbody : b.stepBody msg = b.leaderProp msg := by
    unfold Raft.stepBody
    rw [hty, hb]
    simp only [Raft.stepLeader, hty]
  unfold Raft.step
  rcases hterm with hterm | hterm
  · rw [if_pos hterm, hbody]
  · rw [hterm, if_neg (lt_irrefl _), if_neg (lt_irrefl _), hbody, ite_self]

/-- A proposal that a follower passes on is taken into the log of the leader that steps it, or
refused, exactly if that leader does not lead a later term than the follower is in. -/
theorem forwarded_proposal_kept_iff (hf : a.state = .follower) (hty : msg.type = .msgProp) (hne : msg.entries ≠ [])
    (hfwd : a.Replies msg fwd) (hb : b.state = .leader) :
    (∀ b' st, b.step fwd = .ok (b', st) → st.isOk = false ∨ b.Extends b' fwd.entries.length) ↔
      a.term = 0 ∨ b.term ≤ a.term := by
  obtain ⟨-, rfl⟩ := passed_on hf (Or.inl hty) hfwd
  constructor
  · intro hkept
    by_contra hstale
    rw [not_or, not_le] at hstale
    -- the leader drops the message without a word
    have hlow : b.step { msg with to_ := a.lead, from_ := a.id, term := a.term } = .ok (b, .ok) := by
      unfold Raft.step
      rw [if_neg hstale.1, if_neg (by simp only; omega), if_pos hstale.2]
      simp [Raft.lowerTerm, hty, Raft.withOk, bind, Except.bind]
    rcases hkept b .ok hlow with hrefused | hext
    · cases hrefused
    · have hlast := hext.lastIndex
      have hpos := List.length_pos_of_ne_nil hne
      simp only at hlast
      omega
  · intro hterm b' st hstep
    rcases Nat.lt_or_ge b.term a.term with hlt | hge
    · -- a leader of an earlier term follows, and has no leader to pass the proposal to
      unfold Raft.step at hstep
      rw [if_neg (by simp only; omega), if_pos (by simp only; omega), if_neg (by simp [hty])] at hstep
      simp only [Raft.higherTerm, Raft.stepBody, hty, Raft.becomeFollower, Raft.stepFollower, if_true] at hstep
      rw [← (Prod.mk.inj (Except.ok.inj hstep)).2]
      exact Or.inl rfl
    · have hprop := @step_leader_prop b { msg with to_ := a.lead, from_ := a.id, term := a.term } hb hty
        (hterm.imp id fun hle => Nat.le_antisymm hge hle)
      rw [hprop] at hstep
      exact leaderProp_extends hstep

/-- Steps a message and takes the last one that the node sends then. -/
def Raft.reply (f : Raft) (msg : Message) : Result (Raft × Message) := do
  let (f', _) ← f.step msg
  match (f'.msgs.drop f.msgs.length).getLast? with
  | some m => .ok (f', m)
  | none => .error "no message"

theorem reply_replies {f' : Raft} (h : f.reply msg = .ok (f', m)) : f.Replies msg m := by
  obtain ⟨⟨f₁, st⟩, h₁, h⟩ := bind_ok h
  simp only at h
  split at h
  · rename_i m' hlast
    obtain ⟨rfl, rfl⟩ := Prod.mk.inj (Except.ok.inj h)
    exact ⟨f₁, st, h₁, List.mem_of_getLast? hlast⟩
  · cases h

/-- A server of the trio that follows the first one in the first term. -/
def followsFirst (id : Nat) : Result RawNode := do
  let n ← RawNode.restartNode ((trio false).config id {} 0 fun _ => 0)
  n.run (.step { type := .msgHeartbeat, from_ := 1, to_ := id, term := 1 })

/-- The first server loses the leadership of the first term, and wins it again. -/
def winAgain : List NodeAction :=
  [.step { type := .msgHeartbeat, from_ := 3, to_ := 1, term := 2 }, .campaign,
   .step { type := .msgVoteResp, from_ := 2, to_ := 1, term := 3 }]

/-- The second server passes a proposal on to the first one, which leads after `later`. -/
def forwardRound (later : List NodeAction) : Result (Raft × Message × Raft × Raft × Status) := do
  let a ← followsFirst 2
  let (_, fwd) ← a.raft.reply { type := .msgProp, from_ := 2, entries := [{ data := [7] }] }
  let b ← firstVoter
  let b ← b.runAll (winElection ++ later)
  let (b', st) ← b.raft.step fwd
  .ok (a.raft, fwd, b.raft, b', st)

theorem forwardRound_spec {later : List NodeAction} {st : Status} (h : forwardRound later = .ok (a, fwd, b, b', st)) :
    a.Replies { type := .msgProp, from_ := 2, entries := [{ data := [7] }] } fwd ∧ b.step fwd = .ok (b', st) := by
  obtain ⟨n, -, h⟩ := bind_ok h
  obtain ⟨⟨a₁, fwd₁⟩, hreply, h⟩ := bind_ok h
  obtain ⟨n₁, -, h⟩ := bind_ok h
  obtain ⟨n₂, -, h⟩ := bind_ok h
  obtain ⟨⟨b₁, st₁⟩, hstep, h⟩ := bind_ok h
  simp only [Except.ok.injEq, Prod.mk.injEq] at h
  obtain ⟨rfl, rfl, rfl, rfl, rfl⟩ := h
  exact ⟨reply_replies hreply, hstep⟩

theorem forwarded_proposal_kept_iff_same_term : ∃ (a b b' : Raft) (msg fwd : Message) (st : Status),
    a.Replies msg fwd ∧ b.state = .leader ∧ b.step fwd = .ok (b', st) ∧ st = .ok ∧
      b'.raftLog.lastIndex = b.raftLog.lastIndex + 1 := by
  obtain ⟨⟨a, fwd, b, b', st⟩, hrun, hcheck⟩ : ∃ p, forwardRound [] = .ok p ∧
      decide (p.1.state = .follower ∧ p.2.2.1.state = .leader ∧ p.2.2.1.term ≤ p.1.term ∧ p.2.2.2.2 = .ok ∧
        p.2.1.entries.length = 1) = true :=
    exists_ok_of_any (by decide +kernel)
  obtain ⟨hreply, hstep⟩ := forwardRound_spec hrun
  obtain ⟨hf, hb, hle, hst, hlen⟩ := of_decide_eq_true hcheck
  simp only at hf hb hle hst hlen
  rcases (forwarded_proposal_kept_iff hf rfl (by simp) hreply hb).mpr (Or.inr hle) b' st hstep with hno | hext
  · rw [hst] at hno
    cases hno
  · exact ⟨a, b, b', _, fwd, st, hreply, hb, hstep, hst, hlen ▸ hext.lastIndex⟩

/-- A leader that was elected again meanwhile drops the proposal and says that all is well. -/
theorem forwarded_proposal_dropped : ∃ (a b b' : Raft) (msg fwd : Message),
    a.state = .follower ∧ a.lead = b.id ∧ a.Replies msg fwd ∧ b.state = .leader ∧ fwd.entries.length = 1 ∧
      b.step fwd = .ok (b', .ok) ∧ b'.raftLog.lastIndex = b.raftLog.lastIndex := by
  obtain ⟨⟨a, fwd, b, b', st⟩, hrun, hcheck⟩ : ∃ p, forwardRound winAgain = .ok p ∧
      decide (p.1.state = .follower ∧ p.1.lead = p.2.2.1.id ∧ p.2.2.1.state = .leader ∧ p.2.1.entries.length = 1 ∧
        p.2.2.2.2 = .ok ∧ p.2.2.2.1.raftLog.lastIndex = p.2.2.1.raftLog.lastIndex) = true :=
    exists_ok_of_any (by decide +kernel)
  obtain ⟨hreply, hstep⟩ := forwardRound_spec hrun
  obtain ⟨hf, hlead, hb, hlen, hst, hlast⟩ := of_decide_eq_true hcheck
  simp only at hf hlead hb hlen hst hlast
  rw [hst] at hstep
  exact ⟨a, b, b', _, fwd, hf, hlead, hreply, hb, hlen, hstep, hlast⟩

/-! ### Leadership transfers -/

/-- The leader turns to the sender of the message, whoever was asked for. -/
theorem leaderTransferLeader_spec {pr : Progress} (h : l.leaderTransferLeader pr msg = .ok l') :
    (l'.leadTransferee = l.leadTransferee ∧ (pr.isLearner = true ∨ l.leadTransferee = msg.from_)) ∨
      msg.from_ = l.id ∨ l'.leadTransferee = msg.from_ := by
  have hposts : ∀ {l₀ : Raft}, l₀.leadTransferee = msg.from_ → Posts l₀ l' → l'.leadTransferee = msg.from_ := by
    intro l₀ hl₀ hp
    obtain ⟨prs, lprs, msgs, rfl⟩ := hp.rest
    exact hl₀
  cases leaderTransferLeader_cases h with
  | keeps why same => exact Or.inl ⟨by rw [same], why⟩
  | aborts self transferee frame => exact Or.inr (Or.inl self)
  | urges other sent => exact Or.inr (Or.inr (hposts rfl (sendTimeoutNow_posts sent)))
  | appends other sent => exact Or.inr (Or.inr (hposts rfl (sendAppend_posts sent)))

theorem step_leader_transfer (hl : l.state = .leader) (hty : msg.type = .msgTransferLeader)
    (hterm : msg.term = l.term) : l.step msg = Raft.withOk (l.stepLeaderProgress msg) := by
  have hbody : l.stepBody msg = Raft.withOk (l.stepLeaderProgress msg) := by
    unfold Raft.stepBody
    rw [hty, hl]
    simp only [Raft.stepLeader, hty]
  unfold Raft.step
  rw [hterm, if_neg (lt_irrefl _), if_neg (lt_irrefl _), hbody, ite_self]

/-- A follower that passes a transfer on to its leader asks for itself: the leader turns to the
node that was named exactly if that is the follower. -/
theorem forwarded_transfer_target_iff {n n' : RawNode} {lead t : Nat} {st st' : Status} {pr : Progress}
    (hf : n.raft.state = .follower) (hcall : n.transferLeadership lead t = .ok (n', st))
    (hfwd : fwd ∈ n'.raft.msgs.drop n.raft.msgs.length) (hl : l.state = .leader) (hother : n.raft.id ≠ l.id)
    (hterm : l.term = n.raft.term) (hvoter : l.prs.lookup t = some pr) (hpr : pr.isLearner = false)
    (hbusy : l.leadTransferee ≠ t) (h : l.step fwd = .ok (l', st')) :
    l'.leadTransferee = t ↔ n.raft.id = t := by
  obtain ⟨⟨a', st₁⟩, hstep, hcall⟩ := bind_ok hcall
  obtain rfl := (Prod.mk.inj (Except.ok.inj hcall)).1
  obtain ⟨-, rfl⟩ := passed_on hf (Or.inr rfl) ⟨a', st₁, hstep, hfwd⟩
  rw [step_leader_transfer hl rfl hterm.symm] at h
  have h := withOk_ok h
  unfold Raft.stepLeaderProgress at h
  simp only at h
  split at h
  · rename_i hnone
    rw [← Except.ok.inj h]
    refine ⟨fun heq => absurd heq hbusy, fun heq => ?_⟩
    rw [heq, Raft.getProgress, hvoter] at hnone
    cases hnone
  · rename_i q hq
    rcases leaderTransferLeader_spec h with ⟨hsame, hwhy⟩ | hself | hnew
    · rw [hsame]
      refine ⟨fun heq => absurd heq hbusy, fun heq => ?_⟩
      have hq' : l.getProgress t = some pr := by rw [Raft.getProgress, hvoter]
      rw [heq, hq'] at hq
      obtain rfl := Option.some.inj hq
      rcases hwhy with hlearner | hsame'
      · rw [hpr] at hlearner
        cases hlearner
      · exact hsame'.trans heq
    · exact absurd hself hother
    · rw [hnew]

/-- A transfer that one node is asked for and another one, which leads, steps. -/
structure TransferRound where
  asked : RawNode
  after : RawNode
  status : Status
  fwd : Message
  leader : Raft
  leader' : Raft
  status' : Status

/-- The second server asks the first one to hand its leadership to `t`. -/
def transferRound (t : Nat) : Result TransferRound := do
  let n ← followsFirst 2
  let (n', st) ← n.transferLeadership 1 t
  let (_, fwd) ← n.raft.reply { type := .msgTransferLeader, from_ := t, to_ := 1 }
  let l ← firstVoter
  let l ← l.runAll winElection
  let (l', st') ← l.raft.step fwd
  .ok ⟨n, n', st, fwd, l.raft, l', st'⟩

theorem transferRound_spec {t : Nat} {p : TransferRound} (h : transferRound t = .ok p) :
    p.asked.transferLeadership 1 t = .ok (p.after, p.status) ∧
      p.fwd ∈ p.after.raft.msgs.drop p.asked.raft.msgs.length ∧ p.leader.step p.fwd = .ok (p.leader', p.status') := by
  obtain ⟨n, -, h⟩ := bind_ok h
  obtain ⟨⟨n', st⟩, hcall, h⟩ := bind_ok h
  obtain ⟨⟨a', fwd⟩, hreply, h⟩ := bind_ok h
  obtain ⟨l₁, -, h⟩ := bind_ok h
  obtain ⟨l₂, -, h⟩ := bind_ok h
  obtain ⟨⟨l', st'⟩, hstep, h⟩ := bind_ok h
  obtain rfl := Except.ok.inj h
  refine ⟨hcall, ?_, hstep⟩
  obtain ⟨a₁, st₁, hreply, hmem⟩ := reply_replies hreply
  obtain ⟨⟨a₂, st₂⟩, hraft, hcall⟩ := bind_ok hcall
  rw [hreply] at hraft
  obtain rfl := (Prod.mk.inj (Except.ok.inj hraft)).1
  obtain rfl := (Prod.mk.inj (Except.ok.inj hcall)).1
  exact hmem

/-- The second server follows the first one, which leads their term and has the voter `t`. -/
def TransferRound.Asks (p : TransferRound) (t : Nat) : Prop :=
  p.asked.raft.state = .follower ∧ p.leader.state = .leader ∧ p.asked.raft.id ≠ p.leader.id ∧
    p.leader.term = p.asked.raft.term ∧ (p.leader.prs.lookup t).map Progress.isLearner = some false ∧
    p.leader.leadTransferee ≠ t

instance (p : TransferRound) (t : Nat) : Decidable (p.Asks t) := by
  unfold TransferRound.Asks
  infer_instance

theorem forwarded_transfer_target_iff_itself : ∃ p : TransferRound, transferRound 2 = .ok p ∧ p.Asks 2 ∧
    p.leader'.leadTransferee = 2 := by
  obtain ⟨p, hrun, hcheck⟩ : ∃ p, transferRound 2 = .ok p ∧ decide (p.Asks 2 ∧ p.asked.raft.id = 2) = true :=
    exists_ok_of_any (by decide +kernel)
  obtain ⟨⟨hf, hl, hother, hterm, hvoter, hbusy⟩, hid⟩ := of_decide_eq_true hcheck
  obtain ⟨hcall, hfwd, hstep⟩ := transferRound_spec hrun
  obtain ⟨pr, hpr, hlearner⟩ := Option.map_eq_some_iff.mp hvoter
  refine ⟨p, hrun, ⟨hf, hl, hother, hterm, hvoter, hbusy⟩, ?_⟩
  exact (forwarded_transfer_target_iff hf hcall hfwd hl hother hterm hpr hlearner hbusy hstep).mpr hid

/-- Asked to hand the leadership to the third server, the first one turns to the second. -/
theorem forwarded_transfer_loses_target : ∃ (n n' : RawNode) (st st' : Status) (fwd : Message) (l l' : Raft)
    (pr : Progress), n.raft.state = .follower ∧ n.raft.lead = l.id ∧ n.transferLeadership l.id 3 = .ok (n', st) ∧
      fwd ∈ n'.raft.msgs.drop n.raft.msgs.length ∧ l.state = .leader ∧ l.term = n.raft.term ∧
      l.prs.lookup 3 = some pr ∧ pr.isLearner = false ∧ 3 ≠ l.id ∧ l.leadTransferee = 0 ∧
      l.step fwd = .ok (l', st') ∧ l'.leadTransferee = 2 := by
  obtain ⟨p, hrun, hcheck⟩ : ∃ p, transferRound 3 = .ok p ∧ decide (p.Asks 3 ∧ p.leader.id = 1 ∧
      p.asked.raft.lead = 1 ∧ p.leader.leadTransferee = 0 ∧ p.leader'.leadTransferee = 2) = true :=
    exists_ok_of_any (by decide +kernel)
  obtain ⟨⟨hf, hl, hother, hterm, hvoter, -⟩, hid, hlead, hbusy, hnew⟩ := of_decide_eq_true hcheck
  obtain ⟨hcall, hfwd, hstep⟩ := transferRound_spec hrun
  obtain ⟨pr, hpr, hlearner⟩ := Option.map_eq_some_iff.mp hvoter
  refine ⟨p.asked, p.after, p.status, p.status', p.fwd, p.leader, p.leader', pr, hf, hlead.trans hid.symm, ?_, hfwd, hl,
    hterm, hpr, hlearner, ?_, hbusy, hstep, hnew⟩
  · rw [hid]
    exact hcall
  · rw [hid]
    decide

/-! ### Votes for a transfer -/

/-- A follower that is told to stand for election asks for votes as any candidate does. -/
theorem timeoutNow_requests (hf : f.state = .follower) (hty : msg.type = .msgTimeoutNow) (h : f.Replies msg m) :
    m.type = .msgVote ∧ f.Requests m := by
  obtain ⟨f', st, hstep, hnew⟩ := h
  -- what the follower sends, possibly after it has taken over the term of the message
  have hcall : ∀ g : Raft, g.state = .follower → g.id = f.id → g.raftLog = f.raftLog → g.msgs = f.msgs →
      g.stepBody msg = .ok (f', st) → m.type = .msgVote ∧ f.Requests m := by
    intro g hg hid hlog hmsgs hbody
    have hfollow : g.stepFollower msg = .ok (f', st) := by
      unfold Raft.stepBody at hbody
      rwa [hty, hg] at hbody
    unfold Raft.stepFollower at hfollow
    simp only [hty] at hfollow
    split at hfollow
    · have hcamp := withOk_ok hfollow
      rw [campaign_eq (by simp [hg]), if_neg (by decide), campaignElection_eq (by simp [hg])] at hcamp
      split at hcamp
      · rw [(becomeLeader_new hcamp).msgs, Raft.standing_msgs, hmsgs, List.drop_length] at hnew
        cases hnew
      · obtain ⟨ms, rfl, hall⟩ := sendVoteRequests_spec hcamp
        simp only [Raft.standing_msgs, hmsgs, List.drop_left] at hnew
        obtain ⟨hmty, hreq⟩ := hall m hnew
        refine ⟨hmty, ?_, ?_, ?_, hreq.context⟩
        · rw [hreq.from_, Raft.standing_id, hid]
        · rw [hreq.index, Raft.standing_raftLog, hlog]
        · rw [← hlog, ← hreq.logTerm, Raft.standing_raftLog]
    · rw [← (Prod.mk.inj (Except.ok.inj hfollow)).1, hmsgs, List.drop_length] at hnew
      cases hnew
  unfold Raft.step at hstep
  split at hstep
  · exact hcall f hf rfl rfl rfl hstep
  split at hstep
  · have hhigh : f.higherTerm msg = f.becomeFollower msg.term 0 := by
      unfold Raft.higherTerm
      rw [hty]
    rw [if_neg (by simp [hty]), hhigh] at hstep
    exact hcall _ rfl (by simp [Raft.becomeFollower]) (by simp [Raft.becomeFollower]) (by simp [Raft.becomeFollower]) hstep
  split at hstep
  · have hlow := withOk_ok hstep
    simp only [Raft.lowerTerm, hty, reduceCtorEq, or_self, and_false, if_false] at hlow
    rw [← Except.ok.inj hlow, List.drop_length] at hnew
    cases hnew
  · exact hcall f hf rfl rfl rfl hstep

/-- The log does not end behind the other one. -/
def RaftLog.NotAhead (log other : RaftLog) : Prop :=
  ∃ t t', log.lastTerm = .ok t ∧ other.lastTerm = .ok t' ∧ (t < t' ∨ t = t' ∧ log.lastIndex ≤ other.lastIndex)

/-- The node takes over the term of the request and gives its vote. -/
def Raft.Grants (v : Raft) (m : Message) : Prop :=
  ∃ v' resp, v.step m = .ok (v', .ok) ∧ v'.term = m.term ∧ resp ∈ v'.msgs.drop v.msgs.length ∧
    resp.type = .msgVoteResp ∧ resp.reject = false ∧ resp.to_ = m.from_ ∧ resp.term = m.term

theorem stepVote_grants (hlearner : v.isLearner = false) (hty : m.type = .msgVote) (hvote : v.vote = 0)
    (hlead : v.lead = 0) (hterm : v.term = m.term) (hpos : m.term ≠ 0)
    (hlog : v.raftLog.isUpToDate m.index m.logTerm = .ok true) :
    v.stepVote m = .ok { v with
      msgs := v.msgs ++ [{ to_ := m.from_, term := m.term, type := .msgVoteResp, from_ := v.id }]
      electionElapsed := 0, vote := m.from_ } := by
  unfold Raft.stepVote
  rw [hlearner]
  simp only [Bool.false_eq_true, if_false, hlog, hty, voteRespMsgType, bind, Except.bind, hvote, hlead, hterm]
  simp only [Raft.send, hpos, true_or, or_true, if_true, if_false, and_self, hterm]
  rw [hlearner, hlead]

/-- A voter whose log is not ahead grants the vote that a transfer asks for exactly if it is not
within the lease of its leader: nothing in the request says that the election is a transfer. -/
theorem transfer_vote_granted_iff (hf : f.state = .follower) (hnow : msg.type = .msgTimeoutNow) (hreq : f.Replies msg m)
    (hlearner : v.isLearner = false) (hterm : v.term < m.term) (hlog : v.raftLog.NotAhead f.raftLog) :
    v.Grants m ↔ v.inLease = false := by
  obtain ⟨hty, hasks⟩ := timeoutNow_requests hf hnow hreq
  have hforce : m.context ≠ kCampaignTransfer := by
    rw [hasks.context]
    decide
  constructor
  · rintro ⟨v', resp, hstep, hnew, -⟩
    by_contra hlease
    unfold Raft.step at hstep
    rw [if_neg (by omega), if_pos (by omega), if_pos ⟨Or.inl hty, hforce, by simpa using hlease⟩] at hstep
    rw [← (Prod.mk.inj (Except.ok.inj hstep)).1] at hnew
    omega
  · intro hlease
    obtain ⟨vt, ft, hvt, hft, hle⟩ := hlog
    have hup : v.raftLog.isUpToDate m.index m.logTerm = .ok true := by
      rw [hasks.logTerm] at hft
      obtain rfl := Except.ok.inj hft
      simp only [RaftLog.isUpToDate, hvt, bind, Except.bind, hasks.index]
      congr 1
      simp only [gt_iff_lt, ge_iff_le, Bool.or_eq_true, decide_eq_true_eq, Bool.and_eq_true, beq_iff_eq]
      omega
    have hvote : (v.becomeFollower m.term 0).vote = 0 := by
      simp [Raft.becomeFollower, Raft.reset_vote, hterm.ne]
    have hgrant := stepVote_grants (v := v.becomeFollower m.term 0) (m := m) (by simpa [Raft.becomeFollower] using hlearner)
      hty hvote rfl (by simp [Raft.becomeFollower]) (by omega) (by simpa [Raft.becomeFollower] using hup)
    have hhigh : v.higherTerm m = v.becomeFollower m.term 0 := by
      unfold Raft.higherTerm
      rw [hty]
    have hstep : v.step m = Raft.withOk ((v.becomeFollower m.term 0).stepVote m) := by
      unfold Raft.step
      rw [if_neg (by omega), if_pos (by omega), if_neg (by simp [hlease]), hhigh]
      unfold Raft.stepBody
      rw [hty]
    rw [hgrant] at hstep
    refine ⟨_, { to_ := m.from_, term := m.term, type := .msgVoteResp, from_ := (v.becomeFollower m.term 0).id }, hstep,
      ?_, ?_, rfl, rfl, rfl, rfl⟩
    · simp [Raft.becomeFollower]
    · simp [Raft.becomeFollower]

/-- The second server is told by the first one to stand for election, and asks `v` for its vote. -/
def transferVoteRound (v : Result RawNode) : Result (Raft × Message × Raft) := do
  let f ← followsFirst 2
  let (_, m) ← f.raft.reply { type := .msgTimeoutNow, from_ := 1, to_ := 2, term := 1 }
  let v ← v
  .ok (f.raft, m, v.raft)

theorem transferVoteRound_spec {n : Result RawNode} (h : transferVoteRound n = .ok (f, m, v)) :
    f.Replies { type := .msgTimeoutNow, from_ := 1, to_ := 2, term := 1 } m := by
  obtain ⟨f₁, -, h⟩ := bind_ok h
  obtain ⟨⟨f₂, m₁⟩, hreply, h⟩ := bind_ok h
  obtain ⟨v₁, -, h⟩ := bind_ok h
  simp only [Except.ok.injEq, Prod.mk.injEq] at h
  obtain ⟨rfl, rfl, rfl⟩ := h
  exact reply_replies hreply

/-- A follower of the round before is asked by the second server, and its log is empty as well. -/
def AskedInTransfer (f : Raft) (m : Message) (v : Raft) : Prop :=
  f.state = .follower ∧ f.promotable = true ∧ m.type = .msgVote ∧ v.isLearner = false ∧ v.term < m.term ∧
    v.raftLog.lastTerm = .ok 0 ∧ f.raftLog.lastTerm = .ok 0 ∧ v.raftLog.lastIndex ≤ f.raftLog.lastIndex

instance (f : Raft) (m : Message) (v : Raft) : Decidable (AskedInTransfer f m v) := by
  unfold AskedInTransfer
  infer_instance

theorem transfer_vote_granted_iff_no_leader : ∃ (f v : Raft) (m : Message), AskedInTransfer f m v ∧ v.Grants m := by
  obtain ⟨⟨f, m, v⟩, hrun, hcheck⟩ : ∃ p,
      transferVoteRound (RawNode.restartNode ((trio false).config 3 {} 0 fun _ => 0)) = .ok p ∧
        decide (AskedInTransfer p.1 p.2.1 p.2.2 ∧ p.2.2.inLease = false) = true :=
    exists_ok_of_any (by decide +kernel)
  obtain ⟨⟨hf, hp, hty, hlearner, hterm, hvt, hft, hle⟩, hlease⟩ := of_decide_eq_true hcheck
  refine ⟨f, v, m, ⟨hf, hp, hty, hlearner, hterm, hvt, hft, hle⟩, ?_⟩
  exact (transfer_vote_granted_iff hf rfl (transferVoteRound_spec hrun) hlearner hterm
    ⟨0, 0, hvt, hft, Or.inr ⟨rfl, hle⟩⟩).mpr hlease

/-- The third server has just heard from the leader and ignores the request. -/
theorem transfer_vote_ignored : ∃ (f v : Raft) (msg m : Message), msg.type = .msgTimeoutNow ∧ f.Replies msg m ∧
    AskedInTransfer f m v ∧ v.checkQuorum = true ∧ v.step m = .ok (v, .ok) := by
  obtain ⟨⟨f, m, v⟩, hrun, hcheck⟩ : ∃ p, transferVoteRound (followsFirst 3) = .ok p ∧
      decide (AskedInTransfer p.1 p.2.1 p.2.2 ∧ p.2.2.checkQuorum = true ∧ p.2.2.inLease = true ∧
        p.2.1.context ≠ kCampaignTransfer) = true :=
    exists_ok_of_any (by decide +kernel)
  obtain ⟨hasked, hcheck, hlease, hforce⟩ := of_decide_eq_true hcheck
  refine ⟨f, v, _, m, rfl, transferVoteRound_spec hrun, hasked, hcheck, ?_⟩
  obtain ⟨-, -, hty, -, hterm, -⟩ := hasked
  unfold Raft.step
  rw [if_neg (Nat.ne_of_gt (Nat.zero_lt_of_lt hterm)), if_pos hterm, if_pos ⟨Or.inl hty, hforce, hlease⟩]

/-! ### Forwarded reads -/

/-- A leader answers the request of another node without asking a quorum: it is the only voter, or it
trusts its lease and has committed an entry of its term. -/
def Raft.AnswersForwarded (r : Raft) (msg : Message) : Prop :=
  (msg.term = 0 ∨ msg.term = r.term) ∧
    (r.quorum ≤ 1 ∨ r.readOnly.option = .leaseBased ∧
      (r.raftLog.term r.raftLog.committed).toOption.getD 0 = r.term)

instance (r : Raft) (msg : Message) : Decidable (r.AnswersForwarded msg) := inferInstanceAs (Decidable (_ ∧ _))

/-- The answer of a read request goes to the node that asked, and nowhere else. -/
def Raft.AnswersRequester (r r' : Raft) (msg : Message) : Prop :=
  (∃ m : Message, r'.msgs = r.msgs ++ [m] ∧ m.type = .msgReadIndexResp ∧ m.to_ = msg.from_ ∧
    m.entries = msg.entries ∧ m.index = r.raftLog.committed) ∧ r'.readStates = r.readStates

theorem step_leader_readIndex (hb : b.state = .leader) (hty : msg.type = .msgReadIndex)
    (hterm : msg.term = 0 ∨ msg.term = b.term) : b.step msg = Raft.withOk (b.leaderReadIndex msg) := by
  have hbody : b.stepBody msg = Raft.withOk (b.leaderReadIndex msg) := by
    unfold Raft.stepBody
    rw [hty, hb]
    simp only [Raft.stepLeader, hty]
  unfold Raft.step
  rcases hterm with hterm | hterm
  · rw [if_pos hterm, hbody]
  · rw [hterm, if_neg (lt_irrefl _), if_neg (lt_irrefl _), hbody, ite_self]

/-- The only voter keeps the answer for itself, and the lease holder sends it to no one. -/
theorem leaderReadIndex_misroutes (hat : b.AnswersForwarded msg) (h : b.leaderReadIndex msg = .ok b') :
    (∃ rs, b'.readStates = b.readStates ++ [rs]) ∨ ∃ m : Message, b'.msgs = b.msgs ++ [m] ∧ m.to_ = 0 := by
  cases leaderReadIndex_cases h with
  | waits many term same => exact absurd (hat.2.resolve_left (Nat.not_le_of_lt many)).2 term
  | queues many safe ro ctx add context beat =>
      cases (hat.2.resolve_left (Nat.not_le_of_lt many)).1.symm.trans safe
  | reads why ctx context read => exact Or.inl ⟨_, by rw [read]⟩
  | replies many lease other sent =>
      obtain ⟨t, rfl, -⟩ := send_spec sent
      exact Or.inr ⟨_, rfl, rfl⟩

/-- A leader that answers a forwarded read at once never answers it to the node that asked. -/
theorem forwarded_read_never_answered (hb : b.state = .leader) (hty : msg.type = .msgReadIndex)
    (hother : msg.from_ ≠ 0 ∧ msg.from_ ≠ b.id) (hat : b.AnswersForwarded msg) :
    ¬ ∃ b' st, b.step msg = .ok (b', st) ∧ b.AnswersRequester b' msg := by
  rintro ⟨b', st, hstep, ⟨m, hmsgs, -, hto, -⟩, hreads⟩
  rw [step_leader_readIndex hb hty hat.1] at hstep
  rcases leaderReadIndex_misroutes hat (withOk_ok hstep) with ⟨rs, hkept⟩ | ⟨m', hlost, hzero⟩
  · rw [hkept] at hreads
    have hlen := congrArg List.length hreads
    simp at hlen
  · rw [hmsgs] at hlost
    obtain rfl := List.singleton_injective (List.append_cancel_left hlost)
    exact hother.1 (hto ▸ hzero)

/-- The first of three voters with a lease, or the only voter with a learner beside it. -/
def readLeader (alone : Bool) : Result RawNode :=
  if alone then do
    let n ← RawNode.restartNode { serverSettings false with id := 1, peers := [1], learners := [2] }
    n.run .campaign
  else do
    let n ← RawNode.restartNode { (trio false).config 1 {} 0 fun _ => 0 with readOnlyOption := .leaseBased }
    n.runAll (winElection ++ [.step { type := .msgAppResp, to_ := 1, from_ := 2, term := 1, index := 1 }])

def forwardedRead : Message := { type := .msgReadIndex, from_ := 2, to_ := 1, entries := [{ data := [7] }] }

/-- The second server asks the leader. -/
def forwardedRound (alone : Bool) : Result (RawNode × Raft × Status) := do
  let n ← readLeader alone
  let (b', st) ← n.raft.step forwardedRead
  .ok (n, b', st)

theorem forwardedRound_spec {alone : Bool} {n : RawNode} {st : Status} (h : forwardedRound alone = .ok (n, b', st)) :
    readLeader alone = .ok n ∧ n.raft.step forwardedRead = .ok (b', st) := by
  obtain ⟨n₁, hn, h⟩ := bind_ok h
  obtain ⟨⟨b₁, st₁⟩, hstep, h⟩ := bind_ok h
  simp only [Except.ok.injEq, Prod.mk.injEq] at h
  obtain ⟨rfl, rfl, rfl⟩ := h
  exact ⟨hn, hstep⟩

theorem forwarded_read_never_answered_asked : ∃ n b' st, forwardedRound false = .ok (n, b', st) ∧
    n.raft.state = .leader ∧ n.raft.AnswersForwarded forwardedRead ∧ ¬ n.raft.AnswersRequester b' forwardedRead := by
  obtain ⟨⟨n, b', st⟩, hrun, hcheck⟩ : ∃ p, forwardedRound false = .ok p ∧
      decide (p.1.raft.state = .leader ∧ p.1.raft.AnswersForwarded forwardedRead ∧ 2 ≠ p.1.raft.id) = true :=
    exists_ok_of_any (by decide +kernel)
  obtain ⟨hlead, hat, hother⟩ := of_decide_eq_true hcheck
  refine ⟨n, b', st, hrun, hlead, hat, fun hright => ?_⟩
  exact forwarded_read_never_answered hlead rfl ⟨by decide, hother⟩ hat
    ⟨b', st, (forwardedRound_spec hrun).2, hright⟩

theorem forwardedRound_loses (alone : Bool) : ∃ (n : RawNode) (b' : Raft) (st : Status),
    readLeader alone = .ok n ∧ n.raft.state = .leader ∧ n.raft.AnswersForwarded forwardedRead ∧
      n.raft.step forwardedRead = .ok (b', st) ∧
      b'.readStates.map ReadState.requestCtx = (if alone then [[7]] else []) ∧
      (b'.msgs.drop n.raft.msgs.length).map Message.to_ = if alone then [] else [0] := by
  obtain ⟨⟨n, b', st⟩, hrun, hcheck⟩ : ∃ p, forwardedRound alone = .ok p ∧
      decide (p.1.raft.state = .leader ∧ p.1.raft.AnswersForwarded forwardedRead ∧
        p.2.1.readStates.map ReadState.requestCtx = (if alone then [[7]] else []) ∧
        (p.2.1.msgs.drop p.1.raft.msgs.length).map Message.to_ = if alone then [] else [0]) = true := by
    cases alone <;> exact exists_ok_of_any (by decide +kernel)
  obtain ⟨hn, hstep⟩ := forwardedRound_spec hrun
  obtain ⟨hlead, hat, hreads, hsent⟩ := of_decide_eq_true hcheck
  exact ⟨n, b', st, hn, hlead, hat, hstep, hreads, hsent⟩

/-- The only voter keeps the answer to a learner's request; the answer of a lease holder goes to no one. -/
theorem forwarded_read_misrouted :
    (∃ n b' st, readLeader true = .ok n ∧ n.raft.state = .leader ∧ n.raft.AnswersForwarded forwardedRead ∧
      n.raft.step forwardedRead = .ok (b', st) ∧ b'.readStates.map ReadState.requestCtx = [[7]] ∧
      ¬ n.raft.AnswersRequester b' forwardedRead) ∧
    ∃ n b' st, readLeader false = .ok n ∧ n.raft.state = .leader ∧ n.raft.AnswersForwarded forwardedRead ∧
      n.raft.step forwardedRead = .ok (b', st) ∧ (b'.msgs.drop n.raft.msgs.length).map Message.to_ = [0] ∧
      ¬ n.raft.AnswersRequester b' forwardedRead := by
  constructor
  · obtain ⟨n, b', st, hn, hlead, hat, hstep, hreads, hsent⟩ := forwardedRound_loses true
    refine ⟨n, b', st, hn, hlead, hat, hstep, hreads, ?_⟩
    rintro ⟨⟨m, hmsgs, -⟩, -⟩
    rw [hmsgs, List.drop_left] at hsent
    cases hsent
  · obtain ⟨n, b', st, hn, hlead, hat, hstep, -, hsent⟩ := forwardedRound_loses false
    refine ⟨n, b', st, hn, hlead, hat, hstep, hsent, ?_⟩
    rintro ⟨⟨m, hmsgs, -, hto, -⟩, -⟩
    rw [hmsgs, List.drop_left, List.map_singleton, hto] at hsent
    cases hsent

end RaftEtcd
