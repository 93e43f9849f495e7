import RaftEtcd.Forwarding
import RaftEtcd.PendingConf
import RaftEtcd.QuorumCommit

/-! What a dropped proposal leaves behind. The loop over the configuration changes of a proposal comes before
the check of its size, so a proposal that is too large can have moved the pending index already. -/
namespace RaftEtcd
variable {r r' : Raft} {msg : Message} {es : List Entry}

/-- The term, the log, the commit index, the uncommitted size, the pending index, the progress of every peer
and the messages are the same. -/
structure Raft.Untouched (r r' : Raft) : Prop where
  term : r'.term = r.term
  raftLog : r'.raftLog = r.raftLog
  committed : r'.raftLog.committed = r.raftLog.committed
  uncommittedSize : r'.uncommittedSize = r.uncommittedSize
  pendingConfIndex : r'.pendingConfIndex = r.pendingConfIndex
  progress : ∀ id, r'.getProgress id = r.getProgress id
  msgs : r'.msgs = r.msgs

/-- The entries, with the changes that are refused emptied, go beyond the limit of the uncommitted log. -/
def Raft.TooLarge (r : Raft) (es : List Entry) : Prop :=
  r.uncommittedSize > 0 ∧ r.uncommittedSize + payloadSum (r.filterConfChanges 0 es).2 > r.maxUncommittedSize

instance (r : Raft) (es : List Entry) : Decidable (r.TooLarge es) := inferInstanceAs (Decidable (_ ∧ _))

/-- No change is pending, and the last change of the entries would stand at another index than the one that
is remembered. -/
def Raft.Remarks (r : Raft) (es : List Entry) : Prop :=
  r.pendingConfIndex ≤ r.raftLog.applied ∧ ∃ before e after, es = before ++ e :: after ∧
    e.type = entryConfChange ∧ (∀ e' ∈ after, e'.type ≠ entryConfChange) ∧
    r.raftLog.lastIndex + before.length + 1 ≠ r.pendingConfIndex

section Loop

theorem filterConfChanges_blocked (h : r.raftLog.applied < r.pendingConfIndex) (i : Nat) (es : List Entry) :
    (r.filterConfChanges i es).1 = r := by
  induction es generalizing i with
  | nil => rfl
  | cons e es ih =>
      unfold Raft.filterConfChanges
      simp only [if_pos h, ih]
      split
      · rfl
      · rfl

theorem filterConfChanges_plain (h : ∀ e ∈ es, e.type ≠ entryConfChange) (i : Nat) :
    (r.filterConfChanges i es).1 = r := by
  induction es generalizing i with
  | nil => rfl
  | cons e es ih =>
      unfold Raft.filterConfChanges
      rw [if_neg (h e (List.mem_cons_self ..))]
      exact ih (fun e' he' => h e' (List.mem_cons_of_mem _ he')) (i + 1)

/-- The pending index ends at the last change, or at one before it that is not applied yet. -/
theorem filterConfChanges_last (before : List Entry) {after : List Entry} {e : Entry}
    (h : r.pendingConfIndex ≤ r.raftLog.applied) (hty : e.type = entryConfChange)
    (hafter : ∀ e' ∈ after, e'.type ≠ entryConfChange) (i : Nat) :
    (r.filterConfChanges i (before ++ e :: after)).1.pendingConfIndex = r.raftLog.lastIndex + i + before.length + 1 ∨
      r.raftLog.applied < (r.filterConfChanges i (before ++ e :: after)).1.pendingConfIndex ∧
        r.raftLog.applied < r.raftLog.lastIndex + i + before.length + 1 := by
  induction before generalizing r i with
  | nil =>
      left
      rw [List.nil_append]
      unfold Raft.filterConfChanges
      rw [if_pos hty, if_neg (by omega)]
      simp only [filterConfChanges_plain hafter]
      rfl
  | cons e₀ before ih =>
      rw [List.cons_append, List.length_cons]
      unfold Raft.filterConfChanges
      split
      · rw [if_neg (by omega)]
        by_cases hle : r.raftLog.lastIndex + i + 1 ≤ r.raftLog.applied
        · have hrest := ih (r := { r with pendingConfIndex := r.raftLog.lastIndex + i + 1 }) hle (i + 1)
          simp only at hrest ⊢
          omega
        · -- this change is not applied, so those after it are refused
          right
          have hblocked := filterConfChanges_blocked
            (r := { r with pendingConfIndex := r.raftLog.lastIndex + i + 1 }) (Nat.lt_of_not_le hle) (i + 1)
            (before ++ e :: after)
          simp only [hblocked]
          omega
      · have hrest := ih h (i + 1)
        simp only at hrest ⊢
        omega

theorem exists_last_change (h : ∃ e ∈ es, e.type = entryConfChange) : ∃ before e after, es = before ++ e :: after ∧
    e.type = entryConfChange ∧ ∀ e' ∈ after, e'.type ≠ entryConfChange := by
  induction es with
  | nil => simp at h
  | cons e es ih =>
      by_cases hrest : ∃ e ∈ es, e.type = entryConfChange
      · obtain ⟨before, e', after, rfl, hty, hafter⟩ := ih hrest
        exact ⟨e :: before, e', after, rfl, hty, hafter⟩
      · push Not at hrest
        obtain ⟨e', he', hty⟩ := h
        rcases List.mem_cons.mp he' with rfl | he'
        · exact ⟨[], e', es, rfl, hty, hrest⟩
        · exact absurd hty (hrest e' he')

/-- The loop moves the pending index exactly when the proposal remarks it. -/
theorem filterConfChanges_pending_iff :
    (r.filterConfChanges 0 es).1.pendingConfIndex ≠ r.pendingConfIndex ↔ r.Remarks es := by
  constructor
  · intro hmoved
    have hle : r.pendingConfIndex ≤ r.raftLog.applied := by
      by_contra hlt
      rw [filterConfChanges_blocked (Nat.lt_of_not_le hlt)] at hmoved
      exact hmoved rfl
    have hsome : ∃ e ∈ es, e.type = entryConfChange := by
      by_contra hnone
      push Not at hnone
      rw [filterConfChanges_plain hnone] at hmoved
      exact hmoved rfl
    obtain ⟨before, e, after, rfl, hty, hafter⟩ := exists_last_change hsome
    refine ⟨hle, before, e, after, rfl, hty, hafter, fun heq => ?_⟩
    rcases filterConfChanges_last before hle hty hafter 0 with hend | ⟨-, hlt⟩
    · omega
    · omega
  · rintro ⟨hle, before, e, after, rfl, hty, hafter, hne⟩
    rcases filterConfChanges_last before hle hty hafter 0 with hend | ⟨hlt, -⟩
    · omega
    · omega

/-- In a log that is applied no further than it reaches, any change moves the pending index. -/
theorem remarks_iff (h : r.raftLog.applied ≤ r.raftLog.lastIndex) :
    r.Remarks es ↔ r.pendingConfIndex ≤ r.raftLog.applied ∧ ∃ e ∈ es, e.type = entryConfChange := by
  constructor
  · rintro ⟨hle, before, e, after, rfl, hty, -⟩
    exact ⟨hle, e, List.mem_append_right _ (List.mem_cons_self ..), hty⟩
  · rintro ⟨hle, hsome⟩
    obtain ⟨before, e, after, rfl, hty, hafter⟩ := exists_last_change hsome
    exact ⟨hle, before, e, after, rfl, hty, hafter, by omega⟩

end Loop

section Sizes

/-- Stamping leaves the payload as it is. -/
theorem payloadSum_stampEntries (t i : Nat) (es : List Entry) : payloadSum (Raft.stampEntries t i es) = payloadSum es := by
  suffices h : ∀ s, (Raft.stampEntries t i es).foldl (fun s e => (s + e.payloadSize) % 2 ^ 32) s =
      es.foldl (fun s e => (s + e.payloadSize) % 2 ^ 32) s from h 0
  induction es generalizing i with
  | nil => exact fun _ => rfl
  | cons e es ih => exact fun s => ih (i + 1) _

/-- `append_entry` refuses what goes beyond the limit, without touching anything, and nothing else. -/
theorem appendEntry_refuses_iff :
    r.appendEntry es = .ok (r', false) ↔
      r' = r ∧ r.uncommittedSize > 0 ∧ r.uncommittedSize + payloadSum es > r.maxUncommittedSize := by
  unfold Raft.appendEntry Raft.increaseUncommittedSize
  simp only [payloadSum_stampEntries]
  constructor
  · intro h
    by_cases hlimit : r.uncommittedSize > 0 ∧ r.uncommittedSize + payloadSum es > r.maxUncommittedSize
    · rw [if_pos hlimit] at h
      exact ⟨(Prod.mk.inj (Except.ok.inj h)).1.symm, hlimit⟩
    · -- what is taken is reported as taken
      rw [if_neg hlimit] at h
      obtain ⟨log, -, h⟩ := bind_ok h
      simp only at h
      split at h
      · cases h
      · obtain ⟨⟨r₁, changed⟩, -, h⟩ := bind_ok h
        cases (Prod.mk.inj (Except.ok.inj h)).2
  · rintro ⟨rfl, hlimit⟩
    rw [if_pos hlimit]

/-- The size is looked at after the loop over the changes. -/
theorem tooLarge_iff_refused : r.TooLarge es ↔ (r.filterConfChanges 0 es).1.appendEntry (r.filterConfChanges 0 es).2 =
    .ok ((r.filterConfChanges 0 es).1, false) := by
  obtain ⟨p, hframe⟩ := filterConfChanges_frame r 0 es
  rw [appendEntry_refuses_iff, Raft.TooLarge, hframe]
  exact ⟨fun h => ⟨rfl, h⟩, And.right⟩

/-- A leader drops a proposal without a progress of its own, during a transfer, or for its size. -/
theorem leaderProp_dropped {st : Status} (h : r.leaderProp msg = .ok (r', st)) (hst : st ≠ .ok) :
    r' = r ∨ (r.prs.lookup r.id).isSome ∧ r.leadTransferee = 0 ∧ r.TooLarge msg.entries ∧
      r' = (r.filterConfChanges 0 msg.entries).1 := by
  cases leaderProp_proposes h with
  | refuses why status same => exact Or.inl same
  | takes nonempty r₁ append cast status => exact absurd status hst
  | drops member settled append status =>
      obtain ⟨hsame, -⟩ := appendEntry_refuses_iff.mp append
      refine Or.inr ⟨member, settled, ?_, hsame⟩
      rw [tooLarge_iff_refused]
      rw [hsame] at append
      exact append

/-- A proposal that is too large is dropped with the pending index that the loop has left. -/
theorem leaderProp_refused (hne : msg.entries ≠ []) (hsome : (r.prs.lookup r.id).isSome) (htransfer : r.leadTransferee = 0)
    (hlarge : r.TooLarge msg.entries) : r.leaderProp msg =
      .ok ((r.filterConfChanges 0 msg.entries).1, .invalidArgument "raft proposal dropped") := by
  unfold Raft.leaderProp
  rw [if_neg hne, if_neg (by simp [Option.isNone_iff_eq_none, Option.isSome_iff_ne_none.mp hsome]),
    if_neg (not_not_intro htransfer)]
  simp only [tooLarge_iff_refused.mp hlarge]
  rfl

end Sizes

/-- A proposal that is dropped leaves the leader as it was, for every proposal, exactly when it carries no higher
term and is not one that is too large and has moved the pending index before that was seen. -/
theorem dropped_proposal_untouched_iff (hl : r.state = .leader) (hty : msg.type = .msgProp) (hne : msg.entries ≠ []) :
    (∀ r' st, r.step msg = .ok (r', st) → st ≠ .ok → r.Untouched r') ↔
      msg.term ≤ r.term ∧ ((msg.term = 0 ∨ msg.term = r.term) → (r.prs.lookup r.id).isSome → r.leadTransferee = 0 →
        r.TooLarge msg.entries → ¬ r.Remarks msg.entries) := by
  rcases Nat.lt_or_ge r.term msg.term with hhigher | hle
  · -- the leader steps down, and without a leader the proposal is dropped
    have hstep : r.step msg = .ok (r.becomeFollower msg.term 0, .invalidArgument "raft proposal dropped") := by
      unfold Raft.step
      rw [if_neg (by omega), if_pos hhigher, if_neg (by rw [hty]; simp)]
      simp only [Raft.higherTerm, hty]
      have hfollower : (r.becomeFollower msg.term 0).state = .follower := rfl
      have hlead : (r.becomeFollower msg.term 0).lead = 0 := rfl
      unfold Raft.stepBody
      simp only [hty, hfollower, Raft.stepFollower, hlead, if_true]
    constructor
    · intro h
      have hterm := (h _ _ hstep fun heq => by cases heq).term
      rw [show (r.becomeFollower msg.term 0).term = msg.term from Raft.reset_term r msg.term] at hterm
      omega
    · intro h
      exact absurd h.1 (by omega)
  by_cases hlower : msg.term ≠ 0 ∧ msg.term < r.term
  · have hok : ∀ r' st, r.step msg = .ok (r', st) → st = .ok := by
      intro r' st h
      unfold Raft.step at h
      rw [if_neg hlower.1, if_neg (by omega), if_pos hlower.2] at h
      obtain ⟨r₁, -, h⟩ := bind_ok h
      exact (Prod.mk.inj (Except.ok.inj h)).2.symm
    constructor
    · exact fun _ => ⟨hle, fun h => by omega⟩
    · exact fun _ r' st h hst => absurd (hok r' st h) hst
  have hterm : msg.term = 0 ∨ msg.term = r.term := by omega
  have hstep : r.step msg = r.leaderProp msg := step_leader_prop hl hty hterm
  obtain ⟨p, hframe⟩ := filterConfChanges_frame r 0 msg.entries
  have hpending : (r.filterConfChanges 0 msg.entries).1.pendingConfIndex ≠ r.pendingConfIndex ↔ r.Remarks msg.entries :=
    filterConfChanges_pending_iff
  rw [hstep]
  constructor
  · intro h
    refine ⟨hle, fun _ hsome htransfer hlarge hremarks => ?_⟩
    have hdropped := leaderProp_refused hne hsome htransfer hlarge
    exact hpending.mpr hremarks (h _ _ hdropped fun heq => by cases heq).pendingConfIndex
  · intro h r' st hprop hst
    rcases leaderProp_dropped hprop hst with rfl | ⟨hsome, htransfer, hlarge, rfl⟩
    · exact ⟨rfl, rfl, rfl, rfl, rfl, fun _ => rfl, rfl⟩
    · have hsame := not_not.mp (mt hpending.mp (h.2 hterm hsome htransfer hlarge))
      rw [hframe] at hsame ⊢
      exact ⟨rfl, rfl, rfl, rfl, hsame, fun _ => rfl, rfl⟩

/-- A leader with five bytes of eight in its uncommitted log. -/
def fillingLeader : Raft := { splitLeader with uncommittedSize := 5, maxUncommittedSize := 8 }

theorem dropped_proposal_untouched_iff_normal :
    let msg : Message := { type := .msgProp, from_ := 1, entries := [{ data := [1, 2, 3, 4] }] }
    fillingLeader.TooLarge msg.entries ∧
      ∀ r' st, fillingLeader.step msg = .ok (r', st) → st ≠ .ok → fillingLeader.Untouched r' := by
  intro msg
  refine ⟨by decide, (dropped_proposal_untouched_iff rfl rfl (List.cons_ne_nil _ _)).mpr ⟨by decide, ?_⟩⟩
  intro _ _ _ _
  rw [remarks_iff (by decide)]
  rintro ⟨-, e, he, hty⟩
  rw [List.mem_singleton.mp he] at hty
  exact absurd hty (by decide)

/-- A change of the configuration that is dropped for its size is remembered as pending, so the next one, which
would fit, is emptied. -/
theorem dropped_change_stays_pending :
    let change : Entry := { type := entryConfChange, data := [1, 2, 3, 4] }
    let next : Entry := { type := entryConfChange, data := [1] }
    ∃ r' st, fillingLeader.step { type := .msgProp, from_ := 1, entries := [change] } = .ok (r', st) ∧ st ≠ .ok ∧
      ¬ fillingLeader.Untouched r' ∧ r'.pendingConfIndex = 4 ∧ (r'.filterConfChanges 0 [next]).2 = [{}] := by
  intro change next
  refine ⟨{ fillingLeader with pendingConfIndex := 4 }, .invalidArgument "raft proposal dropped", ?_, nofun, ?_, rfl, by decide⟩
  · rw [step_leader_prop rfl rfl (Or.inl rfl)]
    exact leaderProp_refused (List.cons_ne_nil _ _) (by decide) rfl (by decide)
  · intro h
    exact absurd h.pendingConfIndex (by decide)

end RaftEtcd
