import RaftEtcd.Members

/-! `CheckQuorum`: whom a leader counts when it looks after its quorum. The flags of the peers are
set when they answer and when they are added, and `check_quorum_active` leaves them as they are. -/
namespace RaftEtcd
variable {r r' r'' : Raft} {msg : Message} {n n₀ n₁ n₂ n₃ n₄ n' n'' : RawNode} {a : NodeAction} {as : List NodeAction}

/-- The next tick of the node steps `MsgCheckQuorum`. -/
def RawNode.checksQuorum (n : RawNode) : Bool :=
  decide (n.raft.state = .leader ∧ n.raft.electionTimeout ≤ (n.raft.electionElapsed + 1) % 2 ^ 32) && n.raft.checkQuorum

/-- Neither a check nor a new member comes with the operation, and the node leads its term after it. -/
def RawNode.leadsOn (n : RawNode) (a : NodeAction) (n' : RawNode) : Bool :=
  decide (n'.raft.state = .leader ∧ n'.raft.term = n.raft.term) &&
    match a with
    | .tick => !n.checksQuorum
    | .applyConfChange _ => n'.raft.prs.keys.all (· ∈ n.raft.prs.keys) && n'.raft.learnerPrs.keys.all (· ∈ n.raft.learnerPrs.keys)
    | _ => true

/-- The operations between two checks of a leader, if that is what they are. -/
def RawNode.leadOn (n : RawNode) : List NodeAction → Option RawNode
  | [] => some n
  | a :: as =>
      match n.run a with
      | .error _ => none
      | .ok n' => if n.leadsOn a n' then n'.leadOn as else none

/-- The peer whose answer is stepped, whatever comes of it. -/
def NodeAction.answerOf : NodeAction → Option Nat
  | .step msg => msg.heard
  | _ => none

/-- The peer whose answer a leader of the term takes note of. -/
def NodeAction.heardIn (term : Nat) : NodeAction → Option Nat
  | .step msg => if msg.term ≠ 0 ∧ msg.term < term then none else msg.heard
  | _ => none

/-- The voter was marked as active. -/
def Raft.activeVoter (r : Raft) (id : Nat) : Bool := (r.prs.lookup id).any Progress.recentActive

section Steps

theorem message_hears (h : a.message n = some msg) : a.heardIn n.raft.term = n.raft.hears msg := by
  rcases message_cases h with ⟨rfl, -⟩ | ⟨hne, hown, -⟩
  · rfl
  · have hnone : a.heardIn n.raft.term = none := by
      cases a with
      | step m => exact absurd rfl (hne m)
      | _ => rfl
    have hother : ∀ ty : MessageType, ty.isOwn = false → msg.type ≠ ty := by
      rintro ty hty rfl
      cases hty.symm.trans hown
    rw [hnone]
    exact (heard_none (hother _ rfl) (hother _ rfl)).symm

/-- An answer that is refused comes from no member. -/
theorem refused_stranger (h : a.message n = none) {t id : Nat} (hheard : a.heardIn t = some id) :
    id ∉ n.raft.prs.keys := by
  cases a with
  | step m =>
      simp only [NodeAction.heardIn, Message.heard] at hheard
      split at hheard
      · cases hheard
      split at hheard
      · rename_i hty
        obtain rfl := Option.some.inj hheard
        have hlocal : m.isLocalMsg = false := by rcases hty with hty | hty <;> simp [Message.isLocalMsg, hty]
        have hresp : m.isResponseMsg = true := by rcases hty with hty | hty <;> simp [Message.isResponseMsg, hty]
        simp only [NodeAction.message, hlocal, hresp, Bool.not_true, Bool.or_false, Bool.false_eq_true, if_false] at h
        split at h
        · cases h
        · rename_i hnone
          exact (getProgress_none (Option.not_isSome_iff_eq_none.mp hnone)).1
      · cases hheard
  | _ => cases hheard

/-- The voters after an operation were voters before, and carry the flag they had or were heard from. -/
structure Heeds (x : Option Nat) (r r' : Raft) : Prop where
  id : r'.id = r.id
  voters : ∀ id p', r'.prs.lookup id = some p' →
    ∃ p, r.prs.lookup id = some p ∧ p'.recentActive = (p.recentActive || decide (x = some id))

theorem Marks.heeds {x : Option Nat} (hid : r'.id = r.id) (h : Marks x r.prs r'.prs) : Heeds x r r' where
  id := hid
  voters id p' hp' := by
    have hflags := h.flags id
    rw [hp'] at hflags
    obtain ⟨p, hp, heq⟩ := Option.map_eq_some_iff.mp hflags.symm
    exact ⟨p, hp, (Prod.mk.inj heq).1.symm⟩

theorem Heeds.of_same (hid : r'.id = r.id) (hprs : r'.prs = r.prs) : Heeds none r r' where
  id := hid
  voters id p' hp' := by
    rw [hprs] at hp'
    exact ⟨p', hp', by simp⟩

theorem Heeds.trans {x : Option Nat} (h : Heeds none r r') (h' : Heeds x r' r'') : Heeds x r r'' where
  id := h'.id.trans h.id
  voters id p'' hp'' := by
    obtain ⟨p', hp', hactive'⟩ := h'.voters id p'' hp''
    obtain ⟨p, hp, hactive⟩ := h.voters id p' hp'
    exact ⟨p, hp, by rw [hactive', hactive]; simp⟩

/-- Time passes for a leader: it looks after its quorum and beats. -/
theorem leader_tick (hl : r.state = .leader) (h : r.tick = .ok r') :
    r'.state ≠ .leader ∨ r'.term = r.term ∧ Heeds none r r' := by
  cases tick_ticks h with
  | waits timed =>
      obtain ⟨_, _, _, rfl⟩ := timed
      exact Or.inr ⟨rfl, .of_same rfl rfl⟩
  | stands r₁ timed role promotable st step => exact absurd hl role
  | beats r₁ r₂ r₃ role timed check timed' beat =>
      have hcheck : r₂.state ≠ .leader ∨ r₂.term = r.term ∧ Heeds none r r₂ := by
        obtain ⟨_, _, _, rfl⟩ := timed
        rcases check with rfl | ⟨st, hstep⟩
        · exact Or.inr ⟨rfl, .of_same rfl rfl⟩
        have hstep := leader_step (by exact hl) hstep
        rw [heard_none (by simp) (by simp)] at hstep
        rcases hstep with ⟨hzero, -⟩ | hlost | ⟨hid, hterm, hmarks⟩
        · exact absurd hzero (Nat.not_lt_zero _)
        · exact Or.inl hlost
        · exact Or.inr ⟨hterm, hid, (hmarks.heeds hid).voters⟩
      obtain ⟨_, _, _, rfl⟩ := timed'
      rcases beat with rfl | ⟨hl₃, st, hstep⟩
      · exact hcheck.imp_right fun h => ⟨h.1, h.2.id, h.2.voters⟩
      have hbeat := leader_step hl₃ hstep
      rw [heard_none (by simp) (by simp)] at hbeat
      rcases hbeat with ⟨hzero, -⟩ | hlost | ⟨hid, hterm, hmarks⟩
      · exact absurd hzero (Nat.not_lt_zero _)
      · exact Or.inl hlost
      · rcases hcheck with hlost | ⟨hterm', hheeds⟩
        · exact absurd hl₃ hlost
        · exact Or.inr ⟨hterm.trans hterm', hheeds.trans (hmarks.heeds hid)⟩

/-- A change of the configuration that adds no member. -/
theorem Configures.heeds {cc : ConfChange} (h : Configures cc r r') (hr : r.Configured)
    (hvoters : ∀ id ∈ r'.prs.keys, id ∈ r.prs.keys) (hlearners : ∀ id ∈ r'.learnerPrs.keys, id ∈ r.learnerPrs.keys) :
    Heeds none r r' := by
  cases h with
  | ignores change same =>
      rw [same]
      exact .of_same rfl rfl
  | adds node type add =>
      obtain ⟨-, rfl⟩ | ⟨hnew, p, -, -, rfl⟩ := addVoter_cases hr add
      · exact .of_same rfl rfl
      · refine absurd (hvoters cc.nodeId ?_) hnew
        rw [(markActive_members _ _).voters.keys, Raft.withVoter, AList.keys_insert]
        exact List.mem_cons_self ..
  | addsLearner node type add =>
      obtain ⟨-, rfl⟩ | ⟨-, hnew, p, -, -, -, rfl⟩ := addLearner_cases hr add
      · exact .of_same rfl rfl
      · refine absurd (hlearners cc.nodeId ?_) hnew
        rw [(markActive_members _ _).learners.keys, Raft.withLearner, AList.keys_insert]
        exact List.mem_cons_self ..
  | removes node type remove =>
      have hdel : Heeds none r (r.delProgress cc.nodeId) := by
        refine ⟨rfl, fun id p' hp' => ⟨p', ?_, by simp⟩⟩
        by_cases hid : id = cc.nodeId
        · subst hid
          rw [Raft.delProgress, AList.lookup_erase] at hp'
          cases hp'
        · rwa [Raft.delProgress, AList.lookup_erase_ne hid] at hp'
      obtain heq | ⟨r₁, changed, r₂, hcommit, hsend, _, _, _, heq⟩ := removeNode_cases remove
      · rwa [heq]
      obtain ⟨c, rfl⟩ := maybeCommit_frame hcommit
      have hsent : Heeds none (r.delProgress cc.nodeId) r₂ := by
        rcases hsend with ⟨-, rfl⟩ | ⟨-, hsend⟩
        · exact .of_same rfl rfl
        · have hposts := bcastAppend_posts hsend
          exact ⟨(SameMembers.of_posts hposts).id, (hposts.voters.marks.heeds (SameMembers.of_posts hposts).id).voters⟩
      rw [heq]
      exact (hdel.trans hsent).trans (.of_same rfl rfl)

/-- What an operation between two checks leaves of the flags. -/
theorem leadsOn_heeds (hr : n.raft.Configured) (hl : n.raft.state = .leader) (h : n.run a = .ok n')
    (hon : n.leadsOn a n' = true) : Heeds (a.heardIn n.raft.term) n.raft n'.raft := by
  obtain ⟨hlead, hbetween⟩ := Bool.and_eq_true_iff.mp hon
  obtain ⟨hl', hterm⟩ := of_decide_eq_true hlead
  cases run_operates h with
  | refuses message same =>
      rw [same]
      refine ⟨rfl, fun id p hp => ⟨p, hp, ?_⟩⟩
      have hmem : id ∈ n.raft.prs.keys := by
        rw [← AssocMap.lookup_isSome_iff, hp]
        rfl
      have hne : a.heardIn n.raft.term ≠ some id := fun hheard => refused_stranger message hheard hmem
      simp [hne]
  | steps msg message r' st step node =>
      rw [message_hears message]
      rw [node] at hl' hterm ⊢
      rcases leader_step hl step with ⟨-, hup⟩ | hlost | ⟨hid, -, hmarks⟩
      · exact absurd hterm hup.ne'
      · exact absurd hl' hlost
      · exact hmarks.heeds hid
  | ticks action r' tick node =>
      subst action
      rw [node] at hl' hterm ⊢
      rcases leader_tick hl tick with hlost | ⟨-, hheeds⟩
      · exact absurd hl' hlost
      · exact hheeds
  | configures cc action cs apply =>
      subst action
      simp only [Bool.and_eq_true, List.all_eq_true, decide_eq_true_eq] at hbetween
      exact (applyConfChange_configures apply).1.heeds hr hbetween.1 hbetween.2
  | readies action rd ready =>
      subst action
      rw [ready_frame ready]
      exact .of_same rfl rfl
  | advances rd action node =>
      subst action
      rw [node]
      exact .of_same rfl rfl
  | stores storage action node =>
      subst action
      rw [node]
      exact .of_same rfl rfl

end Steps

section Checks

/-- The peers whose answers a leader of the term takes note of. -/
def heardSince (term : Nat) (as : List NodeAction) : List Nat := as.filterMap (NodeAction.heardIn term)

/-- The voters after operations between two checks, with the flags they had or got since. -/
theorem leadOn_heeds (hr : n.raft.Configured) (hl : n.raft.state = .leader) (h : n.leadOn as = some n') :
    n'.raft.Configured ∧ n'.raft.id = n.raft.id ∧ ∀ id p', n'.raft.prs.lookup id = some p' →
      ∃ p, n.raft.prs.lookup id = some p ∧
        p'.recentActive = (p.recentActive || decide (id ∈ heardSince n.raft.term as)) := by
  induction as generalizing n with
  | nil =>
      obtain rfl := Option.some.inj h
      exact ⟨hr, rfl, fun id p hp => ⟨p, hp, by simp [heardSince]⟩⟩
  | cons a as ih =>
      rw [RawNode.leadOn] at h
      split at h
      · cases h
      rename_i n₁ hrun
      split at h
      · rename_i hon
        have hheeds := leadsOn_heeds hr hl hrun hon
        obtain ⟨hl₁, hterm⟩ := of_decide_eq_true (Bool.and_eq_true_iff.mp hon).1
        obtain ⟨hr', hid, hrest⟩ := ih (run_configured hr hrun) hl₁ h
        refine ⟨hr', hid.trans hheeds.id, fun id p' hp' => ?_⟩
        obtain ⟨p₁, hp₁, hactive'⟩ := hrest id p' hp'
        obtain ⟨p, hp, hactive⟩ := hheeds.voters id p₁ hp₁
        refine ⟨p, hp, ?_⟩
        rw [hactive', hactive, hterm, Bool.or_assoc]
        congr 1
        rw [heardSince, heardSince, List.filterMap_cons]
        cases a.heardIn n.raft.term with
        | none => simp
        | some k => simp [eq_comm, Bool.decide_or]
      · cases h

/-- Whom `check_quorum_active` counts. -/
def Raft.counted (r : Raft) : Finset Nat :=
  r.progressIds.toFinset.filter fun id => id = r.id ∨ r.activeVoter id = true

theorem checkQuorumActive_iff (hr : r.Configured) : r.checkQuorumActive = true ↔ r.quorum ≤ r.counted.card := by
  unfold Raft.checkQuorumActive
  rw [decide_eq_true_eq, ge_iff_le]
  generalize hL : ((r.prs.entries ++ r.learnerPrs.entries).filter fun s =>
    s.1 = r.id ∨ (s.2.recentActive ∧ !s.2.isLearner)) = L
  have hnodup : (L.map Sigma.fst).Nodup := by
    have hkeys : (r.prs.keys ++ r.learnerPrs.keys).Nodup :=
      List.nodup_append.mpr ⟨r.prs.keys_nodup, r.learnerPrs.keys_nodup, fun k hk k' hk' heq =>
        hr.disjoint k hk (heq ▸ hk')⟩
    refine List.Nodup.sublist ?_ hkeys
    change List.Sublist _ (r.prs.entries.map Sigma.fst ++ r.learnerPrs.entries.map Sigma.fst)
    rw [← hL, ← List.map_append]
    exact List.filter_sublist.map _
  have hset : (L.map Sigma.fst).toFinset = r.counted := by
    ext k
    have hvoter : ∀ p, ⟨k, p⟩ ∈ r.prs.entries ↔ r.prs.lookup k = some p := fun p => AList.mem_lookup_iff.symm
    have hlearner : ∀ p, ⟨k, p⟩ ∈ r.learnerPrs.entries ↔ r.learnerPrs.lookup k = some p := fun p =>
      AList.mem_lookup_iff.symm
    rw [← hL, List.mem_toFinset, List.mem_map, Raft.counted, Finset.mem_filter, List.mem_toFinset, Raft.progressIds,
      List.mem_append]
    constructor
    · rintro ⟨⟨k', p⟩, hmem, rfl⟩
      obtain ⟨hmem, hcount⟩ := List.mem_filter.mp hmem
      have hcount : k' = r.id ∨ p.recentActive = true ∧ (!p.isLearner) = true := of_decide_eq_true hcount
      rcases List.mem_append.mp hmem with hmem | hmem
      · have hp := (hvoter p).mp hmem
        refine ⟨Or.inl ?_, hcount.imp_right fun hactive => ?_⟩
        · rw [← AssocMap.lookup_isSome_iff, hp]
          rfl
        · rw [Raft.activeVoter, hp]
          exact hactive.1
      · have hp := (hlearner p).mp hmem
        refine ⟨Or.inr ?_, hcount.imp_right fun hactive => ?_⟩
        · rw [← AssocMap.lookup_isSome_iff, hp]
          rfl
        · rw [hr.learners k' p hp] at hactive
          cases hactive.2
    · rintro ⟨hmem, hcount⟩
      rcases hmem with hmem | hmem
      · obtain ⟨p, hp⟩ := Option.isSome_iff_exists.mp ((AssocMap.lookup_isSome_iff _ _).mpr hmem)
        refine ⟨⟨k, p⟩, List.mem_filter.mpr ⟨List.mem_append_left _ ((hvoter p).mpr hp), decide_eq_true ?_⟩, rfl⟩
        refine hcount.imp_right fun hactive => ⟨?_, by rw [hr.voters k p hp]; rfl⟩
        rwa [Raft.activeVoter, hp] at hactive
      · obtain ⟨p, hp⟩ := Option.isSome_iff_exists.mp ((AssocMap.lookup_isSome_iff _ _).mpr hmem)
        refine ⟨⟨k, p⟩, List.mem_filter.mpr ⟨List.mem_append_right _ ((hlearner p).mpr hp), decide_eq_true ?_⟩, rfl⟩
        refine hcount.imp_right fun hactive => ?_
        have hnone : r.prs.lookup k = none := by
          rw [← Option.not_isSome_iff_eq_none, AssocMap.lookup_isSome_iff]
          exact fun hvoter => hr.disjoint k hvoter hmem
        rw [Raft.activeVoter, hnone] at hactive
        cases hactive
  rw [← List.length_map (f := Sigma.fst), ← List.toFinset_card_of_nodup hnodup, hset]

theorem step_check (hl : r.state = .leader) (from_ : Nat) : r.step { from_ := from_, type := .msgCheckQuorum } =
    .ok (if !r.checkQuorumActive then r.becomeFollower r.term 0 else r, .ok) := by
  simp only [Raft.step, Raft.stepBody, hl, Raft.stepLeader, if_true]

theorem step_beat (hl : r.state = .leader) {from_ : Nat} {st : Status}
    (h : r.step { from_ := from_, type := .msgBeat } = .ok (r', st)) : Posts r r' := by
  simp only [Raft.step, Raft.stepBody, hl, Raft.stepLeader, if_true] at h
  exact bcastHeartbeatWithCtx_posts (withOk_ok h)

theorem tickCheckQuorum_survives (hl : r.state = .leader) (hon : r.checkQuorum = true) (h : r.tickCheckQuorum = .ok r') :
    r'.state = .leader ↔ r.checkQuorumActive = true := by
  unfold Raft.tickCheckQuorum at h
  simp only [if_pos hon] at h
  obtain ⟨r₁, h₁, h⟩ := bind_ok h
  have hstate : r'.state = r₁.state := by
    rw [← Except.ok.inj h]
    split <;> rfl
  rw [step_check (show Raft.state { r with electionElapsed := 0 } = .leader from hl)] at h₁
  rw [hstate, ← Except.ok.inj h₁]
  change (if (!r.checkQuorumActive) = true then _ else _ : Raft).state = _ ↔ _
  cases r.checkQuorumActive with
  | false => exact ⟨nofun, nofun⟩
  | true => exact ⟨fun _ => rfl, fun _ => hl⟩

/-- A check that comes with a tick is survived by those who count a quorum. -/
theorem tick_checks (hc : n.checksQuorum = true) (h : n.run .tick = .ok n') :
    n'.raft.state = .leader ↔ n.raft.checkQuorumActive = true := by
  obtain ⟨hleader, hon⟩ := Bool.and_eq_true_iff.mp hc
  obtain ⟨hl, htime⟩ := of_decide_eq_true hleader
  obtain ⟨r', hr', h⟩ := bind_ok h
  rw [← Except.ok.inj h]
  have htick : n.raft.tick = n.raft.tickHeartbeat := by
    unfold Raft.tick
    rw [hl]
  rw [htick, Raft.tickHeartbeat] at hr'
  simp only [if_pos htime] at hr'
  obtain ⟨r₁, h₁, hr'⟩ := bind_ok hr'
  have hsurvives := tickCheckQuorum_survives (by exact hl) (by exact hon) h₁
  refine Iff.trans ?_ hsurvives
  split at hr'
  · rw [Except.ok.inj hr']
  rename_i hl₁
  have hl₁ := not_not.mp hl₁
  split at hr'
  · obtain ⟨⟨r₂, st⟩, h₂, hr'⟩ := bind_ok hr'
    rw [← Except.ok.inj hr', (step_beat (show Raft.state { r₁ with heartbeatElapsed := 0 } = .leader from hl₁) h₂).state]
  · rw [Except.ok.inj hr']

/-- The leader together with the voters whose answers it stepped. -/
def RawNode.answering (n : RawNode) (as : List NodeAction) : Finset Nat :=
  insert n.raft.id ((as.filterMap NodeAction.answerOf).toFinset.filter (· ∈ n.raft.prs.keys))

/-- Whom the next check counts: besides the node, the voters that answered since the check before or
were marked already then. -/
def RawNode.stillCounted (n₁ : RawNode) (as : List NodeAction) (n : RawNode) : Finset Nat :=
  n.raft.progressIds.toFinset.filter fun id =>
    id = n.raft.id ∨ id ∈ n.raft.prs.keys ∧ (n₁.raft.activeVoter id = true ∨ id ∈ heardSince n₁.raft.term as)

/-- The flags at a check are those of the check before and those that answers set since. -/
theorem counted_since (hr : n₁.raft.Configured) (hcheck₁ : n₁.checksQuorum = true) (htick₁ : n₁.run .tick = .ok n₂)
    (hlead₂ : n₂.raft.state = .leader) (hsince : n₂.leadOn as = some n₃) :
    n₃.raft.Configured ∧ n₃.raft.counted = n₁.stillCounted as n₃ := by
  have hl₁ : n₁.raft.state = .leader := (of_decide_eq_true (Bool.and_eq_true_iff.mp hcheck₁).1).1
  have hr₂ := run_configured hr htick₁
  obtain ⟨r₂, hr₂', h₂⟩ := bind_ok htick₁
  obtain rfl := Except.ok.inj h₂
  obtain ⟨hterm, hheeds⟩ := (leader_tick hl₁ hr₂').resolve_left (not_not.mpr hlead₂)
  obtain ⟨hr₃, hid, hflags⟩ := leadOn_heeds hr₂ hlead₂ hsince
  refine ⟨hr₃, ?_⟩
  -- the flag of a voter, traced back to the check before
  have hactive : ∀ id, n₃.raft.activeVoter id = true ↔ id ∈ n₃.raft.prs.keys ∧
      (n₁.raft.activeVoter id = true ∨ id ∈ heardSince n₁.raft.term as) := by
    intro id
    rw [← AssocMap.lookup_isSome_iff, Raft.activeVoter, Raft.activeVoter]
    cases hp₃ : n₃.raft.prs.lookup id with
    | none => exact ⟨nofun, fun h => by cases h.1⟩
    | some p₃ =>
        obtain ⟨p₂, hp₂, hactive₂⟩ := hflags id p₃ hp₃
        obtain ⟨p₁, hp₁, hactive₁⟩ := hheeds.voters id p₂ hp₂
        rw [hp₁]
        simp only [Option.any_some, Option.isSome_some, true_and, hactive₂, hactive₁, hterm, reduceCtorEq,
          decide_false, Bool.or_false, Bool.or_eq_true, decide_eq_true_eq]
  ext id
  simp only [Raft.counted, RawNode.stillCounted, Finset.mem_filter, hactive]

/-- Two checks of a leader in one term, with no member added between them. A leader that has heard
from less than a quorum since the first one is deposed by the second if and only if the flags set before
the first one do not make up for it. -/
theorem check_quorum_deposes_iff {c : Config}
    (hstart : RawNode.restartNode c = .ok n₀ ∨ ∃ serialize peers, RawNode.startNode serialize c peers = .ok n₀)
    (hrun : RawNode.Runs (fun _ _ => True) n₀ n₁) (hcheck₁ : n₁.checksQuorum = true) (htick₁ : n₁.run .tick = .ok n₂)
    (hlead₂ : n₂.raft.state = .leader) (hsince : n₂.leadOn as = some n₃) (hcheck₃ : n₃.checksQuorum = true)
    (htick₃ : n₃.run .tick = .ok n₄) :
    ((n₃.answering as).card < n₃.raft.quorum → n₄.raft.state ≠ .leader) ↔
      n₃.raft.quorum ≤ (n₃.answering as).card ∨ (n₁.stillCounted as n₃).card < n₃.raft.quorum := by
  obtain ⟨hr₃, hcounted⟩ := counted_since (hrun.configured (started_configured hstart)) hcheck₁ htick₁ hlead₂ hsince
  have hsurvives : n₄.raft.state = .leader ↔ n₃.raft.quorum ≤ (n₁.stillCounted as n₃).card := by
    rw [tick_checks hcheck₃ htick₃, checkQuorumActive_iff hr₃, hcounted]
  rw [ne_eq, hsurvives, not_le]
  constructor
  · intro h
    exact (le_or_gt _ _).imp_right h
  · rintro (hmany | hfew)
    · exact fun hless => absurd hmany hless.not_ge
    · exact fun _ => hfew

/-- A voter that is elected and works on, up to its second check. -/
structure TwoChecks where
  start : RawNode
  first : RawNode
  passed : RawNode
  second : RawNode
  after : RawNode

/-- The first voter of three, with what it does before the first check and between the two. -/
def twoChecks (before between : List NodeAction) : Result TwoChecks := do
  let start ← firstVoter
  let first ← start.runAll before
  let passed ← first.run .tick
  match passed.leadOn between with
  | none => .error "not between two checks"
  | some second => do
      let after ← second.run .tick
      .ok { start, first, passed, second, after }

theorem twoChecks_spec {before between : List NodeAction} {t : TwoChecks} (h : twoChecks before between = .ok t) :
    firstVoter = .ok t.start ∧ t.start.runAll before = .ok t.first ∧ t.first.run .tick = .ok t.passed ∧
      t.passed.leadOn between = some t.second ∧ t.second.run .tick = .ok t.after := by
  obtain ⟨start, hstart, h⟩ := bind_ok h
  obtain ⟨first, hfirst, h⟩ := bind_ok h
  obtain ⟨passed, hpassed, h⟩ := bind_ok h
  split at h
  · cases h
  · rename_i second hsecond
    obtain ⟨after, hafter, h⟩ := bind_ok h
    obtain rfl := Except.ok.inj h
    exact ⟨hstart, hfirst, hpassed, hsecond, hafter⟩

/-- The voters answer the first append of the leader, and time passes. -/
def answersOnce (ids : List Nat) : List NodeAction :=
  winElection ++ ids.map (fun id => .step { type := .msgAppResp, to_ := 1, from_ := id, term := 1, index := 1 }) ++
    List.replicate 9 .tick

/-- The voter that answered is removed, and time passes. -/
def removeAndWait : List NodeAction :=
  .applyConfChange { confChangeType := confChangeRemoveNode, nodeId := 2 } :: List.replicate 9 .tick

theorem check_quorum_deposes_removed : ∃ t, twoChecks (answersOnce [2]) removeAndWait = .ok t ∧
    (t.second.answering removeAndWait).card < t.second.raft.quorum ∧ t.after.raft.state ≠ .leader := by
  obtain ⟨t, h, hp⟩ := exists_ok_of_any (x := twoChecks (answersOnce [2]) removeAndWait) (p := fun t =>
    decide (t.first.checksQuorum = true ∧ t.passed.raft.state = .leader ∧ t.second.checksQuorum = true ∧
      (t.second.answering removeAndWait).card < t.second.raft.quorum ∧
      (t.first.stillCounted removeAndWait t.second).card < t.second.raft.quorum)) (by decide +kernel)
  obtain ⟨hcheck₁, hlead, hcheck₃, hfew, hcounted⟩ := of_decide_eq_true hp
  obtain ⟨hstart, hfirst, hpassed, hsecond, hafter⟩ := twoChecks_spec h
  have hruns : RawNode.Runs (fun _ _ => True) t.start t.first := RawNode.runAll_runs _ (fun _ _ _ => trivial) hfirst
  exact ⟨t, h, hfew, (check_quorum_deposes_iff (Or.inl hstart) hruns hcheck₁ hpassed hlead hsecond hcheck₃ hafter).mpr
    (Or.inr hcounted) hfew⟩

/-- Both other voters answered before the first check and none did since, and the leader goes on. -/
theorem isolated_leader_stays : ∃ t, twoChecks (answersOnce [2, 3]) (List.replicate 9 .tick) = .ok t ∧
    t.first.checksQuorum = true ∧ t.passed.raft.state = .leader ∧ t.second.checksQuorum = true ∧
      (t.second.answering (List.replicate 9 .tick)).card < t.second.raft.quorum ∧ t.after.raft.state = .leader := by
  obtain ⟨t, h, hp⟩ := exists_ok_of_any (x := twoChecks (answersOnce [2, 3]) (List.replicate 9 .tick)) (p := fun t =>
    decide (t.first.checksQuorum = true ∧ t.passed.raft.state = .leader ∧ t.second.checksQuorum = true ∧
      (t.second.answering (List.replicate 9 .tick)).card < t.second.raft.quorum ∧ t.after.raft.state = .leader))
    (by decide +kernel)
  exact ⟨t, h, of_decide_eq_true hp⟩

end Checks

end RaftEtcd
