import Mathlib.Data.Finset.Sort
import RaftEtcd.Delivery
import RaftEtcd.Leading

/-! The members of a cluster as two sets: `apply_conf_change` moves them as its documentation says,
and the maps and flags of the node always agree on them. -/
namespace RaftEtcd
variable {r r' r'' : Raft} {msg : Message} {n n₀ n' : RawNode} {cc : ConfChange}

/-- Who votes and who only learns. -/
@[ext] structure Membership where
  voters : Finset Nat
  learners : Finset Nat

namespace Membership

instance : DecidableEq Membership := fun _ _ => decidable_of_iff _ Membership.ext_iff.symm

/-- What a change of the configuration is meant to do. -/
def apply (m : Membership) (cc : ConfChange) : Membership :=
  if cc.nodeId = 0 then m
  else if cc.confChangeType = confChangeAddNode then
    { voters := insert cc.nodeId m.voters, learners := m.learners.erase cc.nodeId }
  else if cc.confChangeType = confChangeAddLearnerNode then
    if cc.nodeId ∈ m.voters then m else { m with learners := insert cc.nodeId m.learners }
  else if cc.confChangeType = confChangeRemoveNode then
    { voters := m.voters.erase cc.nodeId, learners := m.learners.erase cc.nodeId }
  else m

/-- The memberships that a sequence of changes goes through. -/
def history (m : Membership) : List ConfChange → List Membership
  | [] => []
  | cc :: ccs => m.apply cc :: (m.apply cc).history ccs

/-- Both sets in ascending order. -/
def confState (m : Membership) : ConfState := { nodes := m.voters.sort (· ≤ ·), learners := m.learners.sort (· ≤ ·) }

end Membership

/-- The members as the node has them. -/
def Raft.members (r : Raft) : Membership := { voters := r.prs.keys.toFinset, learners := r.learnerPrs.keys.toFinset }

theorem SameMembers.members (h : SameMembers r r') : r'.members = r.members := by
  unfold Raft.members
  rw [h.voters.keys, h.learners.keys]

theorem insertionSort_keys (m : AssocMap Nat Progress) :
    m.keys.insertionSort (· ≤ ·) = m.keys.toFinset.sort (· ≤ ·) := by
  have hperm := List.perm_insertionSort (· ≤ ·) m.keys
  rw [← List.toFinset_eq_of_perm _ _ hperm]
  exact ((List.toFinset_sort _ (hperm.nodup_iff.mpr m.keys_nodup)).mpr (List.pairwise_insertionSort _ _)).symm

theorem confState_members (n : RawNode) : n.confState = n.raft.members.confState := by
  unfold RawNode.confState Raft.nodes Raft.learnerNodes Membership.confState
  rw [insertionSort_keys, insertionSort_keys]
  rfl

section Changes
variable {id : Nat} {b : Bool}

/-- The node as it is when another one is made a voter. -/
def Raft.withVoter (r : Raft) (id : Nat) (p : Progress) : Raft :=
  { r with
    prs := r.prs.insert id p, learnerPrs := r.learnerPrs.erase id
    isLearner := if r.id = id then false else r.isLearner }

/-- The node as it is when another one is made a learner. -/
def Raft.withLearner (r : Raft) (id : Nat) (p : Progress) : Raft :=
  { r with learnerPrs := r.learnerPrs.insert id p, isLearner := if r.id = id then true else r.isLearner }

/-- The last line of `add_node_or_learner`. -/
def Raft.markActive (r : Raft) (id : Nat) : Raft := r.modifyProgress id fun p => { p with recentActive := true }

theorem markAdded_eq (r : Raft) (id : Nat) (b : Bool) :
    r.markAdded id b = { r with isLearner := if r.id = id then b else r.isLearner }.markActive id := by
  unfold Raft.markAdded Raft.markActive
  simp only
  split <;> rfl

theorem markActive_members (r : Raft) (id : Nat) : SameMembers r (r.markActive id) := by
  have hworks : Works (some id) r (r.markActive id) := modifyProgress_works r id _ fun _ _ => rfl
  obtain ⟨_, _, _, _, _, _, _, _, heq⟩ := hworks.rest
  exact ⟨by rw [heq], by rw [heq], hworks.voters.sameKind, hworks.learners⟩

theorem getProgress_mem {p : Progress} (h : r.getProgress id = some p) :
    r.prs.lookup id = some p ∨ r.prs.lookup id = none ∧ r.learnerPrs.lookup id = some p := by
  unfold Raft.getProgress at h
  split at h
  · rename_i q hq
    exact Or.inl (hq.trans h)
  · rename_i hnone
    exact Or.inr ⟨hnone, h⟩

theorem getProgress_isSome_iff : (r.getProgress id).isSome ↔ id ∈ r.progressIds := by
  rw [Raft.progressIds, List.mem_append, ← AssocMap.lookup_isSome_iff, ← AssocMap.lookup_isSome_iff, Raft.getProgress]
  cases r.prs.lookup id with
  | none => simp
  | some p => simp

theorem SameMembers.progressIds (h : SameMembers r r') : r'.progressIds = r.progressIds := by
  rw [Raft.progressIds, h.voters.keys, h.learners.keys]
  rfl

theorem getProgress_none (h : r.getProgress id = none) : id ∉ r.prs.keys ∧ id ∉ r.learnerPrs.keys := by
  have hid : id ∉ r.progressIds := by
    rw [← getProgress_isSome_iff, h]
    exact nofun
  rwa [Raft.progressIds, List.mem_append, not_or] at hid

/-- Making a node a voter: nothing to do, or a progress of its own, new or kept from the learner. -/
theorem addVoter_cases (hr : r.Configured) (h : r.addNodeOrLearner id false = .ok r') :
    id ∈ r.prs.keys ∧ r' = r ∨ id ∉ r.prs.keys ∧ ∃ p, p.isLearner = false ∧
      (p.matched = 0 ∧ p.next = r.raftLog.lastIndex + 1 ∨
        ∃ q, r.getProgress id = some q ∧ p.matched = q.matched ∧ p.next = q.next) ∧
      r' = (r.withVoter id p).markActive id := by
  unfold Raft.addNodeOrLearner at h
  split at h
  · rename_i hnone
    obtain ⟨r₁, h₁, h⟩ := bind_ok h
    obtain rfl := (Except.ok.inj h₁).symm
    rw [← Except.ok.inj h]
    exact Or.inr ⟨(getProgress_none hnone).1, _, rfl, Or.inl ⟨rfl, rfl⟩, markAdded_eq _ _ _⟩
  rename_i pr hpr
  rcases getProgress_mem hpr with hvoter | ⟨hnone, hlearner⟩
  · have hkind := hr.voters id pr hvoter
    simp only [hkind, Bool.false_and, Bool.false_eq_true, if_false, if_true] at h
    refine Or.inl ⟨?_, (Except.ok.inj h).symm⟩
    rw [← AssocMap.lookup_isSome_iff, hvoter]
    rfl
  · have hkind := hr.learners id pr hlearner
    simp only [hkind, Bool.false_and, Bool.false_eq_true, if_false] at h
    rw [← Except.ok.inj h]
    refine Or.inr ⟨?_, _, ?_, Or.inr ⟨pr, hpr, ?_⟩, markAdded_eq _ _ _⟩
    · rw [← AssocMap.lookup_isSome_iff, hnone]
      exact nofun
    · rfl
    · exact ⟨rfl, rfl⟩

/-- Making a node a learner: nothing to do, or a new progress. -/
theorem addLearner_cases (hr : r.Configured) (h : r.addNodeOrLearner id true = .ok r') :
    (id ∈ r.prs.keys ∨ id ∈ r.learnerPrs.keys) ∧ r' = r ∨
      id ∉ r.prs.keys ∧ id ∉ r.learnerPrs.keys ∧ ∃ p, p.isLearner = true ∧
        p.matched = 0 ∧ p.next = r.raftLog.lastIndex + 1 ∧ r' = (r.withLearner id p).markActive id := by
  unfold Raft.addNodeOrLearner at h
  split at h
  · rename_i hnone
    obtain ⟨hvoter, hlearner⟩ := getProgress_none hnone
    obtain ⟨r₁, h₁, h⟩ := bind_ok h
    unfold Raft.setProgress at h₁
    have hnew : ¬ (r.prs.lookup id).isSome = true := by rwa [AssocMap.lookup_isSome_iff]
    simp only [Bool.not_true, Bool.false_eq_true, if_false, if_neg hnew] at h₁
    obtain rfl := (Except.ok.inj h₁).symm
    rw [← Except.ok.inj h]
    exact Or.inr ⟨hvoter, hlearner, _, rfl, rfl, rfl, markAdded_eq _ _ _⟩
  rename_i pr hpr
  rcases getProgress_mem hpr with hvoter | ⟨hnone, hlearner⟩
  · have hkind := hr.voters id pr hvoter
    simp only [hkind, Bool.not_false, Bool.and_self, if_true] at h
    refine Or.inl ⟨Or.inl ?_, (Except.ok.inj h).symm⟩
    rw [← AssocMap.lookup_isSome_iff, hvoter]
    rfl
  · have hkind := hr.learners id pr hlearner
    simp only [hkind, Bool.not_true, Bool.and_false, Bool.false_eq_true, if_false, if_true] at h
    refine Or.inl ⟨Or.inr ?_, (Except.ok.inj h).symm⟩
    rw [← AssocMap.lookup_isSome_iff, hlearner]
    rfl

theorem withVoter_configured (hr : r.Configured) {p : Progress} (hp : p.isLearner = false) :
    (r.withVoter id p).Configured := hr.insert_voter hp rfl rfl rfl rfl

theorem withLearner_configured (hr : r.Configured) {p : Progress} (hp : p.isLearner = true) (hnew : id ∉ r.prs.keys) :
    (r.withLearner id p).Configured := hr.insert_learner hp hnew rfl rfl rfl rfl

theorem addNodeOrLearner_configured (hr : r.Configured) (h : r.addNodeOrLearner id b = .ok r') : r'.Configured := by
  cases b with
  | false =>
      obtain ⟨-, rfl⟩ | ⟨-, p, hp, -, rfl⟩ := addVoter_cases hr h
      · exact hr
      · exact (withVoter_configured hr hp).congr (markActive_members _ _)
  | true =>
      obtain ⟨-, rfl⟩ | ⟨hnew, -, p, hp, -, -, rfl⟩ := addLearner_cases hr h
      · exact hr
      · exact (withLearner_configured hr hp hnew).congr (markActive_members _ _)

theorem delProgress_configured (hr : r.Configured) : (r.delProgress id).Configured where
  disjoint k hk := by
    rw [Raft.delProgress, AList.keys_erase] at hk
    rw [Raft.delProgress, AList.keys_erase]
    exact fun hmem => hr.disjoint k (List.mem_of_mem_erase hk) (List.mem_of_mem_erase hmem)
  voters k p hp := by
    by_cases hk : k = id
    · subst hk
      rw [Raft.delProgress, AList.lookup_erase] at hp
      cases hp
    · rw [Raft.delProgress, AList.lookup_erase_ne hk] at hp
      exact hr.voters k p hp
  learners k p hp := by
    by_cases hk : k = id
    · subst hk
      rw [Raft.delProgress, AList.lookup_erase] at hp
      cases hp
    · rw [Raft.delProgress, AList.lookup_erase_ne hk] at hp
      exact hr.learners k p hp
  voter hmem := by
    rw [Raft.delProgress, AList.keys_erase] at hmem
    exact hr.voter (List.mem_of_mem_erase hmem)
  learner hmem := by
    rw [Raft.delProgress, AList.keys_erase] at hmem
    exact hr.learner (List.mem_of_mem_erase hmem)

/-- What a removal does besides does not touch the members. -/
theorem removeNode_members (h : r.removeNode id = .ok r') : SameMembers (r.delProgress id) r' := by
  obtain rfl | ⟨r₁, changed, r₂, hcommit, hsend, _, _, _, rfl⟩ := removeNode_cases h
  · exact .refl _
  obtain ⟨c, rfl⟩ := maybeCommit_frame hcommit
  have hcommitted : SameMembers (r.delProgress id)
      { r.delProgress id with raftLog := { (r.delProgress id).raftLog with committed := c } } :=
    .of_same rfl rfl ⟨rfl, rfl⟩
  have hsent : SameMembers { r.delProgress id with raftLog := { (r.delProgress id).raftLog with committed := c } } r₂ := by
    rcases hsend with ⟨-, rfl⟩ | ⟨-, hsend⟩
    · exact .refl _
    · exact .of_posts (bcastAppend_posts hsend)
  exact (hcommitted.trans hsent).trans (.of_same rfl rfl ⟨rfl, rfl⟩)

/-- A change that is applied does to the members what it is meant to, and leaves the maps in step. -/
theorem Configures.refines (h : Configures cc r r') (hr : r.Configured) :
    r'.Configured ∧ r'.members = r.members.apply cc := by
  unfold Membership.apply
  cases h with
  | ignores change same =>
      rw [same]
      refine ⟨hr, ?_⟩
      split
      · rfl
      rename_i hnode
      rw [change.resolve_left hnode]
      rfl
  | adds node type add =>
      rw [if_neg node, if_pos type]
      refine ⟨addNodeOrLearner_configured hr add, ?_⟩
      obtain ⟨hmem, rfl⟩ | ⟨-, p, -, -, rfl⟩ := addVoter_cases hr add
      · have hlearner := hr.disjoint _ hmem
        simp [Raft.members, Finset.insert_eq_of_mem, hmem, Finset.erase_eq_of_notMem, hlearner]
      · rw [(markActive_members _ _).members]
        simp only [Raft.members, Raft.withVoter, AssocMap.toFinset_keys_insert, AssocMap.toFinset_keys_erase]
  | addsLearner node type add =>
      rw [if_neg node, if_neg (by rw [type]; decide), if_pos type]
      refine ⟨addNodeOrLearner_configured hr add, ?_⟩
      obtain ⟨hmem, rfl⟩ | ⟨hnew, -, p, -, -, -, rfl⟩ := addLearner_cases hr add
      · split
        · rfl
        · rename_i hvoter
          have hlearner := hmem.resolve_left fun hmem => hvoter (List.mem_toFinset.mpr hmem)
          simp [Raft.members, Finset.insert_eq_of_mem, hlearner]
      · have hvoter : cc.nodeId ∉ r.members.voters := fun hmem => hnew (List.mem_toFinset.mp hmem)
        rw [if_neg hvoter, (markActive_members _ _).members]
        simp only [Raft.members, Raft.withLearner, AssocMap.toFinset_keys_insert]
  | removes node type remove =>
      rw [if_neg node, if_neg (by rw [type]; decide), if_neg (by rw [type]; decide), if_pos type]
      have hmembers := removeNode_members remove
      refine ⟨(delProgress_configured hr).congr hmembers, hmembers.members.trans ?_⟩
      simp only [Raft.members, Raft.delProgress, AssocMap.toFinset_keys_erase]

end Changes

section Runs

theorem Works.members {x : Option Nat} (h : Works x r r') : SameMembers r r' := by
  obtain ⟨_, _, _, _, _, _, _, _, heq⟩ := h.rest
  exact ⟨by rw [heq], by rw [heq], h.voters.sameKind, h.learners⟩

theorem Leads.members (h : Leads msg r r') : SameMembers r r' := by
  cases h with
  | works h => exact h.members
  | proposes type r₁ taken append posts =>
      have hsent := SameMembers.of_posts posts
      obtain ⟨p, hfilter⟩ := filterConfChanges_frame r 0 msg.entries
      rw [hfilter] at append
      obtain ⟨-, rfl⟩ | ⟨-, -, log, c, prs, lprs, u, -, hvoters, hlearners, rfl⟩ := appendEntry_frame append
      · exact ⟨hsent.id, hsent.isLearner, hsent.voters, hsent.learners⟩
      · exact ⟨hsent.id, hsent.isLearner, hvoters.sameKind.trans hsent.voters, hlearners.sameKind.trans hsent.learners⟩
  | stepsDown type lost follows =>
      rw [follows]
      exact becomeFollower_members r _ _

/-- Only a snapshot brings other members. -/
theorem step_members {st : Status} (h : r.step msg = .ok (r', st)) : SameMembers r r' ∨ r'.Configured := by
  rcases step_turns h with hturn | ⟨-, hlead⟩
  · exact hturn.members
  · exact Or.inl (stepLeader_leads hlead).members

theorem step_configured (hr : r.Configured) {st : Status} (h : r.step msg = .ok (r', st)) : r'.Configured := by
  rcases step_members h with hmembers | hconf
  · exact hr.congr hmembers
  · exact hconf

theorem Timed.members (h : Timed r r') : SameMembers r r' := by
  obtain ⟨_, _, _, rfl⟩ := h
  exact .of_same rfl rfl ⟨rfl, rfl⟩

theorem tick_configured (hr : r.Configured) (h : r.tick = .ok r') : r'.Configured := by
  cases tick_ticks h with
  | waits timed => exact hr.congr timed.members
  | stands r₁ timed role promotable st step => exact step_configured (hr.congr timed.members) step
  | beats r₁ r₂ r₃ role timed check timed' beat =>
      have hr₂ : r₂.Configured := by
        rcases check with rfl | ⟨st, hstep⟩
        · exact hr.congr timed.members
        · exact step_configured (hr.congr timed.members) hstep
      rcases beat with rfl | ⟨-, st, hstep⟩
      · exact hr₂.congr timed'.members
      · exact step_configured (hr₂.congr timed'.members) hstep

/-- No operation of a node puts the maps and flags out of step. -/
theorem run_configured {a : NodeAction} (hr : n.raft.Configured) (h : n.run a = .ok n') : n'.raft.Configured := by
  cases run_operates h with
  | refuses message same => rwa [same]
  | steps msg message r' st step node =>
      rw [node]
      exact step_configured hr step
  | ticks action r' tick node =>
      rw [node]
      exact tick_configured hr tick
  | configures cc action cs apply => exact ((applyConfChange_configures apply).1.refines hr).1
  | readies action rd ready =>
      rw [ready_frame ready]
      exact hr.congr (.of_same rfl rfl ⟨rfl, rfl⟩)
  | advances rd action node =>
      rw [node]
      exact hr.congr (.of_same rfl rfl ⟨rfl, rfl⟩)
  | stores storage action node =>
      rw [node]
      exact hr.congr (.of_same rfl rfl ⟨rfl, rfl⟩)

theorem RawNode.Runs.configured {P : RawNode → NodeAction → Prop} (hrun : RawNode.Runs P n₀ n) (h : n₀.raft.Configured) :
    n.raft.Configured := by
  induction hrun with
  | refl => exact h
  | tail _ hstep ih =>
      obtain ⟨a, -, hstep⟩ := hstep
      exact run_configured ih hstep

theorem addLearners_configured {ids : List Nat} (hr : r.Configured) (h : r.addLearners ids = .ok r') : r'.Configured := by
  unfold Raft.addLearners at h
  induction ids generalizing r with
  | nil =>
      rw [List.foldlM_nil] at h
      rwa [← Except.ok.inj h]
  | cons id ids ih =>
      rw [List.foldlM_cons] at h
      obtain ⟨r₁, h₁, h⟩ := bind_ok h
      refine ih ?_ h
      split at h₁
      · cases h₁
      · rename_i hnew
        rw [← Except.ok.inj h₁]
        refine hr.insert_learner rfl ?_ rfl rfl rfl ?_
        · rwa [AssocMap.lookup_isSome_iff] at hnew
        · by_cases hid : r.id = id
          · simp [hid]
          · simp [hid]

/-- The voters to start with. -/
theorem initial_configured {peers : List Nat} {p : Progress} (hp : p.isLearner = false)
    (hprs : r.prs = peers.foldl (fun m peer => m.insert peer p) ∅) (hlearners : r.learnerPrs = ∅)
    (hself : r.isLearner = false) : r.Configured := by
  have hvoters : ∀ (ids : List Nat) (m : AssocMap Nat Progress), (∀ id q, m.lookup id = some q → q.isLearner = false) →
      ∀ id q, (ids.foldl (fun m peer => m.insert peer p) m).lookup id = some q → q.isLearner = false := by
    intro ids
    induction ids with
    | nil => exact fun m hm => hm
    | cons k ids ih =>
        intro m hm
        refine ih _ fun id q hq => ?_
        by_cases hid : id = k
        · subst hid
          rw [AList.lookup_insert] at hq
          rwa [← Option.some.inj hq]
        · rw [AList.lookup_insert_ne hid] at hq
          exact hm id q hq
  refine ⟨?_, ?_, ?_, fun _ => hself, ?_⟩
  · rw [hlearners]
    exact fun _ _ => nofun
  · rw [hprs]
    exact hvoters peers ∅ nofun
  · rw [hlearners]
    exact nofun
  · rw [hlearners]
    exact nofun

theorem new_configured {c : Config} (h : Raft.new c = .ok r) : r.Configured := by
  obtain ⟨⟨peers, learners⟩, -, h⟩ := bind_ok h
  obtain ⟨r₁, h₁, h⟩ := bind_ok h
  obtain ⟨r₂, h₂, h⟩ := bind_ok h
  have hr₁ := addLearners_configured (initial_configured rfl rfl rfl rfl) h₁
  have hr₂ : r₂.Configured := by
    split at h₂
    · unfold Raft.loadState at h₂
      split at h₂
      · cases h₂
      · rw [← Except.ok.inj h₂]
        exact hr₁.congr (.of_same rfl rfl ⟨rfl, rfl⟩)
    · rwa [← Except.ok.inj h₂]
  rw [← Except.ok.inj h]
  refine Raft.Configured.congr ?_ (becomeFollower_members _ _ _)
  split
  · exact hr₂.congr (.of_same rfl rfl ⟨rfl, rfl⟩)
  · exact hr₂

theorem started_configured {c : Config}
    (h : RawNode.restartNode c = .ok n ∨ ∃ serialize peers, RawNode.startNode serialize c peers = .ok n) :
    n.raft.Configured := by
  refine started_holds h (fun r hr => new_configured hr) (fun r es log hr _ _ _ => ?_) fun r r' id hr hadd =>
    addNodeOrLearner_configured hr hadd
  exact ((new_configured hr).congr (becomeFollower_members r 1 0)).congr (.of_same rfl rfl ⟨rfl, rfl⟩)

end Runs

section Returns
variable {id : Nat} {b : Bool}

/-- How far a peer is. -/
def Progress.position (p : Progress) : Nat × Nat := (p.matched, p.next)

/-- Every peer is to get the entry behind the last one. -/
def Raft.AtEnd (r : Raft) : Prop := ∀ id p, r.getProgress id = some p → p.next = r.raftLog.lastIndex + 1

/-- A node that has not been told of any entry: what it may commit is the whole log, and nobody lacks
an entry of it then. -/
structure Raft.Steady (r : Raft) : Prop where
  matched : ∀ id p, r.getProgress id = some p → p.matched = 0 ∨ p.matched = r.raftLog.lastIndex ∧ r.AtEnd
  lastTerm : ∃ t, r.raftLog.term r.raftLog.lastIndex = .ok t

/-- The peers are those of before, but for new ones that begin behind the log. -/
structure Joins (r r' : Raft) : Prop where
  log : ∃ committed, r'.raftLog = { r.raftLog with committed := committed }
  peers : ∀ id p', r'.getProgress id = some p' → p'.position = (0, r.raftLog.lastIndex + 1) ∨
    ∃ p, r.getProgress id = some p ∧ p'.position = p.position

theorem Joins.trans (h : Joins r r') (h' : Joins r' r'') : Joins r r'' where
  log := by
    obtain ⟨c, heq⟩ := h.log
    obtain ⟨c', heq'⟩ := h'.log
    exact ⟨c', by rw [heq', heq]⟩
  peers id p' hp' := by
    obtain ⟨c, heq⟩ := h.log
    rcases h'.peers id p' hp' with hnew | ⟨p, hp, hpos⟩
    · rw [heq] at hnew
      exact Or.inl hnew
    · rw [hpos]
      exact h.peers id p hp

theorem Joins.atEnd (h : Joins r r') (hend : r.AtEnd) : r'.AtEnd := by
  obtain ⟨c, hlog⟩ := h.log
  intro id p' hp'
  rw [hlog]
  rcases h.peers id p' hp' with hnew | ⟨p, hp, hpos⟩
  · exact (Prod.mk.inj hnew).2
  · rw [(Prod.mk.inj hpos).2]
    exact hend id p hp

theorem Joins.steady (h : Joins r r') (hr : r.Steady) : r'.Steady := by
  obtain ⟨c, hlog⟩ := h.log
  have hlast : r'.raftLog.lastIndex = r.raftLog.lastIndex := by
    rw [hlog]
    rfl
  refine ⟨fun id p' hp' => ?_, ?_⟩
  · rcases h.peers id p' hp' with hnew | ⟨p, hp, hpos⟩
    · exact Or.inl (Prod.mk.inj hnew).1
    · rw [(Prod.mk.inj hpos).1, hlast]
      exact (hr.matched id p hp).imp_right (And.imp_right h.atEnd)
  · rw [hlast, hlog]
    exact hr.lastTerm

theorem Joins.of_positions {c : Nat} (hlog : r'.raftLog = { r.raftLog with committed := c })
    (h : ∀ id, (r'.getProgress id).map Progress.position = (r.getProgress id).map Progress.position) : Joins r r' where
  log := ⟨c, hlog⟩
  peers id p' hp' := by
    have hpos := h id
    rw [hp'] at hpos
    obtain ⟨p, hp, heq⟩ := Option.map_eq_some_iff.mp hpos.symm
    exact Or.inr ⟨p, hp, heq.symm⟩

theorem Joins.refl (r : Raft) : Joins r r := .of_positions (c := r.raftLog.committed) rfl fun _ => rfl

theorem modifyProgress_joins (r : Raft) (id : Nat) (f : Progress → Progress)
    (hf : ∀ p, r.getProgress id = some p → (f p).position = p.position) : Joins r (r.modifyProgress id f) := by
  obtain ⟨prs, lprs, heq⟩ := r.modifyProgress_eq id f
  refine .of_positions (c := r.raftLog.committed) (by rw [heq]) fun k => ?_
  rw [r.getProgress_modifyProgress]
  split
  · rename_i hk
    rw [hk, Option.map_map]
    exact Option.map_congr hf
  · rfl

theorem send_total {m : Message} (hty : m.type.isVote = false) (hterm : m.term = 0) : ∃ ms, r.send m =
    .ok { r with msgs := ms } := by
  unfold Raft.send
  have hvote : ¬ (m.type = .msgVote ∨ m.type = .msgVoteResp ∨ m.type = .msgPreVote ∨ m.type = .msgPreVoteResp) := by
    revert hty
    cases m.type <;> simp [MessageType.isVote]
  simp only [if_neg hvote, hterm, ne_eq, not_true_eq_false, if_false]
  exact ⟨_, rfl⟩

/-- Nothing is missing at a peer that is to get the entry behind the log, so it gets an empty message. -/
theorem sendAppend_total (hr : r.Steady) (hend : r.AtEnd) {p : Progress} (hp : r.getProgress id = some p) :
    ∃ r', r.sendAppend id = .ok r' ∧ Joins r r' := by
  have hnext := hend id p hp
  obtain ⟨t, ht⟩ := hr.lastTerm
  unfold Raft.sendAppend Raft.maybeSendAppend
  simp only [hp]
  by_cases hpaused : p.isPaused = true
  · rw [if_pos hpaused]
    exact ⟨r, rfl, .refl r⟩
  · have hentries : r.raftLog.entries p.next r.maxMsgSize [] = .ok (.ok, []) := by
      rw [RaftLog.entries, hnext, if_pos (Nat.lt_succ_self _)]
    have hsend := send_total (r := r.modifyProgress id fun _ => p)
      (m := { to_ := id, type := .msgApp, index := p.next - 1, logTerm := t, commit := r.raftLog.committed }) rfl rfl
    obtain ⟨ms, hsend⟩ := hsend
    have hterm : r.raftLog.term (p.next - 1) = .ok t := by
      rw [hnext, Nat.add_sub_cancel]
      exact ht
    rw [if_neg hpaused, hentries, hterm]
    simp only [bind, Except.bind, Status.isOk, List.getLast?_nil, hsend]
    refine ⟨_, rfl, ?_⟩
    have hjoins := modifyProgress_joins r id (fun _ => p) fun q hq => by rw [Option.some.inj (hp.symm.trans hq)]
    exact ⟨hjoins.log, hjoins.peers⟩

theorem bcastAppend_total (hr : r.Steady) (hend : r.AtEnd) : ∃ r', r.bcastAppend = .ok r' ∧ Joins r r' := by
  -- the addressees keep their progress while messages go out
  have hloop : ∀ (ids : List Nat) (g : Raft), g.Steady → g.AtEnd → (∀ id ∈ ids, (g.getProgress id).isSome) →
      ∃ g', ids.foldlM (fun r id => r.sendAppend id) g = .ok g' ∧ Joins g g' := by
    intro ids
    induction ids with
    | nil => exact fun g _ _ _ => ⟨g, rfl, .refl g⟩
    | cons id ids ih =>
        intro g hg hend hids
        obtain ⟨p, hp⟩ := Option.isSome_iff_exists.mp (hids id (List.mem_cons_self ..))
        obtain ⟨g₁, hsend, hjoins⟩ := sendAppend_total hg hend hp
        have hids₁ : ∀ k ∈ ids, (g₁.getProgress k).isSome := by
          intro k hk
          have hpeer := hids k (List.mem_cons_of_mem _ hk)
          have hmembers := SameMembers.of_posts (sendAppend_posts hsend)
          rwa [getProgress_isSome_iff, hmembers.progressIds, ← getProgress_isSome_iff]
        obtain ⟨g', hrest, hjoins'⟩ := ih g₁ (hjoins.steady hg) (hjoins.atEnd hend) hids₁
        refine ⟨g', ?_, hjoins.trans hjoins'⟩
        rw [List.foldlM_cons, hsend]
        exact hrest
  exact hloop _ r hr hend fun id hid => getProgress_isSome_iff.mpr (List.mem_of_mem_filter hid)

/-- The index that a quorum has reached is one that some voter has. -/
theorem maybeCommit_total (hr : r.Steady) (hvoter : r.prs.keys ≠ []) : ∃ r' changed, r.maybeCommit = .ok (r', changed) ∧
    Joins r r' ∧ (changed = true → r.AtEnd) := by
  have hlen : (AssocMap.values r.prs).length = r.prs.keys.length := by
    simp [AssocMap.values, AList.keys, List.keys]
  have hpos : 0 < r.prs.keys.length := List.length_pos_iff.mpr hvoter
  unfold Raft.maybeCommit
  simp only
  generalize hbuf : ((AssocMap.values r.prs).map Progress.matched).insertionSort (· ≤ ·) = buf
  have hbufLen : buf.length = r.prs.keys.length := by
    rw [← hbuf, List.length_insertionSort, List.length_map, hlen]
  have hquorum : ¬ buf.length < r.quorum := by
    rw [hbufLen, Raft.quorum]
    omega
  rw [if_neg hquorum]
  have hindex : buf.length - r.quorum < buf.length := by
    rw [Raft.quorum]
    omega
  rw [List.getElem?_eq_getElem hindex]
  simp only
  have hmci : buf[buf.length - r.quorum] = 0 ∨ buf[buf.length - r.quorum] = r.raftLog.lastIndex ∧ r.AtEnd := by
    have hmem : buf[buf.length - r.quorum] ∈ (AssocMap.values r.prs).map Progress.matched := by
      rw [← List.mem_insertionSort (· ≤ ·), hbuf]
      exact List.getElem_mem hindex
    obtain ⟨p, hp, heq⟩ := List.mem_map.mp hmem
    obtain ⟨⟨id, q⟩, hq, rfl⟩ := List.mem_map.mp hp
    rw [← heq]
    refine hr.matched id q ?_
    rw [Raft.getProgress, AList.mem_lookup_iff.mpr hq]
  generalize buf[buf.length - r.quorum] = mci at hmci ⊢
  have hstay : (Except.ok (r.raftLog, false) >>= fun x => Except.ok ({ r with raftLog := x.1 }, x.2) : Result _) =
      .ok (r, false) := rfl
  unfold RaftLog.maybeCommit
  by_cases hlt : mci > r.raftLog.committed
  · obtain ⟨rfl, hend⟩ := hmci.resolve_left (by omega)
    obtain ⟨t, ht⟩ := hr.lastTerm
    rw [if_pos hlt, ht]
    simp only
    split
    · rw [RaftLog.commitTo, if_pos hlt, if_neg (lt_irrefl _)]
      exact ⟨_, true, rfl, .of_positions rfl fun _ => rfl, fun _ => hend⟩
    · exact ⟨r, false, hstay, .refl r, fun h => by cases h⟩
  · rw [if_neg hlt]
    exact ⟨r, false, hstay, .refl r, fun h => by cases h⟩

theorem removeNode_total (hr : r.Steady) (hvoter : r.prs.keys.toFinset.erase id ≠ ∅) :
    ∃ r', r.removeNode id = .ok r' ∧ Joins r r' := by
  have hdel : Joins r (r.delProgress id) := by
    refine ⟨⟨r.raftLog.committed, rfl⟩, fun k p hp => Or.inr ⟨p, ?_, rfl⟩⟩
    by_cases hk : k = id
    · subst hk
      simp only [Raft.getProgress, Raft.delProgress, AList.lookup_erase] at hp
      cases hp
    · simpa only [Raft.getProgress, Raft.delProgress, AList.lookup_erase_ne hk] using hp
  have hkeys : (r.delProgress id).prs.keys ≠ [] := by
    intro hnil
    apply hvoter
    rw [← AssocMap.toFinset_keys_erase]
    exact List.toFinset_eq_empty_iff _ |>.mpr hnil
  obtain ⟨r₁, changed, hcommit, hjoins, hend⟩ := maybeCommit_total (hdel.steady hr) hkeys
  have hsend : ∃ r₂, (if changed then r₁.bcastAppend else .ok r₁) = .ok r₂ ∧ Joins r₁ r₂ := by
    split
    · rename_i hchanged
      exact bcastAppend_total (hjoins.steady (hdel.steady hr)) (hjoins.atEnd (hend hchanged))
    · exact ⟨r₁, rfl, .refl r₁⟩
  obtain ⟨r₂, hsend, hjoins₂⟩ := hsend
  have habort : Joins r₂ (if r₂.state = .leader ∧ r₂.leadTransferee = id then r₂.abortLeaderTransfer else r₂) := by
    split
    · exact .of_positions (c := r₂.raftLog.committed) rfl fun _ => rfl
    · exact .refl r₂
  refine ⟨_, ?_, ((hdel.trans hjoins).trans hjoins₂).trans habort⟩
  unfold Raft.removeNode
  simp only
  rw [if_neg fun h => hkeys h.1, hcommit]
  cases changed with
  | true =>
      change r₁.bcastAppend >>= _ = _
      rw [show r₁.bcastAppend = .ok r₂ from hsend]
      rfl
  | false =>
      rw [← show r₁ = r₂ from Except.ok.inj hsend]
      rfl

theorem addNodeOrLearner_total (r : Raft) (id : Nat) (b : Bool) : ∃ r', r.addNodeOrLearner id b = .ok r' := by
  unfold Raft.addNodeOrLearner
  split
  · rename_i hnone
    have hnew : ¬ (r.prs.lookup id).isSome = true := by
      rw [AssocMap.lookup_isSome_iff]
      exact (getProgress_none hnone).1
    unfold Raft.setProgress
    simp only [if_neg hnew]
    split
    · exact ⟨_, rfl⟩
    · exact ⟨_, rfl⟩
  split
  · exact ⟨_, rfl⟩
  split
  · exact ⟨_, rfl⟩
  · exact ⟨_, rfl⟩

theorem markActive_joins (r : Raft) (id : Nat) : Joins r (r.markActive id) := modifyProgress_joins r id _ fun _ _ => rfl

theorem withVoter_joins {p : Progress} (hpos : p.matched = 0 ∧ p.next = r.raftLog.lastIndex + 1 ∨
    ∃ q, r.getProgress id = some q ∧ p.matched = q.matched ∧ p.next = q.next) : Joins r (r.withVoter id p) where
  log := ⟨r.raftLog.committed, rfl⟩
  peers k p' hp' := by
    by_cases hk : k = id
    · subst hk
      simp only [Raft.getProgress, Raft.withVoter, AList.lookup_insert] at hp'
      rw [← Option.some.inj hp']
      rcases hpos with ⟨hmatched, hnext⟩ | ⟨q, hq, hmatched, hnext⟩
      · exact Or.inl (by rw [Progress.position, hmatched, hnext])
      · exact Or.inr ⟨q, hq, by rw [Progress.position, hmatched, hnext, Progress.position]⟩
    · simp only [Raft.getProgress, Raft.withVoter, AList.lookup_insert_ne hk, AList.lookup_erase_ne hk] at hp'
      exact Or.inr ⟨p', hp', rfl⟩

theorem withLearner_joins {p : Progress} (hnew : id ∉ r.prs.keys) (hmatched : p.matched = 0)
    (hnext : p.next = r.raftLog.lastIndex + 1) : Joins r (r.withLearner id p) where
  log := ⟨r.raftLog.committed, rfl⟩
  peers k p' hp' := by
    by_cases hk : k = id
    · subst hk
      rw [← AssocMap.lookup_isSome_iff, Option.not_isSome_iff_eq_none] at hnew
      simp only [Raft.getProgress, Raft.withLearner, hnew, AList.lookup_insert] at hp'
      rw [← Option.some.inj hp']
      exact Or.inl (by rw [Progress.position, hmatched, hnext])
    · simp only [Raft.getProgress, Raft.withLearner, AList.lookup_insert_ne hk] at hp'
      exact Or.inr ⟨p', hp', rfl⟩

theorem addNodeOrLearner_joins (hr : r.Configured) (h : r.addNodeOrLearner id b = .ok r') : Joins r r' := by
  cases b with
  | false =>
      obtain ⟨-, rfl⟩ | ⟨-, p, -, hpos, rfl⟩ := addVoter_cases hr h
      · exact .refl _
      · exact (withVoter_joins hpos).trans (markActive_joins _ _)
  | true =>
      obtain ⟨-, rfl⟩ | ⟨hnew, -, p, -, hmatched, hnext, rfl⟩ := addLearner_cases hr h
      · exact .refl _
      · exact (withLearner_joins hnew hmatched hnext).trans (markActive_joins _ _)

/-- A type of change that the switch knows. -/
def ConfChange.Known (cc : ConfChange) : Prop :=
  cc.confChangeType = confChangeAddNode ∨ cc.confChangeType = confChangeRemoveNode ∨
    cc.confChangeType = confChangeUpdateNode ∨ cc.confChangeType = confChangeAddLearnerNode

instance (cc : ConfChange) : Decidable cc.Known := inferInstanceAs (Decidable (_ ∨ _))

theorem applyConfChange_total (hr : n.raft.Configured) (hs : n.raft.Steady) (hknown : cc.Known)
    (hvoter : (n.raft.members.apply cc).voters ≠ ∅) :
    ∃ n' cs, n.applyConfChange cc = .ok (n', cs) ∧ n'.raft.Steady := by
  unfold RawNode.applyConfChange
  unfold Membership.apply at hvoter
  split
  · exact ⟨_, _, rfl, hs⟩
  rename_i hnode
  rw [if_neg hnode] at hvoter
  split
  · obtain ⟨r', hadd⟩ := addNodeOrLearner_total n.raft cc.nodeId false
    rw [hadd]
    exact ⟨_, _, rfl, (addNodeOrLearner_joins hr hadd).steady hs⟩
  rename_i hadd
  split
  · obtain ⟨r', hadd⟩ := addNodeOrLearner_total n.raft cc.nodeId true
    rw [hadd]
    exact ⟨_, _, rfl, (addNodeOrLearner_joins hr hadd).steady hs⟩
  rename_i hlearner
  rw [if_neg hadd, if_neg hlearner] at hvoter
  split
  · rename_i hremove
    rw [if_pos hremove] at hvoter
    obtain ⟨r', hremove, hjoins⟩ := removeNode_total hs hvoter
    rw [hremove]
    exact ⟨_, _, rfl, hjoins.steady hs⟩
  rename_i hremove
  split
  · exact ⟨_, _, rfl, hs⟩
  · rename_i hupdate
    rcases hknown with h | h | h | h
    · exact absurd h hadd
    · exact absurd h hremove
    · exact absurd h hupdate
    · exact absurd h hlearner

/-- A node that starts anew with its peers has heard of nobody's entries. -/
theorem becomeFollower_steady {t t' lead : Nat} (h : r.raftLog.term r.raftLog.lastIndex = .ok t') :
    (r.becomeFollower t lead).Steady := by
  have hlast : (r.becomeFollower t lead).raftLog = r.raftLog := Raft.reset_raftLog r t
  have hpeer : ∀ id p, (r.becomeFollower t lead).getProgress id = some p →
      p.next = r.raftLog.lastIndex + 1 ∧ (p.matched = 0 ∨ p.matched = r.raftLog.lastIndex) := by
    intro id p hp
    change (r.reset t).getProgress id = some p at hp
    rw [Raft.reset_getProgress] at hp
    obtain ⟨q, -, rfl⟩ := Option.map_eq_some_iff.mp hp
    refine ⟨rfl, ?_⟩
    unfold Raft.resetProgress
    split
    · exact Or.inr rfl
    · exact Or.inl rfl
  refine ⟨fun id p hp => ?_, ?_⟩
  · rw [hlast]
    refine (hpeer id p hp).2.imp_right fun hmatched => ⟨hmatched, fun k q hq => ?_⟩
    rw [hlast]
    exact (hpeer k q hq).1
  · rw [hlast]
    exact ⟨t', h⟩

/-- Nothing is unstable in the log of a new node, so its last term is a stored one. -/
theorem lastTerm_of_stored {l : RaftLog} (hun : l.unstable = { offset := l.storage.lastIndex + 1 }) :
    l.lastIndex = l.storage.lastIndex ∧ ∃ t, l.term l.lastIndex = .ok t := by
  have hlast : l.lastIndex = l.storage.lastIndex := by
    rw [RaftLog.lastIndex, hun]
    rfl
  refine ⟨hlast, ?_⟩
  unfold RaftLog.term
  split
  · exact ⟨0, rfl⟩
  · have hterm : l.unstable.maybeTerm l.lastIndex = none := by
      rw [Unstable.maybeTerm, hun, hlast]
      exact if_pos (Nat.lt_succ_self _)
    rw [hterm, hlast, MemoryStorage.term, MemoryStorage.lastIndex, if_neg (by omega), Nat.add_sub_cancel_left]
    have hlen : l.storage.ents.length < l.storage.all.length := Nat.lt_succ_self _
    rw [List.getElem?_eq_getElem hlen]
    exact ⟨_, rfl⟩

theorem lastTerm_of_unstable {l : RaftLog} (h : l.unstable.entries ≠ []) : ∃ t, l.term l.lastIndex = .ok t := by
  have hpos := List.length_pos_iff.mpr h
  have hlast : l.lastIndex = l.unstable.offset + l.unstable.entries.length - 1 := by
    rw [RaftLog.lastIndex, Unstable.maybeLastIndex, if_pos h]
  unfold RaftLog.term
  split
  · exact ⟨0, rfl⟩
  · have hindex : l.lastIndex - l.unstable.offset < l.unstable.entries.length := by omega
    have hterm : l.unstable.maybeTerm l.lastIndex =
        some (l.unstable.entries[l.lastIndex - l.unstable.offset]).term := by
      rw [Unstable.maybeTerm, if_neg (by omega), Unstable.maybeLastIndex, if_pos h]
      simp only
      rw [if_neg (by omega), List.getElem?_eq_getElem hindex]
      rfl
    rw [hterm]
    exact ⟨_, rfl⟩

/-- Entries that are appended are unstable. -/
theorem append_entries_unstable {l l' : RaftLog} {es : List Entry} (h : l.append es = .ok l') :
    l' = l ∨ l'.unstable.entries ≠ [] := by
  unfold RaftLog.append at h
  split at h
  · exact Or.inl (Except.ok.inj h).symm
  · rename_i e es
    split at h
    · cases h
    obtain ⟨u, hu, h⟩ := bind_ok h
    rw [← Except.ok.inj h]
    refine Or.inr ?_
    unfold Unstable.truncateAndAppend at hu
    simp only at hu
    split at hu
    · rw [← Except.ok.inj hu]
      simp
    split at hu
    · rw [← Except.ok.inj hu]
      simp
    · obtain ⟨kept, -, hu⟩ := bind_ok hu
      rw [← Except.ok.inj hu]
      simp

theorem new_steady {c : Config} (h : Raft.new c = .ok r) : r.Steady := by
  obtain ⟨hstore, hun, -⟩ := new_log h
  rw [← hstore] at hun
  obtain ⟨-, t, ht⟩ := lastTerm_of_stored hun
  obtain ⟨⟨peers, learners⟩, -, h⟩ := bind_ok h
  obtain ⟨r₁, -, h⟩ := bind_ok h
  obtain ⟨r₂, -, h⟩ := bind_ok h
  rw [← Except.ok.inj h] at ht ⊢
  rw [Raft.becomeFollower, Raft.reset_raftLog] at ht
  exact becomeFollower_steady ht

theorem started_steady {c : Config}
    (h : RawNode.restartNode c = .ok n ∨ ∃ serialize peers, RawNode.startNode serialize c peers = .ok n) :
    n.raft.Configured ∧ n.raft.Steady := by
  refine started_holds (P := fun r => r.Configured ∧ r.Steady) h (fun r hr => ⟨new_configured hr, new_steady hr⟩)
    (fun r es log hr hempty _ happend => ?_) fun r r' id hr hadd =>
      ⟨addNodeOrLearner_configured hr.1 hadd, (addNodeOrLearner_joins hr.1 hadd).steady hr.2⟩
  obtain ⟨hstore, hun, -⟩ := new_log hr
  rw [← hstore] at hun hempty
  obtain ⟨hlast, t, ht⟩ := lastTerm_of_stored hun
  have hsteady : (r.becomeFollower 1 0).Steady := becomeFollower_steady ht
  refine ⟨((new_configured hr).congr (becomeFollower_members r 1 0)).congr (.of_same rfl rfl ⟨rfl, rfl⟩), ?_, ?_⟩
  · intro id p hp
    have hzero : (r.becomeFollower 1 0).raftLog.lastIndex = 0 := by
      rw [Raft.becomeFollower, Raft.reset_raftLog, hlast, hempty]
    refine Or.inl ?_
    rcases hsteady.matched id p hp with hp | ⟨hp, -⟩
    · exact hp
    · rw [hp, hzero]
  · rcases append_entries_unstable happend with rfl | hne
    · exact ⟨t, ht⟩
    · exact lastTerm_of_unstable hne

/-- The changes one after the other, with what each returns. -/
def RawNode.applyConfChanges (n : RawNode) : List ConfChange → Result (RawNode × List ConfState)
  | [] => .ok (n, [])
  | cc :: ccs => do
      let (n, cs) ← n.applyConfChange cc
      let (n, css) ← n.applyConfChanges ccs
      .ok (n, cs :: css)

theorem applyConfChanges_refines (hr : n.raft.Configured) {ccs : List ConfChange} {css : List ConfState}
    (h : n.applyConfChanges ccs = .ok (n', css)) :
    n'.raft.Configured ∧ n'.raft.members = ccs.foldl Membership.apply n.raft.members ∧
      css = (n.raft.members.history ccs).map Membership.confState := by
  induction ccs generalizing n css with
  | nil =>
      obtain ⟨rfl, rfl⟩ := Prod.mk.inj (Except.ok.inj h)
      exact ⟨hr, rfl, rfl⟩
  | cons cc ccs ih =>
      obtain ⟨⟨n₁, cs⟩, h₁, h⟩ := bind_ok h
      obtain ⟨⟨n₂, css'⟩, h₂, h⟩ := bind_ok h
      obtain ⟨rfl, rfl⟩ := Prod.mk.inj (Except.ok.inj h)
      obtain ⟨hchange, hcs⟩ := applyConfChange_configures h₁
      obtain ⟨hr₁, hmembers⟩ := hchange.refines hr
      obtain ⟨hr₂, hfinal, hrest⟩ := ih hr₁ h₂
      rw [hmembers] at hfinal hrest
      refine ⟨hr₂, hfinal, ?_⟩
      rw [hrest, hcs, confState_members, hmembers]
      rfl

theorem applyConfChanges_total (hr : n.raft.Configured) (hs : n.raft.Steady) {ccs : List ConfChange}
    (hknown : ∀ cc ∈ ccs, cc.Known) (hvoter : ∀ m ∈ n.raft.members.history ccs, m.voters ≠ ∅) :
    ∃ n' css, n.applyConfChanges ccs = .ok (n', css) := by
  induction ccs generalizing n with
  | nil => exact ⟨n, [], rfl⟩
  | cons cc ccs ih =>
      obtain ⟨n₁, cs, h₁, hs₁⟩ := applyConfChange_total hr hs (hknown cc (List.mem_cons_self ..))
        (hvoter _ (List.mem_cons_self ..))
      obtain ⟨hr₁, hmembers⟩ := (applyConfChange_configures h₁).1.refines hr
      obtain ⟨n', css, hrest⟩ := ih hr₁ hs₁ (fun cc' hcc' => hknown cc' (List.mem_cons_of_mem _ hcc')) fun m hm => by
        rw [hmembers] at hm
        exact hvoter m (List.mem_cons_of_mem _ hm)
      refine ⟨n', cs :: css, ?_⟩
      rw [RawNode.applyConfChanges, h₁]
      change n₁.applyConfChanges ccs >>= _ = _
      rw [hrest]
      rfl

/-- The membership refines two sets. In every run of a node, what a sequence of changes returns is the
history of the sets in ascending order, and the maps and flags agree on them after it; and from any
initial voters and learners the sequence does return, as long as a voter remains. -/
theorem membership_refines {c : Config}
    (hstart : RawNode.restartNode c = .ok n₀ ∨ ∃ serialize peers, RawNode.startNode serialize c peers = .ok n₀) :
    (∀ n, RawNode.Runs (fun _ _ => True) n₀ n → n.raft.Configured ∧
      ∀ ccs n' css, n.applyConfChanges ccs = .ok (n', css) → n'.raft.Configured ∧
        n'.raft.members = ccs.foldl Membership.apply n.raft.members ∧
        css = (n.raft.members.history ccs).map Membership.confState) ∧
    ∀ ccs, (∀ cc ∈ ccs, ConfChange.Known cc) → (∀ m ∈ n₀.raft.members.history ccs, m.voters ≠ ∅) →
      ∃ n', n₀.applyConfChanges ccs = .ok (n', (n₀.raft.members.history ccs).map Membership.confState) := by
  obtain ⟨hconf, hsteady⟩ := started_steady hstart
  refine ⟨fun n hrun => ?_, fun ccs hknown hvoter => ?_⟩
  · have hr := hrun.configured hconf
    exact ⟨hr, fun ccs n' css h => applyConfChanges_refines hr h⟩
  · obtain ⟨n', css, h⟩ := applyConfChanges_total hconf hsteady hknown hvoter
    obtain ⟨-, -, rfl⟩ := applyConfChanges_refines hconf h
    exact ⟨n', h⟩

/-- A learner joins and is promoted, the node itself leaves and comes back to learn. -/
def sixChanges : List ConfChange :=
  [{ confChangeType := confChangeAddLearnerNode, nodeId := 4 }, { confChangeType := confChangeRemoveNode, nodeId := 1 },
    { confChangeType := confChangeAddNode, nodeId := 4 }, { confChangeType := confChangeAddLearnerNode, nodeId := 2 },
    { confChangeType := confChangeUpdateNode, nodeId := 3 }, { confChangeType := confChangeAddLearnerNode, nodeId := 1 }]

theorem membership_refines_six : ∃ n₀ n', RawNode.restartNode ((trio false).config 1 {} 0 fun _ => 0) = .ok n₀ ∧
    n₀.applyConfChanges sixChanges = .ok (n', ([⟨{1, 2, 3}, {4}⟩, ⟨{2, 3}, {4}⟩, ⟨{2, 3, 4}, ∅⟩, ⟨{2, 3, 4}, ∅⟩,
      ⟨{2, 3, 4}, ∅⟩, ⟨{2, 3, 4}, {1}⟩] : List Membership).map Membership.confState) := by
  obtain ⟨n₀, hstart, hkeys⟩ := exists_ok_of_any
    (x := RawNode.restartNode ((trio false).config 1 {} 0 fun _ => 0))
    (p := fun n => decide (n.raft.prs.keys = [3, 2, 1] ∧ n.raft.learnerPrs.keys = [])) (by decide +kernel)
  have hmembers : n₀.raft.members = ⟨{1, 2, 3}, ∅⟩ := by
    obtain ⟨hvoters, hlearners⟩ := of_decide_eq_true hkeys
    rw [Raft.members, hvoters, hlearners]
    decide
  have hhistory : n₀.raft.members.history sixChanges = [⟨{1, 2, 3}, {4}⟩, ⟨{2, 3}, {4}⟩, ⟨{2, 3, 4}, ∅⟩,
      ⟨{2, 3, 4}, ∅⟩, ⟨{2, 3, 4}, ∅⟩, ⟨{2, 3, 4}, {1}⟩] := by
    rw [hmembers]
    decide
  obtain ⟨n', h⟩ := (membership_refines (Or.inl hstart)).2 sixChanges (by decide) (by rw [hhistory]; decide)
  rw [hhistory] at h
  exact ⟨n₀, n', hstart, h⟩

end Returns

end RaftEtcd
