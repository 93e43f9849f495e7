import RaftEtcd.NodeRun

/-! `Raft::restore`: a snapshot takes the place of the log, and the peers are built anew from the members
that it names. Each round of `restore_node` prints the progress of this node, which is there only once
its own turn has come. -/
namespace RaftEtcd
variable {r r' : Raft} {s : Snapshot}

/-- The progress that a member gets from a snapshot. -/
def Raft.restoredProgress (r : Raft) (isLearner : Bool) (id : Nat) : Progress :=
  { Progress.new r.maxInflight with
    next := r.raftLog.lastIndex + 1
    matched := if id = r.id then r.raftLog.lastIndex else 0
    isLearner := isLearner }

/-- What the loop over some members leaves: their progresses in one map, none of theirs in the other. -/
structure Refilled (r : Raft) (ids : List Nat) (isLearner : Bool) (r' : Raft) : Prop where
  id : r'.id = r.id
  log : r'.raftLog = r.raftLog
  inflight : r'.maxInflight = r.maxInflight
  voters : ∀ k, r'.prs.lookup k =
    if k ∈ ids ∧ isLearner = false then some (r.restoredProgress false k) else r.prs.lookup k
  learners : ∀ k, r'.learnerPrs.lookup k =
    if k ∈ ids then if isLearner then some (r.restoredProgress true k) else none else r.learnerPrs.lookup k

/-- One round: the progress of a member is set, and then that of this node is printed. -/
def Raft.restoreRound (r : Raft) (isLearner : Bool) (node : Nat) : Result Raft := do
  let next := r.raftLog.lastIndex + 1
  let matched := if node = r.id then next - 1 else 0
  let r := if node = r.id then { r with isLearner := isLearner } else r
  let r ← r.setProgress node matched next isLearner
  match r.getProgress r.id with
  | none => .error "get_progress(id_) is null"
  | some _ => .ok r

theorem restoreNode_cons (r : Raft) (node : Nat) (nodes : List Nat) (isLearner : Bool) :
    r.restoreNode (node :: nodes) isLearner = (r.restoreRound isLearner node >>= fun r => r.restoreNode nodes isLearner) := by
  rw [Raft.restoreNode, List.foldlM_cons]
  rfl

namespace Refilled
variable {r₁ r₂ : Raft} {ids ids' : List Nat} {b : Bool}

theorem refl (r : Raft) (b : Bool) : Refilled r [] b r :=
  ⟨rfl, rfl, rfl, fun _ => by simp, fun _ => by simp⟩

theorem progress (h : Refilled r ids b r₁) (c : Bool) (k : Nat) : r₁.restoredProgress c k = r.restoredProgress c k := by
  rw [Raft.restoredProgress, Raft.restoredProgress, h.id, h.log, h.inflight]

theorem trans (h : Refilled r ids b r₁) (h' : Refilled r₁ ids' b r₂) : Refilled r (ids ++ ids') b r₂ where
  id := h'.id.trans h.id
  log := h'.log.trans h.log
  inflight := h'.inflight.trans h.inflight
  voters k := by
    rw [h'.voters, h.voters, h.progress]
    cases b <;> by_cases hk : k ∈ ids <;> by_cases hk' : k ∈ ids' <;> simp [hk, hk']
  learners k := by
    rw [h'.learners, h.learners, h.progress]
    by_cases hk : k ∈ ids <;> by_cases hk' : k ∈ ids' <;> simp [hk, hk']

/-- Who is a member then. -/
theorem getProgress_isSome (h : Refilled r ids b r₁) (k : Nat) :
    (r₁.getProgress k).isSome ↔ k ∈ ids ∨ (r.getProgress k).isSome := by
  have hsome : ∀ r : Raft, (r.getProgress k).isSome ↔ (r.prs.lookup k).isSome ∨ (r.learnerPrs.lookup k).isSome := by
    intro r
    rw [Raft.getProgress]
    cases r.prs.lookup k <;> simp
  rw [hsome, hsome, h.voters, h.learners]
  by_cases hk : k ∈ ids
  · cases b <;> simp [hk]
  · simp [hk]

/-- Learners do not come among the voters. -/
theorem fresh (h : Refilled r ids b r₁) (hfresh : b = true → ∀ k ∈ ids', r.prs.lookup k = none) :
    b = true → ∀ k ∈ ids', r₁.prs.lookup k = none := by
  intro hb k hk
  rw [h.voters, if_neg (by simp [hb])]
  exact hfresh hb k hk

end Refilled

/-- A round sets the progress; whether it ends is up to the progress of this node. -/
theorem restoreRound_eq (r : Raft) {isLearner : Bool} {node : Nat} (hfresh : isLearner = true → r.prs.lookup node = none) :
    ∃ r₁, Refilled r [node] isLearner r₁ ∧ r.restoreRound isLearner node =
      if node = r.id ∨ (r.getProgress r.id).isSome then .ok r₁ else .error "get_progress(id_) is null" := by
  have hset : ∃ r₁, Refilled r [node] isLearner r₁ ∧
      Raft.setProgress (if node = r.id then { r with isLearner := isLearner } else r) node
        (if node = r.id then r.raftLog.lastIndex + 1 - 1 else 0) (r.raftLog.lastIndex + 1) isLearner = .ok r₁ := by
    have hsame : (if node = r.id then { r with isLearner := isLearner } else r) =
        { r with isLearner := if node = r.id then isLearner else r.isLearner } := by
      split <;> rfl
    rw [hsame, Nat.add_sub_cancel]
    cases isLearner with
    | false =>
        refine ⟨_, ?_, rfl⟩
        refine ⟨rfl, rfl, rfl, fun k => ?_, fun k => ?_⟩
        · by_cases hk : k = node
          · subst hk
            simp [Raft.restoredProgress, Progress.new]
          · simp [hk, AList.lookup_insert_ne]
        · by_cases hk : k = node
          · subst hk
            simp [AList.lookup_erase]
          · simp [hk, AList.lookup_erase_ne]
    | true =>
        rw [Raft.setProgress, if_neg (by decide), if_neg (by simp [hfresh rfl])]
        refine ⟨_, ?_, rfl⟩
        refine ⟨rfl, rfl, rfl, fun k => by simp, fun k => ?_⟩
        by_cases hk : k = node
        · subst hk
          simp [Raft.restoredProgress, Progress.new]
        · simp [hk, AList.lookup_insert_ne]
  obtain ⟨r₁, h₁, hset⟩ := hset
  refine ⟨r₁, h₁, ?_⟩
  have hown : (r₁.getProgress r₁.id).isSome ↔ node = r.id ∨ (r.getProgress r.id).isSome := by
    rw [h₁.id, h₁.getProgress_isSome, List.mem_singleton, eq_comm]
  rw [Raft.restoreRound]
  simp only [hset, bind, Except.bind]
  cases hget : r₁.getProgress r₁.id with
  | none =>
      rw [if_neg (by rw [← hown, hget]; exact Bool.false_ne_true)]
  | some p =>
      rw [if_pos (by rw [← hown, hget]; rfl)]

theorem restoreNode_refills {isLearner : Bool} {nodes : List Nat} (hown : (r.getProgress r.id).isSome)
    (hfresh : isLearner = true → ∀ k ∈ nodes, r.prs.lookup k = none) :
    ∃ r', r.restoreNode nodes isLearner = .ok r' ∧ Refilled r nodes isLearner r' := by
  induction nodes generalizing r with
  | nil => exact ⟨r, rfl, .refl r _⟩
  | cons node nodes ih =>
      obtain ⟨r₁, h₁, hround⟩ := restoreRound_eq r fun hb => hfresh hb node (List.mem_cons_self ..)
      rw [if_pos (Or.inr hown)] at hround
      obtain ⟨r', hrest, h'⟩ := ih (by rw [h₁.id, h₁.getProgress_isSome]; exact Or.inr hown)
        (h₁.fresh fun hb k hk => hfresh hb k (List.mem_cons_of_mem node hk))
      refine ⟨r', ?_, h₁.trans h'⟩
      rw [restoreNode_cons, hround]
      exact hrest

/-- While this node has no progress, the first member has to be the node itself. -/
theorem restoreNode_first {isLearner : Bool} {node : Nat} {nodes : List Nat} (hown : ¬ (r.getProgress r.id).isSome)
    (hfresh : isLearner = true → ∀ k ∈ node :: nodes, r.prs.lookup k = none) :
    node = r.id ∧ (∃ r', r.restoreNode (node :: nodes) isLearner = .ok r' ∧ Refilled r (node :: nodes) isLearner r') ∨
      node ≠ r.id ∧ r.restoreNode (node :: nodes) isLearner = .error "get_progress(id_) is null" := by
  obtain ⟨r₁, h₁, hround⟩ := restoreRound_eq r fun hb => hfresh hb node (List.mem_cons_self ..)
  by_cases heq : node = r.id
  · rw [if_pos (Or.inl heq)] at hround
    have hown₁ : (r₁.getProgress r₁.id).isSome := by
      rw [h₁.id, h₁.getProgress_isSome, heq]
      exact Or.inl (List.mem_singleton.mpr rfl)
    obtain ⟨r', hrest, h'⟩ := restoreNode_refills hown₁
      (h₁.fresh fun hb k hk => hfresh hb k (List.mem_cons_of_mem node hk))
    refine Or.inl ⟨heq, r', ?_, h₁.trans h'⟩
    rw [restoreNode_cons, hround]
    exact hrest
  · rw [if_neg (not_or.mpr ⟨heq, hown⟩)] at hround
    refine Or.inr ⟨heq, ?_⟩
    rw [restoreNode_cons, hround]
    rfl

/-- What a restored snapshot should leave: its place in the log, and progresses of its members only. -/
structure Installed (r : Raft) (s : Snapshot) (r' : Raft) : Prop where
  last : r'.raftLog.lastIndex = s.metadata.index
  committed : r'.raftLog.committed = s.metadata.index
  term : r'.raftLog.term s.metadata.index = .ok s.metadata.term
  voters : ∀ id, id ∈ r'.prs.keys ↔ id ∈ s.metadata.confState.nodes
  learners : ∀ id, id ∈ r'.learnerPrs.keys ↔ id ∈ s.metadata.confState.learners
  progress : ∀ id p, r'.prs.lookup id = some p ∨ r'.learnerPrs.lookup id = some p →
    p.next = s.metadata.index + 1 ∧ p.matched = if id = r.id then s.metadata.index else 0

theorem RaftLog.restore_term (l : RaftLog) (s : Snapshot) :
    (l.restore s).term s.metadata.index = .ok s.metadata.term := by
  simp [RaftLog.term, RaftLog.restore, Unstable.restore, RaftLog.firstIndex, RaftLog.lastIndex,
    Unstable.maybeFirstIndex, Unstable.maybeLastIndex, Unstable.maybeTerm]

/-- The log and the peers that the loops of `restore` start with. -/
def Raft.emptied (r : Raft) (s : Snapshot) : Raft :=
  { r with raftLog := r.raftLog.restore s, prs := ∅, learnerPrs := ∅ }

theorem emptied_getProgress (r : Raft) (s : Snapshot) (k : Nat) : (r.emptied s).getProgress k = none := rfl

/-- After both loops the members are those of the snapshot. -/
theorem Refilled.installed {r₁ r₂ : Raft} (h₁ : Refilled (r.emptied s) s.metadata.confState.nodes false r₁)
    (h₂ : Refilled r₁ s.metadata.confState.learners true r₂) : Installed r s r₂ := by
  have hlog : r₂.raftLog = r.raftLog.restore s := h₂.log.trans h₁.log
  have hvoters : ∀ k, r₂.prs.lookup k = if k ∈ s.metadata.confState.nodes then
      some ((r.emptied s).restoredProgress false k) else none := by
    intro k
    rw [h₂.voters, if_neg (by simp), h₁.voters]
    by_cases hk : k ∈ s.metadata.confState.nodes
    · rw [if_pos ⟨hk, rfl⟩, if_pos hk]
    · rw [if_neg (fun h => hk h.1), if_neg hk]
      rfl
  have hlearners : ∀ k, r₂.learnerPrs.lookup k = if k ∈ s.metadata.confState.learners then
      some ((r.emptied s).restoredProgress true k) else none := by
    intro k
    rw [h₂.learners, h₁.learners, h₁.progress]
    by_cases hk : k ∈ s.metadata.confState.learners
    · rw [if_pos hk, if_pos rfl, if_pos hk]
    · rw [if_neg hk, if_neg hk]
      split <;> rfl
  have hkeys : ∀ {m : AssocMap Nat Progress} {ids : List Nat} {f : Nat → Progress},
      (∀ k, m.lookup k = if k ∈ ids then some (f k) else none) → ∀ k, k ∈ m.keys ↔ k ∈ ids := by
    intro m ids f h k
    rw [← AssocMap.lookup_isSome_iff, h]
    by_cases hk : k ∈ ids <;> simp [hk]
  refine ⟨by rw [hlog]; rfl, by rw [hlog]; rfl, by rw [hlog]; exact RaftLog.restore_term _ _, hkeys hvoters,
    hkeys hlearners, fun k p hp => ?_⟩
  have hfresh : ∃ b, p = (r.emptied s).restoredProgress b k := by
    rcases hp with hp | hp
    · rw [hvoters] at hp
      split at hp
      · exact ⟨false, (Option.some.inj hp).symm⟩
      · cases hp
    · rw [hlearners] at hp
      split at hp
      · exact ⟨true, (Option.some.inj hp).symm⟩
      · cases hp
  obtain ⟨b, rfl⟩ := hfresh
  exact ⟨rfl, rfl⟩

/-- The two loops fill the empty maps if this node comes first, and end in the first round if not. -/
theorem emptied_loops (r : Raft) (s : Snapshot) {nodes learners : List Nat} (hdis : ∀ id ∈ nodes, id ∉ learners) :
    (∀ id, (nodes ++ learners).head? = some id → id = r.id) ∧
      (∃ r₁ r₂, (r.emptied s).restoreNode nodes false = .ok r₁ ∧ r₁.restoreNode learners true = .ok r₂ ∧
        Refilled (r.emptied s) nodes false r₁ ∧ Refilled r₁ learners true r₂) ∨
    (∃ id, (nodes ++ learners).head? = some id ∧ id ≠ r.id) ∧
      ((r.emptied s).restoreNode nodes false >>= fun r₁ => r₁.restoreNode learners true) =
        .error "get_progress(id_) is null" := by
  have hnone : ∀ k, ¬ ((r.emptied s).getProgress k).isSome := fun k => by simp [emptied_getProgress]
  cases nodes with
  | nil =>
      cases learners with
      | nil => exact Or.inl ⟨nofun, _, _, rfl, rfl, .refl _ _, .refl _ _⟩
      | cons id ids =>
          rcases restoreNode_first (hnone _) (fun _ k _ => rfl : true = true → ∀ k ∈ id :: ids, _) with
            ⟨heq, r₂, hok, h₂⟩ | ⟨hne, herr⟩
          · refine Or.inl ⟨fun k hk => ?_, _, r₂, rfl, hok, .refl _ _, h₂⟩
            obtain rfl := Option.some.inj hk
            exact heq
          · exact Or.inr ⟨⟨id, rfl, hne⟩, herr⟩
  | cons id ids =>
      rcases restoreNode_first (hnone _) (nofun : false = true → ∀ k ∈ id :: ids, _) with
        ⟨heq, r₁, hok, h₁⟩ | ⟨hne, herr⟩
      · -- no learner is among the voters that the first loop has set
        have hown : (r₁.getProgress r₁.id).isSome := by
          rw [h₁.id, h₁.getProgress_isSome, heq]
          exact Or.inl (List.mem_cons_self ..)
        obtain ⟨r₂, hok₂, h₂⟩ := restoreNode_refills hown (fun _ k hk => by
          rw [h₁.voters, if_neg (fun h => hdis k h.1 hk)]
          rfl : true = true → ∀ k ∈ learners, r₁.prs.lookup k = none)
        refine Or.inl ⟨fun k hk => ?_, r₁, r₂, hok, hok₂, h₁, h₂⟩
        obtain rfl := Option.some.inj hk
        exact heq
      · refine Or.inr ⟨⟨id, rfl, hne⟩, ?_⟩
        rw [herr]
        rfl

/-- A snapshot is installed exactly when the first of the members that it names, voters before learners,
is the node itself, or there is none. -/
theorem restore_installs_iff (hlt : r.raftLog.committed < s.metadata.index)
    (hm : r.raftLog.matchTerm s.metadata.index s.metadata.term = false)
    (hdis : ∀ id ∈ s.metadata.confState.nodes, id ∉ s.metadata.confState.learners)
    (hvoter : r.isLearner = false → r.id ∉ s.metadata.confState.learners) :
    (∃ r', r.restore s = .ok (r', true) ∧ Installed r s r') ↔
      ∀ id, (s.metadata.confState.nodes ++ s.metadata.confState.learners).head? = some id → id = r.id := by
  have hrestore : r.restore s = (do
      let r₁ ← (r.emptied s).restoreNode s.metadata.confState.nodes false
      let r₂ ← r₁.restoreNode s.metadata.confState.learners true
      .ok (r₂, true)) := by
    rw [Raft.restore, if_neg (by omega), hm, if_neg (by decide), if_neg (by simpa using hvoter)]
    rfl
  rcases emptied_loops r s hdis with ⟨hfirst, r₁, r₂, hnodes, hlearners, h₁, h₂⟩ | ⟨⟨id, hid, hne⟩, herr⟩
  · refine iff_of_true ⟨r₂, ?_, h₁.installed h₂⟩ hfirst
    rw [hrestore, hnodes]
    simp only [bind, Except.bind, hlearners]
  · refine iff_of_false ?_ fun hfirst => hne (hfirst id hid)
    rintro ⟨r', hok, -⟩
    rw [hrestore, ← bind_assoc, herr] at hok
    cases hok

/-- The snapshot that a leader of three voters and a learner sends. -/
def snapshotOfFour : Snapshot :=
  { metadata := { index := 5, term := 1, confState := { nodes := [1, 2, 3], learners := [4] } } }

/-- A voter with an empty log. -/
def emptyVoter (id : Nat) : Result Raft := RawNode.raft <$> RawNode.restartNode ((trio false).config id {} 0 fun _ => 0)

theorem emptyVoter_ok (id : Nat) (hid : id = 1 ∨ id = 2) : ∃ r, emptyVoter id = .ok r ∧ r.id = id ∧
    r.isLearner = false ∧ r.raftLog.committed < 5 ∧ r.raftLog.matchTerm 5 1 = false ∧
    ((r.restore snapshotOfFour).toOption.isNone = decide (id = 2)) := by
  obtain ⟨r, hr, hp⟩ := exists_ok_of_any (x := emptyVoter id) (p := fun r => decide (r.id = id ∧ r.isLearner = false ∧
    r.raftLog.committed < 5 ∧ r.raftLog.matchTerm 5 1 = false ∧
    (r.restore snapshotOfFour).toOption.isNone = decide (id = 2))) (by
      rcases hid with rfl | rfl <;> decide +kernel)
  exact ⟨r, hr, of_decide_eq_true hp⟩

theorem restore_installs_iff_first : ∃ r r', emptyVoter 1 = .ok r ∧ r.restore snapshotOfFour = .ok (r', true) ∧
    Installed r snapshotOfFour r' := by
  obtain ⟨r, hr, hid, hvoter, hlt, hm, -⟩ := emptyVoter_ok 1 (Or.inl rfl)
  have hfirst : ∀ id, ([1, 2, 3] ++ [4]).head? = some id → id = r.id := by
    intro id h
    rw [hid, ← Option.some.inj h]
  obtain ⟨r', hok, hin⟩ := (restore_installs_iff (s := snapshotOfFour) hlt hm (by decide) fun _ => by
    rw [hid]; decide).mpr hfirst
  exact ⟨r, r', hr, hok, hin⟩

/-- The second voter of the cluster is not the first that the snapshot names. -/
theorem restore_prints_missing_progress : ∃ r, emptyVoter 2 = .ok r ∧
    r.raftLog.committed < snapshotOfFour.metadata.index ∧
    r.raftLog.matchTerm snapshotOfFour.metadata.index snapshotOfFour.metadata.term = false ∧
    (∀ id ∈ snapshotOfFour.metadata.confState.nodes, id ∉ snapshotOfFour.metadata.confState.learners) ∧
    r.id ∈ snapshotOfFour.metadata.confState.nodes ∧ r.id ∉ snapshotOfFour.metadata.confState.learners ∧
    ∀ p, r.restore snapshotOfFour ≠ .ok p := by
  obtain ⟨r, hr, hid, -, hlt, hm, hfail⟩ := emptyVoter_ok 2 (Or.inr rfl)
  refine ⟨r, hr, hlt, hm, by decide, by rw [hid]; decide, by rw [hid]; decide, fun p hp => ?_⟩
  rw [hp] at hfail
  cases hfail

end RaftEtcd
