import RaftEtcd.Forwarding
import RaftEtcd.ReadDelivery

/-! The two questions that the server asks about a `Ready`: whether it carries anything, and whether
it has to be on disk before its messages are sent. Each is answered from the state that `ready` saw. -/
namespace RaftEtcd
variable {n n' : RawNode} {rd : Ready}

/-- What a `Ready` takes from the node. -/
structure Ready.Of (rd : Ready) (n : RawNode) : Prop where
  softState : rd.softState = if n.raft.softState ≠ n.prevSoftState then some n.raft.softState else none
  hardState : rd.hardState = if n.raft.hardState ≠ n.prevHardState then n.raft.hardState else {}
  readState : rd.readState = n.raft.readStates
  entries : rd.entries = n.raft.raftLog.unstable.entries
  snapshot : rd.snapshot = n.raft.raftLog.unstable.snapshot.getD {}
  committed : n.raft.raftLog.nextEntries = .ok rd.committedEntries
  messages : rd.messages = n.raft.msgs
  mustSync : rd.mustSync = isMustSync n.raft.hardState rd.hardState rd.entries.length

theorem ready_of (h : n.ready = .ok (rd, n')) : rd.Of n := by
  obtain ⟨rd₁, hnew, h⟩ := bind_ok h
  obtain rfl := (Prod.mk.inj (Except.ok.inj h)).1
  obtain ⟨es, hes, hnew⟩ := bind_ok hnew
  obtain rfl := Except.ok.inj hnew
  exact ⟨rfl, rfl, rfl, rfl, rfl, hes, rfl, rfl⟩

/-! ### Whether it carries anything -/

/-- Something other than a read state waits to be handed out. -/
def RawNode.hasUpdates (n : RawNode) : Bool :=
  n.raft.softState ≠ n.prevSoftState || (!n.raft.hardState.isEmptyState && n.raft.hardState ≠ n.prevHardState) ||
    !(n.raft.raftLog.unstable.snapshot.getD {}).isEmpty || !n.raft.msgs.isEmpty ||
    !n.raft.raftLog.unstable.entries.isEmpty || n.raft.raftLog.hasNextEntries

theorem hasReady_eq (n : RawNode) : n.hasReady = (n.hasUpdates || !n.raft.readStates.isEmpty) := by
  unfold RawNode.hasReady RawNode.hasUpdates
  dsimp only
  cases n.raft.raftLog.unstable.snapshot <;> rfl

theorem containsUpdates_eq (h : rd.Of n) : rd.containsUpdates = (n.hasUpdates || n.raft.readStates.isEmpty) := by
  have hsoft : rd.softState.isSome = decide (n.raft.softState ≠ n.prevSoftState) := by
    rw [h.softState]
    split
    · rename_i hne
      exact (decide_eq_true hne).symm
    · rename_i hsame
      exact (decide_eq_false hsame).symm
  have hhard : (!rd.hardState.isEmptyState) =
      (!n.raft.hardState.isEmptyState && decide (n.raft.hardState ≠ n.prevHardState)) := by
    rw [h.hardState]
    split
    · rename_i hne
      rw [decide_eq_true hne, Bool.and_true]
    · rename_i hsame
      rw [decide_eq_false hsame, Bool.and_false]
      rfl
  have hcommitted : (!rd.committedEntries.isEmpty) = n.raft.raftLog.hasNextEntries := by
    have hannounced := RaftLog.nextEntries_announced h.committed
    rw [← List.isEmpty_iff] at hannounced
    cases hempty : rd.committedEntries.isEmpty <;> simp_all
  unfold Ready.containsUpdates RawNode.hasUpdates
  rw [hsoft, hhard, hcommitted, h.snapshot, h.entries, h.messages, h.readState]
  simp only [Bool.or_assoc]
  grind

/-- `has_ready` and `contains_updates` agree exactly if something besides read states waits: they read the
list of read states the opposite way. -/
theorem hasReady_containsUpdates_iff (h : n.ready = .ok (rd, n')) :
    n.hasReady = rd.containsUpdates ↔ n.hasUpdates = true := by
  rw [hasReady_eq, containsUpdates_eq (ready_of h)]
  cases n.hasUpdates <;> cases n.raft.readStates.isEmpty <;> decide

/-- The second server has heard from a leader and advanced what came of it; then the answer to a read comes. -/
def readAnswered : Result RawNode := do
  let n ← followsFirst 2
  let (rd, n) ← n.ready
  (n.advance rd).run
    (.step { type := .msgReadIndexResp, from_ := 1, to_ := 2, term := 1, entries := [{ data := [7] }] })

theorem hasReady_containsUpdates_iff_heard : ∃ n n' rd, followsFirst 2 = .ok n ∧ n.ready = .ok (rd, n') ∧
    n.hasReady = rd.containsUpdates := by
  obtain ⟨n, hn, hcheck⟩ : ∃ n, followsFirst 2 = .ok n ∧ (n.hasUpdates && n.ready.toOption.isSome) = true :=
    exists_ok_of_any (by decide +kernel)
  obtain ⟨hupdates, hready⟩ := Bool.and_eq_true_iff.mp hcheck
  obtain ⟨⟨rd, n'⟩, hready⟩ := Option.isSome_iff_exists.mp hready
  cases hrun : n.ready with
  | error e =>
      rw [hrun] at hready
      cases hready
  | ok p => exact ⟨n, p.2, p.1, hn, hrun, (hasReady_containsUpdates_iff hrun).mpr hupdates⟩

/-- The answer to a read is announced, and the `Ready` that carries it looks empty. -/
theorem read_state_looks_empty : ∃ n n' rd, readAnswered = .ok n ∧ n.ready = .ok (rd, n') ∧
    n.hasReady = true ∧ rd.readState.map ReadState.requestCtx = [[7]] ∧ rd.containsUpdates = false := by
  obtain ⟨⟨n, rd, n'⟩, hrun, hcheck⟩ : ∃ p, (do
      let n ← readAnswered
      let (rd, n') ← n.ready
      .ok (n, rd, n')) = (Except.ok p : Result _) ∧
      decide (p.1.hasReady = true ∧ p.2.1.readState.map ReadState.requestCtx = [[7]] ∧
        p.2.1.containsUpdates = false) = true := exists_ok_of_any (by decide +kernel)
  obtain ⟨n₁, hn, hrun⟩ := bind_ok hrun
  obtain ⟨⟨rd₁, n₂⟩, hready, hrun⟩ := bind_ok hrun
  simp only [Except.ok.injEq, Prod.mk.injEq] at hrun
  obtain ⟨rfl, rfl, rfl⟩ := hrun
  obtain ⟨hhas, hreads, hcontains⟩ := of_decide_eq_true hcheck
  exact ⟨_, _, _, hn, hready, hhas, hreads, hcontains⟩

/-! ### Whether it has to be on disk first -/

/-- A `Ready` with the node that it was taken from and the hard state that was recorded then. -/
structure HandedReady where
  node : RawNode
  recorded : HardState
  ready : Ready

/-- A `Ready` with entries, or with another term or vote than recorded, is to be on disk first. -/
def HandedReady.Synced (h : HandedReady) : Prop :=
  h.ready.entries ≠ [] ∨ h.node.raft.term ≠ h.recorded.term ∨ h.node.raft.vote ≠ h.recorded.vote →
    h.ready.mustSync = true

/-- A node with the hard state that `advance` recorded last. -/
structure SyncRun where
  node : RawNode
  recorded : HardState
  handed : List HandedReady := []

namespace SyncRun
variable {s s' : SyncRun}

/-- Operations on the node, `ready`, and `advance` with a `Ready` that was handed out. -/
inductive Step : SyncRun → SyncRun → Prop
  | operate {s : SyncRun} {a : NodeAction} {n : RawNode} : a.IsBetween → s.node.run a = .ok n →
      Step s { s with node := n }
  | ready {s : SyncRun} {rd : Ready} {n : RawNode} : s.node.ready = .ok (rd, n) →
      Step s { s with node := n, handed := s.handed ++ [{ node := s.node, recorded := s.recorded, ready := rd }] }
  | advance {s : SyncRun} {h : HandedReady} : h ∈ s.handed →
      Step s { s with
        node := s.node.advance h.ready
        recorded := if h.ready.hardState.isEmptyState then s.recorded else h.ready.hardState }

def Runs : SyncRun → SyncRun → Prop := Relation.ReflTransGen Step

/-- The node remembers what was recorded, and was asked with it. -/
structure Invariant (s : SyncRun) : Prop where
  prev : s.node.prevHardState = s.recorded
  handed : ∀ h ∈ s.handed, h.ready.Of h.node ∧ h.node.prevHardState = h.recorded

theorem applyConfChange_prev {cc : ConfChange} {cs : ConfState} (h : n.applyConfChange cc = .ok (n', cs)) :
    n'.prevHardState = n.prevHardState := by
  have hend : ∀ {x : Result Raft}, (x >>= fun raft =>
      (Except.ok ({ n with raft := raft }, RawNode.confState { n with raft := raft }) : Result _)) = .ok (n', cs) →
      n'.prevHardState = n.prevHardState := by
    intro x h
    obtain ⟨raft, -, h⟩ := bind_ok h
    rw [← (Prod.mk.inj (Except.ok.inj h)).1]
  unfold RawNode.applyConfChange at h
  split at h
  · exact hend h
  split at h
  · exact hend h
  split at h
  · exact hend h
  split at h
  · exact hend h
  split at h
  · exact hend h
  · exact hend h

theorem run_prev {a : NodeAction} (ha : a.IsBetween) (h : n.run a = .ok n') : n'.prevHardState = n.prevHardState := by
  cases run_operates h with
  | refuses message same => rw [same]
  | steps msg message r' st step node => rw [node]
  | ticks action r' tick node => rw [node]
  | configures cc action cs apply => exact applyConfChange_prev apply
  | readies action rd ready =>
      rw [action] at ha
      exact ha.elim
  | advances rd action node =>
      rw [action] at ha
      exact ha.elim
  | stores storage action node => rw [node]

theorem Invariant.step (h : s.Invariant) (hs : Step s s') : s'.Invariant := by
  cases hs with
  | operate ha hrun => exact ⟨(run_prev ha hrun).trans h.prev, h.handed⟩
  | @ready rd n hready =>
      constructor
      · rw [ready_frame hready]
        exact h.prev
      · intro g hg
        rcases List.mem_append.mp hg with hg | hg
        · exact h.handed g hg
        · obtain rfl := List.mem_singleton.mp hg
          exact ⟨ready_of hready, h.prev⟩
  | @advance g hg =>
      refine ⟨?_, h.handed⟩
      unfold RawNode.advance
      simp only
      rw [h.prev]
      cases g.ready.hardState.isEmptyState <;> rfl

theorem Invariant.runs (h : s.Invariant) (hs : Runs s s') : s'.Invariant := by
  induction hs with
  | refl => exact h
  | tail _ hstep ih => exact ih.step hstep

end SyncRun

/-- The flag is raised where it should be exactly if there are entries, or the term and the vote are the recorded
ones: a changed hard state is compared with itself. -/
theorem HandedReady.synced_iff {h : HandedReady} (hof : h.ready.Of h.node) (hprev : h.node.prevHardState = h.recorded) :
    h.Synced ↔ h.node.raft.raftLog.unstable.entries ≠ [] ∨
      h.node.raft.term = h.recorded.term ∧ h.node.raft.vote = h.recorded.vote := by
  have hflag : h.ready.mustSync = true ↔ h.ready.entries ≠ [] ∨
      h.node.raft.vote ≠ h.ready.hardState.vote ∨ h.node.raft.term ≠ h.ready.hardState.term := by
    rw [hof.mustSync]
    simp [isMustSync, Raft.hardState, or_assoc]
  rw [← hof.entries, HandedReady.Synced, hflag]
  constructor
  · intro hsynced
    by_contra hno
    rw [not_or, not_and_or] at hno
    obtain ⟨hnil, hchanged⟩ := hno
    -- the hard state is handed out, and equals itself
    have hne : h.node.raft.hardState ≠ h.node.prevHardState := by
      intro hsame
      rw [hprev] at hsame
      rcases hchanged with hterm | hvote
      · exact hterm (congrArg HardState.term hsame)
      · exact hvote (congrArg HardState.vote hsame)
    have hself : h.ready.hardState = h.node.raft.hardState := by rw [hof.hardState, if_pos hne]
    rcases hsynced (Or.inr hchanged) with hentries | hvote | hterm
    · exact hnil hentries
    · exact hvote (by rw [hself]; rfl)
    · exact hterm (by rw [hself]; rfl)
  · rintro (hentries | ⟨hterm, hvote⟩) (hentries' | hterm' | hvote')
    · exact Or.inl hentries
    · exact Or.inl hentries
    · exact Or.inl hentries
    · exact Or.inl hentries'
    · exact absurd hterm hterm'
    · exact absurd hvote hvote'

theorem mustSync_iff {n₀ : RawNode} {s : SyncRun} (hs : SyncRun.Runs { node := n₀, recorded := n₀.prevHardState } s) :
    ∀ h ∈ s.handed, h.Synced ↔ h.node.raft.raftLog.unstable.entries ≠ [] ∨
      h.node.raft.term = h.recorded.term ∧ h.node.raft.vote = h.recorded.vote := by
  intro h hmem
  have hinit : SyncRun.Invariant { node := n₀, recorded := n₀.prevHardState } :=
    ⟨rfl, fun _ hg => absurd hg List.not_mem_nil⟩
  obtain ⟨hof, hprev⟩ := (hinit.runs hs).handed h hmem
  exact HandedReady.synced_iff hof hprev

/-- A node does one thing and is asked for its `Ready`. -/
def askAfter (a : NodeAction) (n₀ : RawNode) : Result (RawNode × Ready × SyncRun) := do
  let n ← n₀.run a
  let (rd, n') ← n.ready
  let h : HandedReady := { node := n, recorded := n₀.prevHardState, ready := rd }
  .ok (n, rd, { node := n', recorded := n₀.prevHardState, handed := [h] })

theorem askAfter_runs {a : NodeAction} {n₀ : RawNode} {s : SyncRun} (ha : a.IsBetween)
    (h : askAfter a n₀ = .ok (n, rd, s)) : SyncRun.Runs { node := n₀, recorded := n₀.prevHardState } s ∧
      s.handed = [{ node := n, recorded := n₀.prevHardState, ready := rd }] := by
  obtain ⟨n₁, hrun, h⟩ := bind_ok h
  obtain ⟨⟨rd₁, n'⟩, hready, h⟩ := bind_ok h
  simp only [Except.ok.injEq, Prod.mk.injEq] at h
  obtain ⟨rfl, rfl, rfl⟩ := h
  exact ⟨.tail (.tail .refl (.operate ha hrun)) (.ready hready), rfl⟩

/-- The only voter elects itself, which leaves an entry to be stored. -/
theorem mustSync_iff_campaign : ∃ n₀ n rd s, RawNode.restartNode loneVoter = .ok n₀ ∧
    askAfter .campaign n₀ = .ok (n, rd, s) ∧ ∀ h ∈ s.handed, h.Synced := by
  obtain ⟨p, hrun, hcheck⟩ : ∃ p, (RawNode.restartNode loneVoter >>= askAfter .campaign) = .ok p ∧
      (!p.1.raft.raftLog.unstable.entries.isEmpty) = true := exists_ok_of_any (by decide +kernel)
  obtain ⟨n₀, hn, hrun⟩ := bind_ok hrun
  obtain ⟨hruns, hhanded⟩ := askAfter_runs (a := .campaign) trivial hrun
  refine ⟨n₀, p.1, p.2.1, p.2.2, hn, hrun, fun h hmem => (mustSync_iff hruns h hmem).mpr (Or.inl ?_)⟩
  rw [hhanded] at hmem
  rw [List.mem_singleton.mp hmem]
  simpa using hcheck

/-- A voter grants its vote, and the `Ready` with the vote need not be on disk before the answer is sent. -/
theorem vote_not_synced : ∃ n₀ n rd s, firstVoter = .ok n₀ ∧
    askAfter (.step { type := .msgVote, from_ := 2, to_ := 1, term := 1 }) n₀ = .ok (n, rd, s) ∧
    SyncRun.Runs { node := n₀, recorded := n₀.prevHardState } s ∧ n₀.prevHardState.vote = 0 ∧ n.raft.vote = 2 ∧
    rd.messages.map Message.type = [.msgVoteResp] ∧ rd.mustSync = false ∧ ¬ ∀ h ∈ s.handed, h.Synced := by
  obtain ⟨⟨n₀, n, rd, s⟩, hrun, hcheck⟩ : ∃ p, (do
      let n₀ ← firstVoter
      let p ← askAfter (.step { type := .msgVote, from_ := 2, to_ := 1, term := 1 }) n₀
      .ok (n₀, p)) = (Except.ok p : Result _) ∧
      decide (p.1.prevHardState.vote = 0 ∧ p.2.1.raft.vote = 2 ∧ p.2.2.1.messages.map Message.type = [.msgVoteResp] ∧
        p.2.2.1.mustSync = false) = true := exists_ok_of_any (by decide +kernel)
  obtain ⟨n₁, hn, hrun⟩ := bind_ok hrun
  obtain ⟨q, hask, hrun⟩ := bind_ok hrun
  obtain ⟨rfl, rfl⟩ : n₁ = n₀ ∧ q = (n, rd, s) := by simpa using hrun
  obtain ⟨hold, hnew, hsent, hflag⟩ := of_decide_eq_true hcheck
  obtain ⟨hruns, hhanded⟩ := askAfter_runs (a := .step _) trivial hask
  refine ⟨n₁, n, rd, s, hn, hask, hruns, hold, hnew, hsent, hflag, fun hall => ?_⟩
  have hsynced := hall _ (hhanded ▸ List.mem_singleton.mpr rfl)
  have hchanged : n.raft.vote ≠ n₁.prevHardState.vote := by
    rw [show n.raft.vote = 2 from hnew, show n₁.prevHardState.vote = 0 from hold]
    decide
  exact Bool.false_ne_true (hflag.symm.trans (hsynced (Or.inr (Or.inr hchanged))))

end RaftEtcd
