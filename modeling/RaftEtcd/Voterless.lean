import RaftEtcd.Draining
import RaftEtcd.Indexing

/-! The position at which `maybe_commit` reads the match indexes of the voters. It is a difference of unsigned numbers,
and is in the buffer exactly if there is a voter. -/
namespace RaftEtcd
variable {r : Raft} {msg : Message} {n : RawNode}

namespace Raft

/-- The match indexes of the voters in order, as `maybe_commit` has them in its buffer. -/
def matchBuf (r : Raft) : List Nat := ((AssocMap.values r.prs).map Progress.matched).insertionSort (· ≤ ·)

/-- The position of the commit index: a difference of two numbers of 64 bits without sign. -/
def commitPosition (r : Raft) : Nat := (r.matchBuf.length + 2 ^ 64 - r.quorum) % 2 ^ 64

theorem matchBuf_length (r : Raft) : r.matchBuf.length = r.prs.keys.length := by
  rw [matchBuf, List.length_insertionSort]
  simp [AssocMap.values, AList.keys, List.keys]

theorem commitPosition_lt_iff : r.commitPosition < r.matchBuf.length ↔ r.prs.keys ≠ [] := by
  rw [commitPosition, matchBuf_length, quorum, ← List.length_pos_iff]
  generalize r.prs.keys.length = k
  constructor
  · intro h
    omega
  · intro hpos
    have hback : k + 2 ^ 64 - (k / 2 + 1) = k - (k / 2 + 1) + 2 ^ 64 := by omega
    rw [hback, Nat.add_mod_right]
    have hle := Nat.mod_le (k - (k / 2 + 1)) (2 ^ 64)
    omega

/-- The read fails exactly if the position is not in the buffer. -/
theorem maybeCommit_misreads_iff : r.maybeCommit = .error commitOutOfRange ↔ ¬ r.commitPosition < r.matchBuf.length := by
  rw [commitPosition_lt_iff, not_not]
  constructor
  · intro h
    by_contra hvoter
    exact maybeCommit_avoids commit_misindexed (fun _ => hvoter) _ h rfl
  · exact maybeCommit_voterless

end Raft

/-- The news of a learner reach `maybe_commit` when there is no voter. -/
theorem leaderAppResp_voterless {p : Progress} (hw : r.Windowed) (haccept : msg.reject = false) (hnone : r.prs.keys = [])
    (hp : r.getProgress msg.from_ = some p) (hfresh : p.matched < msg.index) :
    r.leaderAppResp msg = .error commitOutOfRange := by
  have hget := Raft.getProgress_modifyProgress r msg.from_ msg.from_ fun p => { p with recentActive := true }
  rw [if_pos rfl, hp, Option.map_some] at hget
  have hactive : Progress.Sound { p with recentActive := true } := ⟨(hw.get hp).next_pos, (hw.get hp).window⟩
  obtain ⟨q, hack, -⟩ := (hactive.maybeUpdate msg.index).ack msg.index
  unfold Raft.leaderAppResp
  dsimp only
  rw [hget]
  simp only [haccept, Bool.false_eq_true, if_false]
  split
  · rename_i q' hq'
    have hold : ¬ p.matched < msg.index := of_decide_eq_false (Prod.mk.inj hq').2
    exact absurd hfresh hold
  · rename_i q' hq'
    rw [← (Prod.mk.inj hq').1]
    change (Raft.progressAfterAck (Progress.maybeUpdate { p with recentActive := true } msg.index).1 msg.index >>= _) = _
    rw [hack]
    change (Raft.maybeCommit _ >>= _) = _
    rw [maybeCommit_voterless]
    · rfl
    · rw [(modifyProgress_sends _ _ _).keys, (modifyProgress_sends _ _ _).keys]
      exact hnone

theorem remove_misreads {cc : ConfChange} (hnode : cc.nodeId ≠ 0) (hty : cc.confChangeType = confChangeRemoveNode)
    (hloses : n.raft.LosesVoters cc.nodeId) : n.run (.applyConfChange cc) = .error commitOutOfRange := by
  have hremove : n.raft.removeNode cc.nodeId = .error commitOutOfRange := removeNode_voterless hloses.1 hloses.2
  have happly : n.applyConfChange cc = .error commitOutOfRange := by
    rw [RawNode.applyConfChange, hty]
    simp only [if_neg hnode]
    rw [if_neg (by decide), if_neg (by decide), if_pos trivial, hremove]
    rfl
  rw [RawNode.run, happly]
  rfl

/-- The actions that misread do so, where the windows are sound. -/
theorem RawNode.Misreads.fails {a : NodeAction} (hw : n.raft.Windowed) (h : n.Misreads a) : n.run a = .error commitOutOfRange := by
  cases h with
  | removes cc node type loses => exact remove_misreads node type loses
  | hears msg news =>
      obtain ⟨hl, hty, haccept, hterm, hnone, p, hp, hfresh⟩ := news
      have hget : n.raft.getProgress msg.from_ = some p := by
        have hvoter : n.raft.prs.lookup msg.from_ = none := by
          rw [AList.lookup_eq_none, AList.mem_keys, hnone]
          exact List.not_mem_nil
        rw [Raft.getProgress, hvoter]
        exact hp
      have hsome := Option.isSome_of_eq_some hget
      have hstep : n.stepRaft msg = .error commitOutOfRange := by
        rw [RawNode.stepRaft, step_leader_appResp hl hty hterm hsome, leaderAppResp_voterless hw haccept hnone hget hfresh]
        rfl
      have hlocal : msg.isLocalMsg = false := by
        rw [Message.isLocalMsg, hty]
        rfl
      rw [RawNode.run, RawNode.step, hlocal, if_neg (by decide), hsome, Bool.true_or, if_pos rfl, hstep]
      rfl

/-- No action of the list misreads in the state in which it comes. -/
def RawNode.Careful (n : RawNode) : List NodeAction → Prop
  | [] => True
  | a :: as => ¬ n.Misreads a ∧ ∀ n', n.run a = .ok n' → n'.Careful as

/-- A run without such actions reads within the buffer. -/
theorem RawNode.Careful.reads {as : List NodeAction} (h : n.Careful as) : n.runAll as ≠ .error commitOutOfRange := by
  induction as generalizing n with
  | nil => exact nofun
  | cons a as ih =>
      obtain ⟨ha, hrest⟩ := h
      intro hfails
      rw [RawNode.runAll] at hfails
      cases hrun : n.run a with
      | error e =>
          rw [hrun] at hfails
          exact run_avoids commit_misindexed (fun _ => ha) e hrun (Except.error.inj hfails)
      | ok n' =>
          rw [hrun] at hfails
          exact ih (hrest n' hrun) hfails

theorem careful_of_reads {as : List NodeAction} (hw : n.raft.Windowed) (h : n.runAll as ≠ .error commitOutOfRange) :
    n.Careful as := by
  induction as generalizing n with
  | nil => trivial
  | cons a as ih =>
      rw [RawNode.runAll] at h
      refine ⟨fun hmis => ?_, fun n' hrun => ?_⟩
      · rw [hmis.fails hw] at h
        exact h rfl
      · rw [hrun] at h
        exact ih (run_windowed hw hrun) h

/-- In every run, from whatever voters and learners and with changes in whatever order: no action ends in a read beyond
the buffer if the last voter is never removed while a learner stays, and news of a learner never come to a leader
without voters. Where the windows are sound these are all the runs in which there is no such read. -/
theorem commit_position_in_range_iff (n : RawNode) (as : List NodeAction) :
    (∀ r : Raft, r.maybeCommit = .error commitOutOfRange ↔ ¬ r.commitPosition < r.matchBuf.length) ∧
    (n.Careful as → n.runAll as ≠ .error commitOutOfRange) ∧
    (n.raft.Windowed → (n.runAll as ≠ .error commitOutOfRange ↔ n.Careful as)) :=
  ⟨fun _ => Raft.maybeCommit_misreads_iff, fun h => h.reads, fun hw => ⟨careful_of_reads hw, fun h => h.reads⟩⟩

/-- A voter is removed whose learner stays. -/
theorem voterless_commit_misreads : ∃ n, RawNode.restartNode voterWithLearner = .ok n ∧
    n.runAll [.applyConfChange { confChangeType := confChangeRemoveNode, nodeId := 1 }] = .error commitOutOfRange ∧
      ¬ (n.raft.delProgress 1).commitPosition < (n.raft.delProgress 1).matchBuf.length := by
  obtain ⟨n, hn, hcheck⟩ : ∃ n, RawNode.restartNode voterWithLearner = .ok n ∧
      decide ((n.raft.delProgress 1).prs.keys = [] ∧ (n.raft.delProgress 1).learnerPrs.keys ≠ []) = true :=
    exists_ok_of_any (by decide +kernel)
  obtain ⟨hvoters, hlearners⟩ := of_decide_eq_true hcheck
  refine ⟨n, hn, ?_, Raft.maybeCommit_misreads_iff.mp (maybeCommit_voterless hvoters)⟩
  have hfails : n.run (.applyConfChange { confChangeType := confChangeRemoveNode, nodeId := 1 }) = .error commitOutOfRange :=
    remove_misreads Nat.one_ne_zero rfl ⟨hvoters, hlearners⟩
  rw [RawNode.runAll, hfails]
  rfl

end RaftEtcd
