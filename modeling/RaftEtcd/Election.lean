import RaftEtcd.Refine.Trace

/-! Election safety: no two nodes lead in one term, as long as no node counts an answer to a
pre-vote as a vote. -/
namespace RaftEtcd
open Consensus
variable {cfg : ClusterConfig} {c : Cluster}

theorem ClusterGood.of_reachable (hc : Cluster.Reachable cfg Cluster.NoStalePreVote c) : ClusterGood cfg c := by
  induction hc with
  | refl => exact .init
  | tail _ hstep ih =>
      obtain ⟨a, ha, rfl⟩ := hstep
      have hmove : Moves cfg False _ _ := step_moves ih ha False.elim
      exact hmove.good ih

/-- In every run in which no granted pre-vote reaches a candidate of the term, each term has at
most one leader. -/
theorem election_safety (hc : Cluster.Reachable cfg Cluster.NoStalePreVote c) {m n t : Nat} (hm : c.Leads m t)
    (hn : c.Leads n t) : m = n := by
  obtain ⟨x, hx, hxl, hxt⟩ := hm
  obtain ⟨y, hy, hyl, hyt⟩ := hn
  by_cases hv : 2 ≤ cfg.voters.length
  · obtain ⟨s, hs, -⟩ := Lifted.init.run hv (fun _ _ _ h => h) hc
    have hnode := hs.node hx
    have hnode' := hs.node hy
    refine hs.inv.votes.leader_unique ?_ ?_ ?_
    · rw [hnode]
      exact Raft.abs_role_leader.mpr hxl
    · rw [hnode']
      exact Raft.abs_role_leader.mpr hyl
    · rw [hnode, hnode']
      exact hxt.trans hyt.symm
  · -- a leader is a voter, and there is at most one
    have hg := ClusterGood.of_reachable hc
    obtain ⟨hgx, rfl, -⟩ := hg.up m x hx
    obtain ⟨hgy, rfl, -⟩ := hg.up n y hy
    obtain ⟨i, hi, hxi⟩ := List.mem_iff_getElem.mp (hgx.leader_voter hxl)
    obtain ⟨j, hj, hyj⟩ := List.mem_iff_getElem.mp (hgy.leader_voter hyl)
    have hij : i = j := by omega
    subst hij
    rw [← hxi, hyj]

section StaleAnswer

/-- The messages of the first campaigns: an empty log and term 1. -/
def campaignMsg (type : MessageType) (from_ to_ : Nat) : Message :=
  { type := type, from_ := from_, to_ := to_, term := 1 }

/-- Nodes 1 and 2 ask for pre-votes and get them, 2 is elected by 3. What is left on the net is the
pre-vote that 3 granted to 1. -/
def oneElected : List Action :=
  [.start 1 0 fun _ => 0, .start 2 0 fun _ => 0, .start 3 0 fun _ => 0,
    .campaign 1, .ready 1, .campaign 2, .ready 2,
    .deliver (campaignMsg .msgPreVote 1 2), .ready 2,
    .deliver (campaignMsg .msgPreVote 1 3), .ready 3,
    .deliver (campaignMsg .msgPreVote 2 3), .ready 3,
    .deliver (campaignMsg .msgPreVoteResp 2 1), .ready 1,
    .deliver (campaignMsg .msgPreVoteResp 3 2), .ready 2,
    .deliver (campaignMsg .msgVote 2 3), .ready 3,
    .deliver (campaignMsg .msgVoteResp 3 2)]

theorem election_safety_one_elected :
    (Cluster.after (trio true) oneElected).Leads 2 1 ∧
      ∀ n, (Cluster.after (trio true) oneElected).Leads n 1 → n = 2 := by
  have hlead : (Cluster.after (trio true) oneElected).Leads 2 1 := by decide
  refine ⟨hlead, fun n hn => ?_⟩
  exact election_safety (Cluster.exec_runs _ _ _ _ (by decide)) hn hlead

def twoElected : List Action := oneElected ++ [.deliver (campaignMsg .msgPreVoteResp 3 1)]

/-- The answer that comes late finds node 1 a candidate of term 1, and makes it a second leader. -/
theorem two_leaders_by_stale_pre_vote :
    Cluster.Reachable (trio true) Cluster.AnyStep (Cluster.after (trio true) twoElected) ∧
      (Cluster.after (trio true) twoElected).Leads 1 1 ∧ (Cluster.after (trio true) twoElected).Leads 2 1 :=
  ⟨Cluster.after_reachable _ _, by decide, by decide⟩

end StaleAnswer

end RaftEtcd
