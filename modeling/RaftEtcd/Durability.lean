import RaftEtcd.Agreement

/-! What is on disk before anybody hears of it: votes, acknowledged entries, and with them whatever is committed. The
nodes may come and go, and no granted pre-vote reaches a candidate of the term. -/
namespace RaftEtcd
open Consensus
variable {cfg : ClusterConfig} {c c' : Cluster} {n i : Nat} {msg : Message}

/-- Two states of one run, lifted. -/
theorem Lifted.of_runs (hv : 2 ≤ cfg.voters.length) (hc : Cluster.Reachable cfg Cluster.NoStalePreVote c)
    (hr : Cluster.Runs cfg Cluster.NoStalePreVote c c') :
    ∃ s s', Lifted cfg s c ∧ Lifted cfg s' c' ∧ s.Ext Entry.term s' := by
  obtain ⟨s, hs, -⟩ := Lifted.init.run hv (fun _ _ _ h => h) hc
  obtain ⟨s', hs', hext⟩ := hs.run hv (fun _ _ _ h => h) hr
  exact ⟨s, s', hs, hs', hext⟩

namespace Lifted
variable {s s' : Sys Nat Entry}

theorem committed_ok (h : Lifted cfg s c) (n : Nat) : s.CommitOk cfg.voters.toFinset Entry.term (c.servers n).log
    (c.servers n).committed (s.node n).term := by
  have hok := h.inv.commits.commit_node n
  rwa [h.absorbs.node, Server.abs_log, Server.abs_commit, ← h.absorbs.node] at hok

theorem disk_log (h : Lifted cfg s c) (n : Nat) : (s.disk n).log = (c.servers n).storage.ents := by
  rw [h.absorbs.disk]
  rfl

/-- The table of leaders has a node that leads, with its log. -/
theorem leads (h : Lifted cfg s c) {t : Nat} (hl : c.Leads n t) : s.ldr t = some n ∧ s.tlog t = (c.servers n).log := by
  obtain ⟨node, hup, hstate, rfl⟩ := hl
  have hnode := h.node hup
  have hrole : (s.node n).role = .leader := by
    rw [hnode]
    exact Raft.abs_role_leader.mpr hstate
  have hldr := h.inv.votes.leader_ldr n hrole
  have hlog := h.inv.logs.leader_log n hrole
  rw [hnode] at hldr hlog
  refine ⟨hldr, hlog.trans ?_⟩
  rw [hup]
  rfl

theorem said (h : Lifted cfg s c) (hm : msg ∈ c.net) {x : Msg Nat Entry} (hx : x ∈ absMsg msg) : x ∈ s.net := by
  rw [h.absorbs.net]
  exact absMsg_subset hm hx

/-- Committed prefixes of two states of a run agree. -/
theorem committed_agree (hs : Lifted cfg s c) (hs' : Lifted cfg s' c') (hext : s.Ext Entry.term s') {m : Nat}
    (hm : i ≤ (c.servers m).committed) (hn : i ≤ (c'.servers n).committed) :
    (c'.servers n).log.take i = (c.servers m).log.take i :=
  hs'.inv.commits.agree hs'.inv.logs (hs'.committed_ok n) (hext.commitOk (hs.committed_ok m)) hn hm

/-- What a server has committed is on the disks of a majority from then on. -/
theorem stored (hs : Lifted cfg s c) (hs' : Lifted cfg s' c') (hext : s.Ext Entry.term s') (hpos : 0 < i)
    (hi : i ≤ (c.servers n).committed) : ∃ Q ⊆ cfg.voters.toFinset, cfg.voters.length < 2 * Q.card ∧
      ∀ m ∈ Q, (c'.servers m).storage.ents.take i = (c.servers n).log.take i := by
  have hok := hext.commitOk ((hs.committed_ok n).le hi)
  obtain ⟨Q, ⟨hsub, hcard⟩, hdisk⟩ := hs'.inv.commits.on_disk hpos hok
  refine ⟨Q, hsub, cfg.card_voters ▸ hcard, fun m hm => ?_⟩
  rw [← hs'.disk_log]
  exact hdisk m hm

end Lifted

end RaftEtcd
