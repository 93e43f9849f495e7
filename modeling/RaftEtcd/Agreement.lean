import RaftEtcd.Refine.Trace

/-! Log matching, leader completeness and state machine safety, for clusters without learners and
pre-votes. What a node has committed lives in its memory until a `Ready` stores it. -/
namespace RaftEtcd
open Consensus
variable {cfg : ClusterConfig} {c c' : Cluster}

namespace Server

theorem abs_log (sv : Server) : sv.abs.log = sv.log := by
  cases sv <;> rfl

theorem abs_commit (sv : Server) : sv.abs.commit = sv.committed := by
  cases sv <;> rfl

/-- Logs that agree up to a position hold the same entries up to it. -/
theorem entry_eq_of_take {sv sv' : Server} {k i : Nat} (h : sv.log.take k = sv'.log.take k) (hi : i ≤ k) :
    sv.entry i = sv'.entry i := by
  cases i with
  | zero => rfl
  | succ j =>
      have hget := congrArg (·[j]?) h
      simp only [List.getElem?_take_of_lt (show j < k by omega)] at hget
      exact hget

theorem entry_isSome {sv : Server} {i : Nat} (h1 : 1 ≤ i) (hi : i ≤ sv.log.length) : ∃ e, sv.entry i = some e := by
  obtain ⟨j, rfl⟩ : ∃ j, i = j + 1 := ⟨i - 1, by omega⟩
  exact ⟨sv.log[j], List.getElem?_eq_getElem hi⟩

/-- One entry at an index that both logs reach. -/
theorem same_entry {sv sv' : Server} {k i : Nat} (h1 : 1 ≤ i) (hik : i ≤ k) (hk : k ≤ sv.log.length)
    (h : sv'.log.take k = sv.log.take k) : ∃ e, sv.entry i = some e ∧ sv'.entry i = some e := by
  obtain ⟨e, he⟩ := entry_isSome h1 (hik.trans hk)
  exact ⟨e, he, (entry_eq_of_take h hik).trans he⟩

end Server

/-- No node of the cluster asks for pre-votes. -/
theorem not_usesPreVote (hpre : ∀ n, (cfg.settings n).preVote = false) : ¬ cfg.UsesPreVote := by
  rintro ⟨n, hn⟩
  rw [hpre n] at hn
  cases hn

/-- Nothing is ever logged outside the cluster. -/
theorem ClusterGood.mem_of_log (hc : ClusterGood cfg c) {n : Nat} (h : (c.servers n).log ≠ []) :
    n ∈ cfg.members := by
  by_contra hn
  rw [hc.outside n hn] at h
  exact h rfl

theorem Sound.committed_le (h : Sound cfg c) (n : Nat) : (c.servers n).committed ≤ (c.servers n).log.length := by
  have hlen := (h.tracked.backs n).node_len
  rwa [Server.abs_log, Server.abs_commit] at hlen

/-- The entries of a log carry the indexes at which they stand. -/
theorem ClusterGood.indexed (hc : ClusterGood cfg c) (n : Nat) : IndexedFrom 1 (c.servers n).log := by
  cases hsv : c.servers n with
  | down st =>
      have hst := hc.store n
      rw [hsv] at hst
      exact hst.indexed
  | up node => exact (hc.up n node hsv).1.whole.indexed

/-- An entry of a log, by its index. -/
theorem IndexedFrom.entry {l : List Entry} (h : IndexedFrom 1 l) {e : Entry} (he : e ∈ l) :
    1 ≤ e.index ∧ e.index ≤ l.length ∧ termAt Entry.term l e.index = e.term := by
  obtain ⟨k, hk, rfl⟩ := List.mem_iff_getElem.mp he
  have hidx := h k _ (List.getElem?_eq_getElem hk)
  refine ⟨by omega, by omega, ?_⟩
  rw [hidx, Nat.add_comm, termAt_get hk]

/-- The first entry of the leader of term 2. -/
def noop : Entry := { term := 2, index := 1 }

/-- Node 2 is elected in term 1 and stores its first entry, which nobody else gets. Then node 1 is
elected in term 2, and node 3 takes over its entry and acknowledges it. -/
def committedByTwo : Cluster := Cluster.after (trio false)
  [.start 1 0 fun _ => 0, .start 2 0 fun _ => 0, .start 3 0 fun _ => 0,
    .campaign 2, .ready 2, .deliver { type := .msgVote, from_ := 2, to_ := 3, term := 1 }, .ready 3,
    .deliver { type := .msgVoteResp, from_ := 3, to_ := 2, term := 1 }, .ready 2,
    .campaign 1, .campaign 1, .ready 1, .deliver { type := .msgVote, from_ := 1, to_ := 3, term := 2 }, .ready 3,
    .deliver { type := .msgVoteResp, from_ := 3, to_ := 1, term := 2 }, .ready 1,
    .deliver { type := .msgApp, from_ := 1, to_ := 3, term := 2, entries := [noop] }, .ready 3,
    .deliver { type := .msgAppResp, from_ := 3, to_ := 1, term := 2, index := 1 }]

/-- Two entries with the same index and term have the same history, and a node that leads one term
throughout only appends to its log. -/
theorem cluster_log_matching (hl : cfg.learners = []) (hpre : ∀ n, (cfg.settings n).preVote = false)
    (hc : Cluster.Reachable cfg Cluster.AnyStep c) :
    (∀ m n, ∀ e ∈ (c.servers m).log, ∀ e' ∈ (c.servers n).log, e.index = e'.index → e.term = e'.term →
        ∀ i ≤ e.index, (c.servers m).entry i = (c.servers n).entry i) ∧
      ∀ n t c', c.Leads n t → Cluster.Runs cfg (Cluster.StaysLeader cfg n t) c c' →
        (c.servers n).log <+: (c'.servers n).log := by
  have hpre := not_usesPreVote hpre
  have hs := Sound.of_reachable hpre hl hc
  constructor
  · intro m n e he e' he' hidx hterm i hi
    obtain ⟨h1, hlen, ht⟩ := (hs.good.indexed m).entry he
    obtain ⟨-, hlen', ht'⟩ := (hs.good.indexed n).entry he'
    by_cases hv : 2 ≤ cfg.voters.length
    · obtain ⟨s, -, hlift, -⟩ := Lifted.of_reachable hpre hv hc .refl
      have hmatch := hlift.inv.logs.log_matching (m := m) (n := n) (i := e.index)
      rw [hlift.absorbs.node, hlift.absorbs.node, Server.abs_log, Server.abs_log, ht, hidx, ht'] at hmatch
      exact Server.entry_eq_of_take (hmatch (hidx ▸ hlen) hlen' hterm) (hidx ▸ hi)
    · -- with one voter there is one log
      have hone := ClusterConfig.members_le_one hl hv
      have hm := hs.good.mem_of_log (List.ne_nil_of_mem he)
      have hn := hs.good.mem_of_log (List.ne_nil_of_mem he')
      rw [ClusterConfig.eq_of_mem hone hm hn]
  · intro n t c' hlead hr
    have hlog := (run_leader_log hpre hl hc hlead hr).2
    rwa [Server.abs_log, Server.abs_log] at hlog

theorem cluster_log_matching_committed_by_two :
    noop ∈ (committedByTwo.servers 1).log ∧ noop ∈ (committedByTwo.servers 3).log ∧
      (committedByTwo.servers 1).entry 1 = (committedByTwo.servers 3).entry 1 := by
  have h1 : noop ∈ (committedByTwo.servers 1).log := by decide
  have h3 : noop ∈ (committedByTwo.servers 3).log := by decide
  have hmatch := (cluster_log_matching rfl (fun _ => rfl) (Cluster.after_reachable _ _)).1 1 3 noop h1 noop h3
  exact ⟨h1, h3, hmatch rfl rfl 1 le_rfl⟩

/-- With two voters or more, what is committed anywhere at any time is one sequence of entries. -/
theorem committed_agree (hpre : ¬ cfg.UsesPreVote) (hv : 2 ≤ cfg.voters.length)
    (hc : Cluster.Reachable cfg Cluster.AnyStep c) (hr : Cluster.Runs cfg Cluster.AnyStep c c') {m n i : Nat}
    (hm : i ≤ (c.servers m).committed) (hn : i ≤ (c'.servers n).committed) :
    (c'.servers n).log.take i = (c.servers m).log.take i := by
  obtain ⟨s, s', hs, hs', hext⟩ := Lifted.of_reachable hpre hv hc hr
  have hcm := hext.commitOk (hs.inv.commits.commit_node m)
  have hcn := hs'.inv.commits.commit_node n
  rw [hs.absorbs.node, Server.abs_log, Server.abs_commit] at hcm
  rw [hs'.absorbs.node, Server.abs_log, Server.abs_commit] at hcn
  exact hs'.inv.commits.agree hs'.inv.logs hcn hcm hn hm

/-- What a node has committed stays in its log while it runs, and for ever once it is stored. -/
theorem committed_stays (hpre : ¬ cfg.UsesPreVote) (hl : cfg.learners = [])
    (hc : Cluster.Reachable cfg Cluster.AnyStep c) (hr : Cluster.Runs cfg Cluster.AnyStep c c') {n i : Nat}
    (h1 : 1 ≤ i) (hi : i ≤ (c.servers n).committed)
    (hk : i ≤ (c.servers n).storage.hardState.commit ∨ Cluster.Runs cfg (Cluster.StaysUp cfg n) c c') :
    ∃ e, (c.servers n).entry i = some e ∧ (c'.servers n).entry i = some e := by
  have hs := Sound.of_reachable hpre hl hc
  rcases hk with hk | hk
  · have hkeep := run_stored hpre hl hc hr n
    rw [Server.abs_log, Server.abs_log] at hkeep
    have hlen : (c.servers n).storage.hardState.commit ≤ (c.servers n).log.length := by
      have hle := (hs.tracked.backs n).commit_le
      rw [Server.abs_commit] at hle
      exact hle.trans (hs.committed_le n)
    exact Server.same_entry h1 hk hlen hkeep
  · have hkeep := (run_kept hpre hl hc hk).2
    rw [Server.abs_log, Server.abs_log, Server.abs_commit] at hkeep
    exact Server.same_entry h1 hi (hs.committed_le n) hkeep

/-- State machine safety: nodes agree on what they have committed, and a node keeps it while it
runs and once it is stored; with two voters or more the agreement spans the whole run. -/
theorem state_machine_safety (hl : cfg.learners = []) (hpre : ∀ n, (cfg.settings n).preVote = false)
    (hc : Cluster.Reachable cfg Cluster.AnyStep c) (hr : Cluster.Runs cfg Cluster.AnyStep c c') :
    (∀ m n i, 1 ≤ i → i ≤ (c.servers m).committed → i ≤ (c.servers n).committed →
        ∃ e, (c.servers m).entry i = some e ∧ (c.servers n).entry i = some e) ∧
      (∀ n i, 1 ≤ i → i ≤ (c.servers n).committed →
        (i ≤ (c.servers n).storage.hardState.commit ∨ Cluster.Runs cfg (Cluster.StaysUp cfg n) c c') →
        ∃ e, (c.servers n).entry i = some e ∧ (c'.servers n).entry i = some e) ∧
      (2 ≤ cfg.voters.length → ∀ m n i, 1 ≤ i → i ≤ (c.servers m).committed → i ≤ (c'.servers n).committed →
        ∃ e, (c.servers m).entry i = some e ∧ (c'.servers n).entry i = some e) := by
  have hpre := not_usesPreVote hpre
  have hs := Sound.of_reachable hpre hl hc
  refine ⟨?_, fun n i h1 hi hk => committed_stays hpre hl hc hr h1 hi hk, ?_⟩
  · intro m n i h1 hm hn
    by_cases hv : 2 ≤ cfg.voters.length
    · exact Server.same_entry h1 le_rfl (hm.trans (hs.committed_le m)) (committed_agree hpre hv hc .refl hm hn)
    · have hone := ClusterConfig.members_le_one hl hv
      have hmem : ∀ {k}, i ≤ (c.servers k).committed → k ∈ cfg.members := by
        intro k hk
        refine hs.good.mem_of_log (List.ne_nil_of_length_pos ?_)
        have := hs.committed_le k
        omega
      obtain rfl := ClusterConfig.eq_of_mem hone (hmem hm) (hmem hn)
      exact Server.same_entry h1 hm (hs.committed_le m) rfl
  · intro hv m n i h1 hm hn
    exact Server.same_entry h1 le_rfl (hm.trans (hs.committed_le m)) (committed_agree hpre hv hc hr hm hn)

/-- Node 2 learns of the leader by a heartbeat, and then gets the entry together with the news that
it is committed. Nothing of this has been stored yet. -/
def committedInMemory : Cluster := committedByTwo.exec (trio false)
  [.tick 1, .ready 1, .deliver { type := .msgHeartbeat, from_ := 1, to_ := 2, term := 2 }, .ready 2,
    .deliver { type := .msgHeartbeatResp, from_ := 2, to_ := 1, term := 2 }, .ready 1,
    .deliver { type := .msgApp, from_ := 1, to_ := 2, term := 2, entries := [noop], commit := 1 }]

theorem committedInMemory_reachable : Cluster.Reachable (trio false) Cluster.AnyStep committedInMemory :=
  Relation.ReflTransGen.trans (Cluster.after_reachable _ _) (Cluster.exec_any _ _ _)

theorem state_machine_safety_committed_in_memory :
    ∃ e, (committedInMemory.servers 1).entry 1 = some e ∧ (committedInMemory.servers 2).entry 1 = some e :=
  (state_machine_safety rfl (fun _ => rfl) committedInMemory_reachable .refl).1 1 2 1 (by decide) (by decide)
    (by decide)

/-- Node 2 crashes and comes back. -/
def restarted : Cluster := committedInMemory.exec (trio false) [.crash 2, .start 2 0 fun _ => 0]

/-- A crash takes back what was committed in memory only: after the restart node 2 has its old entry
of term 1 where it had committed the one of term 2. -/
theorem committed_entry_lost_by_crash :
    Cluster.Reachable (trio false) Cluster.AnyStep committedInMemory ∧
      Cluster.Runs (trio false) Cluster.AnyStep committedInMemory restarted ∧
      1 ≤ (committedInMemory.servers 2).committed ∧ (committedInMemory.servers 2).entry 1 = some noop ∧
      (restarted.servers 2).entry 1 = some { term := 1, index := 1 } :=
  ⟨committedInMemory_reachable, Cluster.exec_any _ _ _, by decide, by decide, by decide⟩

/-- What a leader has committed is in the log of every leader of a later term, for two states of
one run in either order; `S` is the later of them. -/
theorem leader_log_covers {d d' : Cluster} {s s' S : Sys Nat Entry} (hs : Lifted cfg s d) (hs' : Lifted cfg s' d')
    (hS : Inv cfg.voters.toFinset Entry.term S) (hext : s.Ext Entry.term S) (hext' : s'.Ext Entry.term S)
    {m n T T' : Nat} (hn : d.Leads n T) (hm : d'.Leads m T') (hT : T < T') :
    (d'.servers m).log.take (d.servers n).committed = (d.servers n).log.take (d.servers n).committed := by
  obtain ⟨x, hx, -, hxt⟩ := hn
  obtain ⟨y, hy, hyl, hyt⟩ := hm
  have hterm : (s.node n).term = T := by
    rw [hs.node hx]
    exact hxt
  have hrole' : (s'.node m).role = .leader := by
    rw [hs'.node hy]
    exact Raft.abs_role_leader.mpr hyl
  have hterm' : (s'.node m).term = T' := by
    rw [hs'.node hy]
    exact hyt
  have hcom := hext.commitOk (hs.inv.commits.commit_node n)
  have hldr := hs'.inv.votes.leader_ldr m hrole'
  have hlog := hs'.inv.logs.leader_log m hrole'
  rw [hterm'] at hldr hlog
  rw [hterm, hs.absorbs.node, Server.abs_log, Server.abs_commit] at hcom
  obtain ⟨-, htake⟩ := hS.led_covers hext' hldr hT hcom
  rwa [hlog, hs'.absorbs.node, Server.abs_log] at htake

/-- Leader completeness. With two voters or more the leaders may be in any two states of the run;
a single voter must not have lost the entry by stopping before it was stored. -/
theorem leader_completeness (hl : cfg.learners = []) (hpre : ∀ n, (cfg.settings n).preVote = false)
    (hc : Cluster.Reachable cfg Cluster.AnyStep c) (hr : Cluster.Runs cfg Cluster.AnyStep c c') :
    (2 ≤ cfg.voters.length → ∀ d d', (d = c ∧ d' = c') ∨ (d = c' ∧ d' = c) →
        ∀ m n T T' i, d.Leads n T → 1 ≤ i → i ≤ (d.servers n).committed → d'.Leads m T' → T < T' →
          ∃ e, (d.servers n).entry i = some e ∧ (d'.servers m).entry i = some e) ∧
      (∀ m n T T' i, c.Leads n T → 1 ≤ i → i ≤ (c.servers n).committed → c'.Leads m T' → T < T' →
        (i ≤ (c.servers n).storage.hardState.commit ∨ Cluster.Runs cfg (Cluster.StaysUp cfg n) c c') →
        ∃ e, (c.servers n).entry i = some e ∧ (c'.servers m).entry i = some e) := by
  have hpre := not_usesPreVote hpre
  have hsound := Sound.of_reachable hpre hl hc
  have hsound' := Sound.of_reachable hpre hl (Relation.ReflTransGen.trans hc hr)
  have hmany : 2 ≤ cfg.voters.length → ∀ d d', (d = c ∧ d' = c') ∨ (d = c' ∧ d' = c) →
      ∀ m n T T' i, d.Leads n T → 1 ≤ i → i ≤ (d.servers n).committed → d'.Leads m T' → T < T' →
        ∃ e, (d.servers n).entry i = some e ∧ (d'.servers m).entry i = some e := by
    intro hv d d' hd m n T T' i hn h1 hi hm hT
    obtain ⟨s, s', hs, hs', hext⟩ := Lifted.of_reachable hpre hv hc hr
    have hself : s'.Ext Entry.term s' := .of_tables subset_rfl rfl rfl
    rcases hd with ⟨rfl, rfl⟩ | ⟨rfl, rfl⟩
    · exact Server.same_entry h1 hi (hsound.committed_le n) (leader_log_covers hs hs' hs'.inv hext hself hn hm hT)
    · exact Server.same_entry h1 hi (hsound'.committed_le n) (leader_log_covers hs' hs hs'.inv hself hext hn hm hT)
  refine ⟨hmany, ?_⟩
  intro m n T T' i hn h1 hi hm hT hk
  by_cases hv : 2 ≤ cfg.voters.length
  · exact hmany hv c c' (Or.inl ⟨rfl, rfl⟩) m n T T' i hn h1 hi hm hT
  · have hone := ClusterConfig.members_le_one hl hv
    obtain ⟨x, hx, -⟩ := hn
    obtain ⟨y, hy, -⟩ := hm
    obtain rfl := ClusterConfig.eq_of_mem hone (hsound'.good.mem hy) (hsound.good.mem hx)
    exact committed_stays hpre hl hc hr h1 hi hk

theorem leader_completeness_committed_by_two :
    committedByTwo.Leads 1 2 ∧
      ∀ m T' c', Cluster.Runs (trio false) Cluster.AnyStep committedByTwo c' → c'.Leads m T' → 2 < T' →
        ∃ e, (committedByTwo.servers 1).entry 1 = some e ∧ (c'.servers m).entry 1 = some e := by
  have hlead : committedByTwo.Leads 1 2 := by decide
  refine ⟨hlead, fun m T' c' hr hm hT => ?_⟩
  have hcomplete := (leader_completeness rfl (fun _ => rfl) (Cluster.after_reachable _ _) hr).1 (by decide)
  exact hcomplete _ _ (Or.inl ⟨rfl, rfl⟩) m 1 2 T' 1 hlead le_rfl (by decide) hm hT

/-- One voter. -/
def solo : ClusterConfig where
  voters := [1]
  settings _ := serverSettings false
  nodup := by decide
  nonzero := by decide

/-- The only voter leads term 1 and has committed a proposal that is not stored yet. -/
def soloCommitted : Cluster :=
  Cluster.after solo [.start 1 0 fun _ => 0, .campaign 1, .ready 1, .propose 1 [97]]

/-- The voter crashes, comes back and is elected again. -/
def soloRestarted : Cluster := soloCommitted.exec solo [.crash 1, .start 1 0 fun _ => 0, .campaign 1]

/-- After the crash the voter leads term 2 with another entry at the index it had committed. -/
theorem later_leader_lacks_committed_entry :
    Cluster.Reachable solo Cluster.AnyStep soloCommitted ∧
      Cluster.Runs solo Cluster.AnyStep soloCommitted soloRestarted ∧
      soloCommitted.Leads 1 1 ∧ 2 ≤ (soloCommitted.servers 1).committed ∧ soloRestarted.Leads 1 2 ∧
      (soloCommitted.servers 1).entry 2 = some { term := 1, index := 2, data := [97] } ∧
      (soloRestarted.servers 1).entry 2 = some { term := 2, index := 2 } :=
  ⟨Cluster.after_reachable _ _, Cluster.exec_any _ _ _, by decide, by decide, by decide, by decide, by decide⟩

end RaftEtcd
