import RaftEtcd.Refine.Cluster

/-! Whole runs of a cluster. With two voters or more every run is a run of the abstract protocol;
with one voter and no learners nobody is ever told anything. -/
namespace RaftEtcd
open Consensus
variable {cfg : ClusterConfig} {B : Prop} {c c' : Cluster} {P : Cluster → Action → Prop} {s s' : Sys Nat Entry}

theorem ClusterConfig.card_voters (cfg : ClusterConfig) : cfg.voters.toFinset.card = cfg.voters.length :=
  List.toFinset_card_of_nodup (List.nodup_append.mp cfg.nodup).1

/-- The condition is met wherever nobody asks for pre-votes. -/
theorem ClusterGood.noStalePreVote (hc : ClusterGood cfg c) (hpre : ¬ cfg.UsesPreVote) (a : Action) :
    c.NoStalePreVote a := by
  cases a with
  | deliver msg =>
      intro hm node _ _ hty _
      exact absurd ((hc.net msg hm).pre (by rw [hty]; rfl)) hpre
  | _ => trivial

section Lifted

/-- A state of the cluster together with a state of the abstract protocol that it stands for. -/
structure Lifted (cfg : ClusterConfig) (s : Sys Nat Entry) (c : Cluster) : Prop where
  good : ClusterGood cfg c
  tracked : Tracked c
  absorbs : Absorbs s c
  inv : Inv cfg.voters.toFinset Entry.term s

theorem Lifted.init : Lifted cfg Sys.init Cluster.init := ⟨.init, .init, .init, .init⟩

theorem Lifted.node (h : Lifted cfg s c) {n : Nat} {node : RawNode} (hup : c.servers n = .up node) :
    s.node n = node.raft.abs := by
  rw [h.absorbs.node, hup]
  rfl

/-- The log of a leader is as long as anything that was acknowledged in its term. -/
theorem Lifted.acksBounded (h : Lifted cfg s c) : AcksBounded c := by
  intro msg hm n node hup hterm hl hty hrej
  have hack : .ack msg.from_ node.raft.term msg.index ∈ s.net := by
    rw [h.absorbs.net]
    refine absMsg_subset hm ?_
    rw [absMsg, hty, hrej, hterm]
    exact Set.mem_singleton _
  have hrole : (s.node n).role = .leader := by
    rw [h.node hup]
    exact Raft.abs_role_leader.mpr hl
  have hlog := h.inv.logs.leader_log n hrole
  rw [h.node hup] at hlog
  have hlen := h.inv.commits.ack_len _ _ _ (Or.inl hack)
  rw [show s.tlog node.raft.term = node.raft.raftLog.log from hlog] at hlen
  exact hlen

theorem Lifted.step (h : Lifted cfg s c) (hv : 2 ≤ cfg.voters.length) {a : Action} (ha : c.NoStalePreVote a) :
    ∃ s', Lifted cfg s' (c.step cfg a) ∧ s.Ext Entry.term s' := by
  have hmove : Moves cfg True c (c.step cfg a) := step_moves h.good ha fun _ => h.acksBounded
  obtain ⟨s', hrun, habs⟩ := hmove.refines trivial h.good h.tracked h.absorbs
  obtain ⟨hinv, hext⟩ := h.inv.run (cfg.card_voters ▸ hv) hrun
  exact ⟨s', ⟨hmove.good h.good, hmove.tracked trivial h.good h.tracked, habs, hinv⟩, hext⟩

/-- Every run from a state that stands for an abstract one leads to such a state. -/
theorem Lifted.run (h : Lifted cfg s c) (hv : 2 ≤ cfg.voters.length)
    (hP : ∀ c a, ClusterGood cfg c → P c a → c.NoStalePreVote a) (hr : Cluster.Runs cfg P c c') :
    ∃ s', Lifted cfg s' c' ∧ s.Ext Entry.term s' := by
  induction hr with
  | refl => exact ⟨s, h, .of_tables subset_rfl rfl rfl⟩
  | tail _ hstep ih =>
      obtain ⟨s₁, h₁, hext₁⟩ := ih
      obtain ⟨a, ha, rfl⟩ := hstep
      obtain ⟨s₂, h₂, hext₂⟩ := h₁.step hv (hP _ a h₁.good ha)
      exact ⟨s₂, h₂, hext₁.trans hext₂⟩

end Lifted

section Sound

theorem ClusterConfig.eq_of_mem {m n : Nat} (hone : cfg.members.length ≤ 1) (hm : m ∈ cfg.members)
    (hn : n ∈ cfg.members) : m = n := by
  obtain ⟨i, hi, rfl⟩ := List.mem_iff_getElem.mp hm
  obtain ⟨j, hj, rfl⟩ := List.mem_iff_getElem.mp hn
  have hij : i = j := by omega
  subst hij
  rfl

theorem ClusterConfig.members_le_one (hl : cfg.learners = []) (hv : ¬ 2 ≤ cfg.voters.length) :
    cfg.members.length ≤ 1 := by
  rw [members, hl, List.append_nil]
  omega

/-- With a single member no message passes between peers. -/
theorem ClusterGood.acksBounded (hc : ClusterGood cfg c) (hone : cfg.members.length ≤ 1) : AcksBounded c := by
  intro msg hm n node _ _ _ hty _
  have hmsg := hc.net msg hm
  obtain ⟨-, hne, hto⟩ := hmsg.peer (by rw [hty]; rfl)
  exact absurd (ClusterConfig.eq_of_mem hone hto hmsg.src) hne

/-- What every run keeps when no condition is put on its steps. -/
structure Sound (cfg : ClusterConfig) (c : Cluster) : Prop where
  good : ClusterGood cfg c
  tracked : Tracked c
  acks : AcksBounded c

theorem Lifted.sound (h : Lifted cfg s c) : Sound cfg c := ⟨h.good, h.tracked, h.acksBounded⟩

theorem Sound.moves (h : Sound cfg c) (hpre : ¬ cfg.UsesPreVote) (a : Action) : Moves cfg True c (c.step cfg a) :=
  step_moves h.good (h.good.noStalePreVote hpre a) fun _ => h.acks

/-- Two states of one run, lifted. -/
theorem Lifted.of_reachable (hpre : ¬ cfg.UsesPreVote) (hv : 2 ≤ cfg.voters.length) (hc : Cluster.Reachable cfg P c)
    (hr : Cluster.Runs cfg P c c') : ∃ s s', Lifted cfg s c ∧ Lifted cfg s' c' ∧ s.Ext Entry.term s' := by
  have hP : ∀ c a, ClusterGood cfg c → P c a → c.NoStalePreVote a := fun c a hg _ => hg.noStalePreVote hpre a
  obtain ⟨s, hs, -⟩ := Lifted.init.run hv hP hc
  obtain ⟨s', hs', hext⟩ := hs.run hv hP hr
  exact ⟨s, s', hs, hs', hext⟩

theorem Sound.of_reachable (hpre : ¬ cfg.UsesPreVote) (hl : cfg.learners = []) (hc : Cluster.Reachable cfg P c) :
    Sound cfg c := by
  by_cases hv : 2 ≤ cfg.voters.length
  · obtain ⟨s, -, hs, -⟩ := Lifted.of_reachable hpre hv hc .refl
    exact hs.sound
  · have hone := ClusterConfig.members_le_one hl hv
    induction hc with
    | refl => exact ⟨.init, .init, ClusterGood.init.acksBounded hone⟩
    | tail _ hstep ih =>
        obtain ⟨a, -, rfl⟩ := hstep
        have hmove := ih.moves hpre a
        have hgood := hmove.good ih.good
        exact ⟨hgood, hmove.tracked trivial ih.good ih.tracked, hgood.acksBounded hone⟩

end Sound

section Kept

/-- A server that runs after a move got there by steps of its own, apart from messages it sent. -/
theorem Moves.own_steps (h : Moves cfg B c c') (hB : B) (hc : ClusterGood cfg c) (ht : Tracked c) {n : Nat}
    (hup : ∃ node, c'.servers n = .up node) :
    ∃ a xs, Relation.ReflTransGen (LocalStep cfg.voters.toFinset Entry.term (absMsgs c.net) n) (c.servers n).abs a ∧
      (c'.servers n).abs = { a with out := xs } := by
  cases h with
  | stay => exact ⟨_, _, .refl, rfl⟩
  | act m node node' hup' hs hp =>
      by_cases hn : n = m
      · subst n
        rw [Cluster.set_servers, if_pos rfl, hup']
        exact ⟨_, _, (act_steps hB hc ht hup' hs).2, rfl⟩
      · rw [Cluster.set_servers, if_neg hn]
        exact ⟨_, _, .refl, rfl⟩
  | stop m =>
      by_cases hn : n = m
      · obtain ⟨node, hup⟩ := hup
        rw [Cluster.set_servers, if_pos hn] at hup
        cases hup
      · rw [Cluster.set_servers, if_neg hn]
        exact ⟨_, _, .refl, rfl⟩
  | start m st node applied draws hdown hm h =>
      by_cases hn : n = m
      · subst n
        have hst := hc.store m
        rw [hdown] at hst
        obtain ⟨-, -, -, -, habs⟩ := restartNode_spec hst hm h
        refine ⟨_, (c.servers m).abs.out, .refl, ?_⟩
        rw [Cluster.set_servers, if_pos rfl, hdown]
        exact habs
      · rw [Cluster.set_servers, if_neg hn]
        exact ⟨_, _, .refl, rfl⟩
  | ready m node node' msgs hup' h =>
      rw [Cluster.send_servers]
      split
      · rename_i hn
        subst n
        obtain ⟨-, hf⟩ := ready_flushed hc hup' h
        rw [hup']
        exact ⟨_, ∅, .refl, hf.abs⟩
      · exact ⟨_, _, .refl, rfl⟩

/-- What was committed on disk stays there. -/
theorem Moves.stored (h : Moves cfg B c c') (hc : ClusterGood cfg c) (ht : Tracked c) (n : Nat) :
    (absDisk (c.servers n).storage).commit ≤ (absDisk (c'.servers n).storage).commit ∧
      (absDisk (c'.servers n).storage).log.take (absDisk (c.servers n).storage).commit =
        (absDisk (c.servers n).storage).log.take (absDisk (c.servers n).storage).commit := by
  have hsame : ∀ {st}, st = (c.servers n).storage →
      (absDisk (c.servers n).storage).commit ≤ (absDisk st).commit ∧
        (absDisk st).log.take (absDisk (c.servers n).storage).commit =
          (absDisk (c.servers n).storage).log.take (absDisk (c.servers n).storage).commit := by
    rintro st rfl
    exact ⟨le_rfl, rfl⟩
  cases h with
  | stay => exact hsame rfl
  | act m node node' hup hs hp =>
      refine hsame ?_
      rw [Cluster.set_servers]
      split
      · rename_i hn
        rw [hn, hup, Server.storage, Server.storage, hs.storage]
      · rfl
  | stop m =>
      refine hsame ?_
      rw [Cluster.set_servers]
      split
      · rename_i hn
        rw [hn]
        rfl
      · rfl
  | start m st node applied draws hdown hm h =>
      refine hsame ?_
      have hst := hc.store m
      rw [hdown] at hst
      obtain ⟨-, hstore, -⟩ := restartNode_spec hst hm h
      rw [Cluster.set_servers]
      split
      · rename_i hn
        rw [hn, hdown]
        exact hstore
      · rfl
  | ready m node node' msgs hup h =>
      rw [Cluster.send_servers]
      split
      · rename_i hn
        subst n
        obtain ⟨-, hf⟩ := ready_flushed hc hup h
        have hbacks := ht.backs m
        rw [hup] at hbacks ⊢
        have hdisk : absDisk (Server.up node').storage = node.raft.abs.disk := hf.disk (ht.up m node hup).2
        rw [hdisk]
        exact ⟨hbacks.commit_le, hbacks.take⟩
      · exact hsame rfl

end Kept

section Along
variable {n : Nat}

theorem Cluster.Runs.any (hr : Cluster.Runs cfg P c c') : Cluster.Runs cfg Cluster.AnyStep c c' := by
  induction hr with
  | refl => exact .refl
  | tail _ hstep ih =>
      obtain ⟨a, -, h⟩ := hstep
      exact ih.tail ⟨a, trivial, h⟩

/-- As long as a node runs it keeps what it has committed. -/
theorem run_kept (hpre : ¬ cfg.UsesPreVote) (hl : cfg.learners = []) (hc : Cluster.Reachable cfg Cluster.AnyStep c)
    (hr : Cluster.Runs cfg (Cluster.StaysUp cfg n) c c') :
    (c.servers n).abs.commit ≤ (c'.servers n).abs.commit ∧
      (c'.servers n).abs.log.take (c.servers n).abs.commit = (c.servers n).abs.log.take (c.servers n).abs.commit := by
  induction hr with
  | refl => exact ⟨le_rfl, rfl⟩
  | tail hr hstep ih =>
      obtain ⟨a, hup, rfl⟩ := hstep
      have hs := Sound.of_reachable hpre hl (Relation.ReflTransGen.trans hc (Cluster.Runs.any hr))
      obtain ⟨b, xs, hrun, habs⟩ := (hs.moves hpre a).own_steps trivial hs.good hs.tracked hup
      obtain ⟨-, htake⟩ := LocalStep.run_committed hrun (hs.tracked.backs n).node_len
      have hle := (LocalStep.run_le hrun).2
      rw [habs]
      exact ⟨ih.1.trans hle, (take_eq_of_le htake ih.1).trans ih.2⟩

/-- What a node has committed on disk it has in every later state. -/
theorem run_stored (hpre : ¬ cfg.UsesPreVote) (hl : cfg.learners = []) (hc : Cluster.Reachable cfg Cluster.AnyStep c)
    (hr : Cluster.Runs cfg Cluster.AnyStep c c') (n : Nat) :
    (c'.servers n).abs.log.take (absDisk (c.servers n).storage).commit =
      (c.servers n).abs.log.take (absDisk (c.servers n).storage).commit := by
  have hstored : (absDisk (c.servers n).storage).commit ≤ (absDisk (c'.servers n).storage).commit ∧
      (absDisk (c'.servers n).storage).log.take (absDisk (c.servers n).storage).commit =
        (absDisk (c.servers n).storage).log.take (absDisk (c.servers n).storage).commit := by
    induction hr with
    | refl => exact ⟨le_rfl, rfl⟩
    | tail hr hstep ih =>
        obtain ⟨a, -, rfl⟩ := hstep
        have hs := Sound.of_reachable hpre hl (Relation.ReflTransGen.trans hc hr)
        obtain ⟨hle, htake⟩ := (hs.moves hpre a).stored hs.good hs.tracked n
        exact ⟨ih.1.trans hle, (take_eq_of_le htake ih.1).trans ih.2⟩
  have hb := (Sound.of_reachable hpre hl hc).tracked.backs n
  have hb' := (Sound.of_reachable hpre hl (Relation.ReflTransGen.trans hc hr)).tracked.backs n
  exact (take_eq_of_le hb'.take hstored.1).trans (hstored.2.trans hb.take.symm)

/-- A node that leads one term throughout only appends to its log. -/
theorem run_leader_log (hpre : ¬ cfg.UsesPreVote) (hl : cfg.learners = []) {t : Nat}
    (hc : Cluster.Reachable cfg Cluster.AnyStep c) (hlead : c.Leads n t)
    (hr : Cluster.Runs cfg (Cluster.StaysLeader cfg n t) c c') :
    c'.Leads n t ∧ (c.servers n).abs.log <+: (c'.servers n).abs.log := by
  -- the role and term of a node that leads, seen abstractly
  have hrole : ∀ {c₁ : Cluster}, c₁.Leads n t →
      (c₁.servers n).abs.role = .leader ∧ (c₁.servers n).abs.term = t := by
    rintro c₁ ⟨node, hup, hst, ht⟩
    rw [hup]
    exact ⟨Raft.abs_role_leader.mpr hst, ht⟩
  induction hr with
  | refl => exact ⟨hlead, List.prefix_rfl⟩
  | tail hr hstep ih =>
      obtain ⟨a, hlead', rfl⟩ := hstep
      refine ⟨hlead', ih.2.trans ?_⟩
      have hs := Sound.of_reachable hpre hl (Relation.ReflTransGen.trans hc (Cluster.Runs.any hr))
      obtain ⟨h1, h2⟩ := hrole ih.1
      obtain ⟨h3, h4⟩ := hrole hlead'
      obtain ⟨node, hup, -⟩ := hlead'
      obtain ⟨b, xs, hrun, habs⟩ := (hs.moves hpre a).own_steps trivial hs.good hs.tracked ⟨node, hup⟩
      rw [habs] at h3 h4 ⊢
      exact LocalStep.run_leader_log (b := b) hrun h1 h3 (h4.trans h2.symm)

end Along

end RaftEtcd
