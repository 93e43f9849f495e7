import RaftEtcd.Lib.Consensus.Local
import RaftEtcd.Lib.Consensus.Safety
import RaftEtcd.Refine.Durable

/-! The cluster as a run of the abstract protocol. Every action amounts to one of five moves, and
each move keeps the invariant of the cluster and is matched by abstract steps. -/
namespace RaftEtcd
open Consensus
variable {cfg : ClusterConfig} {B : Prop} {c c' : Cluster}

/-- A server that is down is a node that has just come back from its disk. -/
def Server.abs : Server → Node Nat Entry
  | .down st => (absDisk st).node
  | .up node => node.raft.abs

/-- What holds in every state, whatever the messages say. -/
structure ClusterGood (cfg : ClusterConfig) (c : Cluster) : Prop where
  store : ∀ n, StoreGood (c.servers n).storage
  up : ∀ n node, c.servers n = .up node → Good cfg node.raft ∧ node.raft.id = n ∧ Handed node
  net : ∀ m ∈ c.net, MsgGood cfg m
  outside : ∀ n, n ∉ cfg.members → c.servers n = .down {}

/-- What else holds where every node makes steps of the abstract protocol. -/
structure Tracked (c : Cluster) : Prop where
  up : ∀ n node, c.servers n = .up node → Bounded node.raft ∧ Behind node.raft
  backs : ∀ n, Backs (absDisk (c.servers n).storage) (c.servers n).abs

/-- No leader gets an acknowledgement in its term that goes beyond its log. -/
def AcksBounded (c : Cluster) : Prop :=
  ∀ msg ∈ c.net, ∀ n node, c.servers n = .up node → msg.term = node.raft.term → AckBound node.raft msg

/-- The five ways in which a cluster changes. -/
inductive Moves (cfg : ClusterConfig) (B : Prop) (c : Cluster) : Cluster → Prop
  | stay : Moves cfg B c c
  | act (n : Nat) (node node' : RawNode) (hup : c.servers n = .up node)
      (hs : Sim cfg (absMsgs c.net) B node.raft node'.raft) (hp : node'.prevHardState = node.prevHardState) :
      Moves cfg B c (c.set n (.up node'))
  | stop (n : Nat) : Moves cfg B c (c.set n (.down (c.servers n).storage))
  | start (n : Nat) (st : MemoryStorage) (node : RawNode) (applied : Nat) (draws : Nat → Nat)
      (hdown : c.servers n = .down st) (hn : n ∈ cfg.members)
      (h : RawNode.restartNode (cfg.config n st applied draws) = .ok node) : Moves cfg B c (c.set n (.up node))
  | ready (n : Nat) (node node' : RawNode) (msgs : List Message) (hup : c.servers n = .up node)
      (h : node.handleReady = .ok (msgs, node')) : Moves cfg B c { c.set n (.up node') with net := c.net ++ msgs }

section StepMoves

theorem call_moves {n : Nat} {f : RawNode → Result RawNode}
    (hf : ∀ node node', c.servers n = .up node → f node = .ok node' →
      Sim cfg (absMsgs c.net) B node.raft node'.raft ∧ node'.prevHardState = node.prevHardState) :
    Moves cfg B c (c.call n f) := by
  unfold Cluster.call
  split
  · exact .stay
  · rename_i node hup
    split
    · rename_i node' hok
      obtain ⟨hs, hp⟩ := hf node node' hup hok
      exact .act n node node' hup hs hp
    · have hst : node.raft.raftLog.storage = (c.servers n).storage := by
        rw [hup]
        rfl
      rw [hst]
      exact .stop n

theorem stepRaft_ok {node node' : RawNode} {msg : Message} {st : Status} (h : node.stepRaft msg = .ok (node', st)) :
    node.raft.step msg = .ok (node'.raft, st) ∧ node'.prevHardState = node.prevHardState := by
  obtain ⟨⟨r', st'⟩, hstep, h⟩ := bind_ok h
  obtain ⟨rfl, rfl⟩ := Prod.mk.inj (Except.ok.inj h)
  exact ⟨hstep, rfl⟩

/-- A call that steps one message of the node's own. -/
theorem callStatus_moves (hc : ClusterGood cfg c) {n : Nat} {f : RawNode → Result (RawNode × Status)}
    (hf : ∀ node, ∃ msg : Message, msg.type.isPeer = false ∧ msg.type ≠ .msgSnap ∧ f node = node.stepRaft msg) :
    Moves cfg B c (c.callStatus n f) := by
  refine call_moves fun node node' hup h => ?_
  obtain ⟨st, h⟩ := map_fst_ok h
  obtain ⟨msg, hp, hs, hmsg⟩ := hf node
  rw [hmsg] at h
  obtain ⟨hstep, hprev⟩ := stepRaft_ok h
  exact ⟨step_local_sim (hc.up n node hup).1 hp hs hstep, hprev⟩

/-- A message from the net reaches the node it is addressed to. -/
theorem deliver_moves (hc : ClusterGood cfg c) {msg : Message} (hm : msg ∈ c.net)
    (hclean : c.NoStalePreVote (.deliver msg)) (hB : B → AcksBounded c) :
    Moves cfg B c (c.callStatus msg.to_ fun node => node.step msg) := by
  have hmsg := hc.net msg hm
  refine call_moves fun node node' hup h => ?_
  obtain ⟨st, h⟩ := map_fst_ok h
  obtain ⟨hg, hid, -⟩ := hc.up _ node hup
  have harr : Arrives cfg (absMsgs c.net) node.raft msg :=
    ⟨fun hp => by
      obtain ⟨h1, h2, h3⟩ := hmsg.peer hp
      exact ⟨h1, hmsg.src, hid ▸ h2.symm, hid.symm⟩, absMsg_subset hm, hmsg.snap, hmsg.app, hmsg.pre⟩
  have hstep : ∀ {n' st'}, node.stepRaft msg = .ok (n', st') →
      Sim cfg (absMsgs c.net) B node.raft n'.raft ∧ n'.prevHardState = node.prevHardState := by
    intro n' st' h
    obtain ⟨hstep, hprev⟩ := stepRaft_ok h
    refine ⟨step_sim hg harr ?_ ?_ hstep, hprev⟩
    · intro hterm hty hcand
      exact hclean hm node hup hcand hty hterm
    · intro hB' hterm
      exact hB hB' msg hm _ node hup hterm
  simp only [RawNode.step] at h
  split at h
  · rw [← (Prod.mk.inj (Except.ok.inj h)).1]
    exact ⟨.refl hg, rfl⟩
  split at h
  · exact hstep h
  · rw [← (Prod.mk.inj (Except.ok.inj h)).1]
    exact ⟨.refl hg, rfl⟩

/-- Every action is one of the five moves. -/
theorem step_moves (hc : ClusterGood cfg c) {a : Action} (hclean : c.NoStalePreVote a) (hB : B → AcksBounded c) :
    Moves cfg B c (c.step cfg a) := by
  cases a with
  | start n applied draws =>
      simp only [Cluster.step, Cluster.start]
      split
      · exact .stay
      · rename_i st hdown
        split
        · rename_i hn
          split
          · rename_i node hok
            exact .start n st node applied draws hdown hn hok
          · exact .stay
        · exact .stay
  | crash n => exact .stop n
  | tick n =>
      refine call_moves fun node node' hup h => ?_
      obtain ⟨r', hr', h⟩ := bind_ok h
      obtain rfl := Except.ok.inj h
      exact ⟨tick_sim (hc.up n node hup).1 hr', rfl⟩
  | campaign n => exact callStatus_moves hc fun node => ⟨_, rfl, by simp, rfl⟩
  | propose n data => exact callStatus_moves hc fun node => ⟨_, rfl, by simp, rfl⟩
  | proposeConfChange n data => exact callStatus_moves hc fun node => ⟨_, rfl, by simp, rfl⟩
  | transferLeadership n lead transferee => exact callStatus_moves hc fun node => ⟨_, rfl, by simp, rfl⟩
  | readIndex n rctx => exact callStatus_moves hc fun node => ⟨_, rfl, by simp, rfl⟩
  | reportUnreachable n id => exact callStatus_moves hc fun node => ⟨_, rfl, by simp, rfl⟩
  | reportSnapshot n id failure => exact callStatus_moves hc fun node => ⟨_, rfl, by simp, rfl⟩
  | deliver msg =>
      simp only [Cluster.step]
      split
      · rename_i hm
        exact deliver_moves hc hm hclean hB
      · exact .stay
  | ready n =>
      simp only [Cluster.step, Cluster.ready]
      split
      · exact .stay
      · rename_i node hup
        split
        · rename_i msgs node' hok
          exact .ready n node node' msgs hup hok
        · have hst : node.raft.raftLog.storage = (c.servers n).storage := by
            rw [hup]
            rfl
          rw [hst]
          exact .stop n

end StepMoves

section Invariant

theorem Cluster.set_servers (c : Cluster) (n : Nat) (sv : Server) (m : Nat) :
    (c.set n sv).servers m = if m = n then sv else c.servers m := Function.update_apply _ _ _ _

theorem Cluster.send_servers (c : Cluster) (n : Nat) (sv : Server) (net : List Message) (m : Nat) :
    ({ c.set n sv with net := net } : Cluster).servers m = if m = n then sv else c.servers m := c.set_servers n sv m

theorem restartNode_spec {st : MemoryStorage} {n applied : Nat} {draws : Nat → Nat} {node : RawNode}
    (hst : StoreGood st) (hn : n ∈ cfg.members)
    (h : RawNode.restartNode (cfg.config n st applied draws) = .ok node) :
    (Good cfg node.raft ∧ node.raft.id = n ∧ Handed node) ∧ node.raft.raftLog.storage = st ∧
      Bounded node.raft ∧ Behind node.raft ∧ node.raft.abs = (absDisk st).node := by
  obtain ⟨r, hr, h⟩ := bind_ok h
  obtain rfl := Except.ok.inj h
  obtain ⟨hg, hid, hstore, hhs, habs⟩ := new_spec hst hn hr
  refine ⟨⟨hg, hid, ?_⟩, hstore, .of_ne ?_, ?_, habs⟩
  · simp only [Handed, RawNode.ofRaft, hstore, hhs]
    split
    · exact Or.inr rfl
    · exact Or.inl rfl
  · intro hl
    have hrole : r.abs.role = .leader := Raft.abs_role_leader.mpr hl
    rw [habs] at hrole
    cases hrole
  · simp only [Behind, RawNode.ofRaft, hstore, ← hhs]
    exact ⟨le_rfl, le_rfl⟩

theorem ClusterGood.init : ClusterGood cfg Cluster.init where
  store _ := .fresh
  up n node h := by cases h
  net m h := by cases h
  outside _ _ := rfl

theorem ClusterGood.mem (hc : ClusterGood cfg c) {n : Nat} {node : RawNode} (h : c.servers n = .up node) :
    n ∈ cfg.members := by
  obtain ⟨hg, rfl, -⟩ := hc.up n node h
  exact hg.member

/-- One server is replaced. -/
theorem ClusterGood.set (hc : ClusterGood cfg c) {n : Nat} {sv : Server} (hst : StoreGood sv.storage)
    (hup : ∀ node, sv = .up node → Good cfg node.raft ∧ node.raft.id = n ∧ Handed node)
    (hout : n ∉ cfg.members → sv = .down {}) : ClusterGood cfg (c.set n sv) where
  store m := by
    rw [Cluster.set_servers]
    split
    · exact hst
    · exact hc.store m
  up m node h := by
    rw [Cluster.set_servers] at h
    split at h
    · rename_i hm
      rw [hm]
      exact hup node h
    · exact hc.up m node h
  net := hc.net
  outside m hm := by
    rw [Cluster.set_servers]
    split
    · rename_i hmn
      exact hout (hmn ▸ hm)
    · exact hc.outside m hm

theorem Moves.good (h : Moves cfg B c c') (hc : ClusterGood cfg c) : ClusterGood cfg c' := by
  cases h with
  | stay => exact hc
  | act n node node' hup hs hp =>
      obtain ⟨hg, hid, hh⟩ := hc.up n node hup
      have hst := hc.store n
      rw [hup] at hst
      refine hc.set ?_ ?_ fun hn => absurd (hc.mem hup) hn
      · rw [Server.storage, hs.storage]
        exact hst
      · intro node'' heq
        obtain rfl := Server.up.inj heq
        refine ⟨hs.good, hs.id.trans hid, ?_⟩
        rw [Handed, hp, hs.storage]
        exact hh
  | stop n =>
      refine hc.set (hc.store n) (fun _ h => by cases h) fun hn => ?_
      rw [hc.outside n hn]
      rfl
  | start n st node applied draws hdown hn h =>
      have hst := hc.store n
      rw [hdown] at hst
      obtain ⟨hnode, hstore, -⟩ := restartNode_spec hst hn h
      refine hc.set ?_ ?_ fun hn' => absurd hn hn'
      · rw [Server.storage, hstore]
        exact hst
      · intro node' heq
        obtain rfl := Server.up.inj heq
        exact hnode
  | ready n node node' msgs hup h =>
      obtain ⟨hg, hid, hh⟩ := hc.up n node hup
      have hst := hc.store n
      rw [hup] at hst
      obtain ⟨rfl, hf⟩ := handleReady_spec hg hst hh h
      have hset : ClusterGood cfg (c.set n (.up node')) := by
        refine hc.set hf.store ?_ fun hn => absurd (hc.mem hup) hn
        intro node'' heq
        obtain rfl := Server.up.inj heq
        exact ⟨hf.good, hf.id.trans hid, hf.handed⟩
      refine ⟨hset.store, hset.up, ?_, hset.outside⟩
      intro m hm
      rcases List.mem_append.mp hm with hm | hm
      · exact hc.net m hm
      · exact (hg.msgs m hm).1

end Invariant

section Refinement

/-- The abstract state that a cluster stands for. The tables of leaders are not determined by it. -/
structure Absorbs (s : Sys Nat Entry) (c : Cluster) : Prop where
  node : ∀ n, s.node n = (c.servers n).abs
  disk : ∀ n, s.disk n = absDisk (c.servers n).storage
  net : s.net = absMsgs c.net

theorem Absorbs.init : Absorbs Sys.init Cluster.init where
  node _ := rfl
  disk _ := rfl
  net := absMsgs_nil.symm

theorem Tracked.init : Tracked Cluster.init where
  up n node h := by cases h
  backs _ := .of_disk le_rfl

/-- The other servers are not concerned. -/
theorem Tracked.set (ht : Tracked c) {n : Nat} {sv : Server}
    (hup : ∀ node, sv = .up node → Bounded node.raft ∧ Behind node.raft)
    (hb : Backs (absDisk sv.storage) sv.abs) : Tracked (c.set n sv) where
  up m node h := by
    rw [Cluster.set_servers] at h
    split at h
    · exact hup node h
    · exact ht.up m node h
  backs m := by
    rw [Cluster.set_servers]
    split
    · exact hb
    · exact ht.backs m

/-- What a handled `Ready` does to the node and its disk. -/
theorem ready_flushed (hc : ClusterGood cfg c) {n : Nat} {node node' : RawNode} {msgs : List Message}
    (hup : c.servers n = .up node) (h : node.handleReady = .ok (msgs, node')) :
    msgs = node.raft.msgs ∧ Flushed cfg node node' := by
  have hst := hc.store n
  rw [hup] at hst
  exact handleReady_spec (hc.up n node hup).1 hst (hc.up n node hup).2.2 h

/-- The steps behind a call. -/
theorem act_steps (hB : B) (hc : ClusterGood cfg c) (ht : Tracked c) {n : Nat} {node node' : RawNode}
    (hup : c.servers n = .up node) (hs : Sim cfg (absMsgs c.net) B node.raft node'.raft) :
    Bounded node'.raft ∧ Relation.ReflTransGen (LocalStep cfg.voters.toFinset Entry.term (absMsgs c.net) n)
      node.raft.abs node'.raft.abs := by
  have hrun := hs.steps hB (ht.up n node hup).1
  rw [(hc.up n node hup).2.1] at hrun
  exact hrun

theorem Moves.tracked (h : Moves cfg B c c') (hB : B) (hc : ClusterGood cfg c) (ht : Tracked c) : Tracked c' := by
  cases h with
  | stay => exact ht
  | act n node node' hup hs hp =>
      obtain ⟨hb', hrun⟩ := act_steps hB hc ht hup hs
      obtain ⟨h1, h2⟩ := LocalStep.run_le hrun
      have hbacks := ht.backs n
      have hbehind := (ht.up n node hup).2
      rw [hup] at hbacks
      refine ht.set ?_ ?_
      · intro node'' heq
        obtain rfl := Server.up.inj heq
        refine ⟨hb', ?_⟩
        rw [Behind, hs.storage]
        exact ⟨hbehind.1.trans h1, hbehind.2.trans h2⟩
      · rw [Server.storage, hs.storage]
        exact hbacks.run hrun
  | stop n => exact ht.set (fun _ h => by cases h) (.of_disk (ht.backs n).disk_len)
  | start n st node applied draws hdown hn h =>
      have hst := hc.store n
      have hbacks := ht.backs n
      rw [hdown] at hst hbacks
      obtain ⟨-, hstore, hb, hbehind, habs⟩ := restartNode_spec hst hn h
      refine ht.set ?_ ?_
      · intro node' heq
        obtain rfl := Server.up.inj heq
        exact ⟨hb, hbehind⟩
      · rw [Server.storage, hstore, Server.abs, habs]
        exact hbacks
  | ready n node node' msgs hup h =>
      obtain ⟨rfl, hf⟩ := ready_flushed hc hup h
      obtain ⟨hb, hbehind⟩ := ht.up n node hup
      have hbacks := ht.backs n
      rw [hup] at hbacks
      have hset : Tracked (c.set n (.up node')) := by
        refine ht.set ?_ ?_
        · intro node'' heq
          obtain rfl := Server.up.inj heq
          exact ⟨hf.bounded hb, hf.behind hbehind⟩
        · rw [Server.storage, hf.disk hbehind, Server.abs, hf.abs]
          exact ⟨le_rfl, hbacks.node_len, hbacks.node_len, rfl⟩
      exact ⟨hset.up, hset.backs⟩

/-- Each move is matched by steps of the abstract protocol. -/
theorem Moves.refines (h : Moves cfg B c c') (hB : B) (hc : ClusterGood cfg c) (ht : Tracked c)
    {s : Sys Nat Entry} (hs : Absorbs s c) :
    ∃ s', Relation.ReflTransGen (Step cfg.voters.toFinset Entry.term) s s' ∧ Absorbs s' c' := by
  cases h with
  | stay => exact ⟨s, .refl, hs⟩
  | act n node node' hup hsim hp =>
      obtain ⟨-, hrun⟩ := act_steps hB hc ht hup hsim
      have hnode : s.node n = node.raft.abs := by rw [hs.node, hup]; rfl
      rw [← hs.net, ← hnode] at hrun
      obtain ⟨s', hrun', hnode', hdisk', hnet'⟩ := Step.of_local hrun
      refine ⟨s', hrun', ⟨?_, ?_, hnet'.trans hs.net⟩⟩
      · intro m
        rw [hnode', Function.update_apply, Cluster.set_servers]
        split
        · rfl
        · exact hs.node m
      · intro m
        rw [hdisk', Cluster.set_servers, hs.disk]
        split
        · rename_i hm
          rw [hm, hup, Server.storage, Server.storage, hsim.storage]
        · rfl
  | stop n =>
      refine ⟨s.crash n, .single (.crash s n), ⟨?_, ?_, hs.net⟩⟩
      · intro m
        rw [Sys.node_crash, Cluster.set_servers]
        split
        · rw [hs.disk]
          rfl
        · exact hs.node m
      · intro m
        rw [Cluster.set_servers]
        split
        · rename_i hm
          rw [hm]
          exact hs.disk n
        · exact hs.disk m
  | start n st node applied draws hdown hn h =>
      have hst := hc.store n
      rw [hdown] at hst
      obtain ⟨-, hstore, -, -, habs⟩ := restartNode_spec hst hn h
      refine ⟨s, .refl, ⟨?_, ?_, hs.net⟩⟩
      · intro m
        rw [Cluster.set_servers, hs.node]
        split
        · rename_i hm
          rw [hm, hdown, Server.abs, Server.abs, habs]
          rfl
        · rfl
      · intro m
        rw [Cluster.set_servers, hs.disk]
        split
        · rename_i hm
          rw [hm, hdown, Server.storage, Server.storage, hstore]
          rfl
        · rfl
  | ready n node node' msgs hup h =>
      obtain ⟨rfl, hf⟩ := ready_flushed hc hup h
      have hbehind := (ht.up n node hup).2
      have hnode : s.node n = node.raft.abs := by rw [hs.node, hup]; rfl
      refine ⟨s.flush n, .single (.flush s n), ⟨?_, ?_, ?_⟩⟩
      · intro m
        rw [Sys.node_flush, Cluster.send_servers]
        split
        · rw [hnode]
          exact hf.abs.symm
        · exact hs.node m
      · intro m
        rw [Sys.disk_flush, Cluster.send_servers]
        split
        · rw [hnode]
          exact (hf.disk hbehind).symm
        · exact hs.disk m
      · simp only [Sys.flush, hs.net, hnode, absMsgs_append]
        rfl

end Refinement

end RaftEtcd
