import RaftEtcd.Agreement
import RaftEtcd.Spared

/-! No node of a cluster ends in a fatal check of its log, whatever is delivered to it and whenever
it crashes: what a leader has sent tells each node to append and commit what it can. -/
namespace RaftEtcd
open Consensus Outcome
variable {cfg : ClusterConfig} {c : Cluster} {s : Sys Nat Entry}

namespace Cluster

/-- How a call on a running node ends. -/
def ending {α : Type} (c : Cluster) (n : Nat) (f : RawNode → Result α) : Result Unit :=
  match c.servers n with
  | .down _ => .ok ()
  | .up node => (fun _ => ()) <$> f node

/-- How the call behind an action ends; `step` goes on from there. -/
def outcome (cfg : ClusterConfig) (c : Cluster) : Action → Result Unit
  | .start n applied draws =>
      match c.servers n with
      | .up _ => .ok ()
      | .down storage =>
          if n ∈ cfg.members then
            (fun _ => ()) <$> RawNode.restartNode (cfg.config n storage applied draws)
          else .ok ()
  | .crash _ => .ok ()
  | .tick n => c.ending n RawNode.tick
  | .campaign n => c.ending n RawNode.campaign
  | .propose n data => c.ending n fun node => node.propose data
  | .proposeConfChange n data => c.ending n fun node => node.proposeConfChange data
  | .transferLeadership n lead transferee => c.ending n fun node => node.transferLeadership lead transferee
  | .readIndex n rctx => c.ending n fun node => node.readIndex rctx
  | .reportUnreachable n id => c.ending n fun node => node.reportUnreachable id
  | .reportSnapshot n id failure => c.ending n fun node => node.reportSnapshot id failure
  | .deliver msg => if msg ∈ c.net then c.ending msg.to_ fun node => node.step msg else .ok ()
  | .ready n => c.ending n RawNode.handleReady

end Cluster

/-- Entries are created by leaders, and those have a term. -/
theorem term_pos_of_grounded {tlog : Nat → List Entry} {log : List Entry} {t : Nat}
    (h : Grounded Entry.term tlog log t) {e : Entry} (he : e ∈ log) : e.term ≠ 0 := by
  obtain ⟨k, hk, rfl⟩ := List.mem_iff_getElem.mp he
  have hpos := (h (k + 1) (by omega) hk).1
  rw [termAt_get hk] at hpos
  omega

/-- What the net tells a node that is not ahead of it. -/
theorem Lifted.told (h : Lifted cfg s c) {msg : Message} (hm : msg ∈ c.net) {node : RawNode}
    (hup : c.servers msg.to_ = .up node) (hterm : node.raft.term ≤ msg.term) : Told node.raft.raftLog msg where
  app hty := by
    have hx : .app msg.from_ msg.term msg.index msg.logTerm msg.entries msg.commit ∈ s.net := by
      rw [h.absorbs.net]
      refine absMsg_subset hm ?_
      rw [absMsg, hty]
      exact Set.mem_insert _ _
    obtain ⟨-, hlen, hents, hpt⟩ := h.inv.logs.app_net hx
    have hground := h.inv.logs.tlog_log msg.term
    refine ⟨(h.good.net msg hm).app hty, ?_, ?_⟩
    · intro hne
      have hpos := (hground msg.index (by omega) (by omega)).1
      omega
    · intro e he
      rw [hents] at he
      exact term_pos_of_grounded hground (List.mem_of_mem_drop (List.mem_of_mem_take he))
  beat hty := by
    have hx : .beat msg.from_ msg.to_ msg.term msg.commit ∈ s.net := by
      rw [h.absorbs.net]
      refine absMsg_subset hm ?_
      rw [absMsg, hty]
      exact Set.mem_singleton _
    rcases (h.inv.commits.beat_commit _ _ _ _ (Or.inl hx)).2 with h0 | ⟨j, hj, hack⟩
    · omega
    · -- the node acknowledged this much in the term of the heartbeat, so that is its term still
      have hsaid : (Msg.ack msg.to_ msg.term j : Msg Nat Entry) ∈ s.said msg.to_ := Or.inl hack
      have hle : msg.term ≤ (s.node msg.to_).term := h.inv.votes.said_le hsaid
      rw [h.node hup] at hle
      have heq : (s.node msg.to_).term = msg.term := by
        rw [h.node hup]
        exact le_antisymm hterm hle
      have htake := h.inv.commits.ack_node _ _ _ hsaid heq
      have hlen := le_length_of_take_eq htake.symm (h.inv.commits.ack_len _ _ _ hsaid)
      rw [h.node hup] at hlen
      exact hj.trans hlen
  snap := (h.good.net msg hm).snap

/-- With a single member nobody tells anybody anything. -/
theorem ClusterGood.told (hc : ClusterGood cfg c) (hone : cfg.members.length ≤ 1) {msg : Message}
    (hm : msg ∈ c.net) (l : RaftLog) : Told l msg := by
  have hmsg := hc.net msg hm
  refine .of_local ?_ hmsg.snap
  cases hp : msg.type.isPeer with
  | false => rfl
  | true =>
      obtain ⟨-, hne, hto⟩ := hmsg.peer hp
      exact absurd (ClusterConfig.eq_of_mem hone hto hmsg.src) hne

/-- The messages on the net are no danger to the nodes they are addressed to. -/
def NetTold (c : Cluster) : Prop :=
  ∀ msg ∈ c.net, ∀ node, c.servers msg.to_ = .up node → node.raft.term ≤ msg.term → Told node.raft.raftLog msg

theorem NetTold.of_reachable (hpre : ¬ cfg.UsesPreVote) (hl : cfg.learners = [] ∨ 2 ≤ cfg.voters.length)
    {P : Cluster → Action → Prop} (hc : Cluster.Reachable cfg P c) : ClusterGood cfg c ∧ NetTold c := by
  by_cases hv : 2 ≤ cfg.voters.length
  · obtain ⟨s, -, hs, -⟩ := Lifted.of_reachable hpre hv hc .refl
    exact ⟨hs.good, fun msg hm node hup hterm => hs.told hm hup hterm⟩
  · have hnone := hl.resolve_right hv
    have hgood := (Sound.of_reachable hpre hnone hc).good
    exact ⟨hgood, fun msg hm _ _ _ => hgood.told (ClusterConfig.members_le_one hnone hv) hm _⟩

theorem ending_spared {α : Type} {n : Nat} {f : RawNode → Result α}
    (hf : ∀ node, c.servers n = .up node → Spared (f node)) : Spared (c.ending n f) := by
  unfold Cluster.ending
  split
  · exact .ok _
  · rename_i node hup
    exact (hf node hup).map _

/-- A call that steps one message of the node's own. -/
theorem ending_own_spared (hc : ClusterGood cfg c) {n : Nat} {f : RawNode → Result (RawNode × Status)}
    (hf : ∀ node, ∃ msg : Message, msg.type.isPeer = false ∧ msg.type ≠ .msgSnap ∧ f node = node.stepRaft msg) :
    Spared (c.ending n f) := by
  refine ending_spared fun node hup => ?_
  obtain ⟨msg, hp, hs, hmsg⟩ := hf node
  rw [hmsg]
  exact (step_local_spared (hc.up n node hup).1 hp hs).bind fun _ _ => .ok _

theorem deliver_spared (hc : ClusterGood cfg c) (ht : NetTold c) {msg : Message} (hm : msg ∈ c.net) :
    Spared (c.ending msg.to_ fun node => node.step msg) := by
  refine ending_spared fun node hup => ?_
  have hg := (hc.up _ node hup).1
  have hmsg := hc.net msg hm
  have hstep : Spared (node.stepRaft msg) := by
    refine (step_spared hg fun hterm => ?_).bind fun _ _ => .ok _
    rcases hterm with h0 | hle
    · refine .of_local ?_ hmsg.snap
      cases hp : msg.type.isPeer with
      | false => rfl
      | true => exact absurd h0 (hmsg.peer hp).1
    · exact ht msg hm node hup hle
  unfold RawNode.step
  exact .ite (.ok _) (.ite hstep (.ok _))

/-- In every state that a cluster of fixed voters reaches without pre-votes, no action ends in a
fatal check of the log. -/
theorem log_fatals_unreachable (hl : cfg.learners = [] ∨ 2 ≤ cfg.voters.length)
    (hpre : ∀ n, (cfg.settings n).preVote = false) (hc : Cluster.Reachable cfg Cluster.AnyStep c) (a : Action) :
    Spared (c.outcome cfg a) := by
  obtain ⟨hgood, htold⟩ := NetTold.of_reachable (not_usesPreVote hpre) hl hc
  cases a with
  | start n applied draws =>
      simp only [Cluster.outcome]
      split
      · exact .ok _
      · exact .ite ((restartNode_spared _).map _) (.ok _)
  | crash n => exact .ok _
  | tick n => exact ending_spared fun node hup => (tick_spared (hgood.up n node hup).1).bind fun _ _ => .ok _
  | campaign n => exact ending_own_spared hgood fun node => ⟨_, rfl, by simp, rfl⟩
  | propose n data => exact ending_own_spared hgood fun node => ⟨_, rfl, by simp, rfl⟩
  | proposeConfChange n data => exact ending_own_spared hgood fun node => ⟨_, rfl, by simp, rfl⟩
  | transferLeadership n lead transferee => exact ending_own_spared hgood fun node => ⟨_, rfl, by simp, rfl⟩
  | readIndex n rctx => exact ending_own_spared hgood fun node => ⟨_, rfl, by simp, rfl⟩
  | reportUnreachable n id => exact ending_own_spared hgood fun node => ⟨_, rfl, by simp, rfl⟩
  | reportSnapshot n id failure => exact ending_own_spared hgood fun node => ⟨_, rfl, by simp, rfl⟩
  | deliver msg =>
      simp only [Cluster.outcome]
      split
      · rename_i hm
        exact deliver_spared hgood htold hm
      · exact .ok _
  | ready n => exact ending_spared fun node hup => handleReady_spared (hgood.up n node hup).1.whole

/-- The heartbeat of the leader that has just committed its first entry. -/
def beatOne : Message := { type := .msgHeartbeat, from_ := 1, to_ := 3, term := 2, commit := 1 }

/-- The acknowledgement of node 3 let node 1 commit; its next heartbeat tells node 3 so. -/
def beatSent : Cluster := committedByTwo.exec (trio false) [.ready 1, .tick 1, .ready 1]

theorem log_fatals_unreachable_heartbeat :
    beatOne ∈ beatSent.net ∧ Spared (beatSent.outcome (trio false) (.deliver beatOne)) := by
  have hr : Cluster.Reachable (trio false) Cluster.AnyStep beatSent :=
    (Cluster.after_reachable _ _).trans (Cluster.exec_any _ _ _)
  exact ⟨by decide +kernel, log_fatals_unreachable (Or.inl rfl) (fun _ => rfl) hr _⟩

end RaftEtcd
