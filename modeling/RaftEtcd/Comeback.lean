import Mathlib.Data.Prod.Lex
import RaftEtcd.Delivery
import RaftEtcd.Reelection

/-! The nodes of a majority can come back from their disks and elect a leader among themselves, whatever has happened
before. The one with the best log looks for a term in which the others are free to vote for it, and they do. -/
namespace RaftEtcd
open Consensus
variable {cfg : ClusterConfig} {c c' : Cluster} {Q : Finset Nat} {r r' q : Raft} {node node' peer : RawNode}
  {msg answer : Message} {log : List Entry} {n m t : Nat} {pre : Bool}

/-- What the nodes of a set need for an election among themselves: processes start and end, rounds of the driver,
the call to campaign, and what they send to one another. -/
def Action.Electing (Q : Finset Nat) : Action → Prop
  | .crash n | .campaign n | .ready n => n ∈ Q
  | .start n applied _ => n ∈ Q ∧ applied = 0
  | .deliver msg => msg.from_ ∈ Q ∧ msg.to_ ∈ Q
  | _ => False

namespace Cluster

def Among (Q : Finset Nat) (c : Cluster) (a : Action) : Prop := c.NoStalePreVote a ∧ a.Electing Q

theorem Runs.reachable (hr : Runs cfg (Among Q) c c') (hc : Reachable cfg NoStalePreVote c) :
    Reachable cfg NoStalePreVote c' := by
  refine Relation.ReflTransGen.trans hc (Relation.ReflTransGen.mono ?_ _ _ hr)
  rintro d d' ⟨a, ⟨hclean, -⟩, rfl⟩
  exact ⟨a, hclean, rfl⟩

theorem Runs.trans {c'' : Cluster} (hr : Runs cfg (Among Q) c c') (hr' : Runs cfg (Among Q) c' c'') :
    Runs cfg (Among Q) c c'' := Relation.ReflTransGen.trans hr hr'

/-- One more action. -/
theorem Runs.act (hr : Runs cfg (Among Q) c c') {a : Action} (hclean : c'.NoStalePreVote a) (ha : a.Electing Q) :
    Runs cfg (Among Q) c (c'.step cfg a) := Relation.ReflTransGen.tail hr ⟨a, ⟨hclean, ha⟩, rfl⟩

theorem step_deliver (cfg : ClusterConfig) {st : Status} (hm : msg ∈ c.net) (hup : c.servers msg.to_ = .up node)
    (hlocal : msg.isLocalMsg = false) (hpeer : (node.raft.getProgress msg.from_).isSome ∨ msg.isResponseMsg = false)
    (h : node.raft.step msg = .ok (r, st)) :
    c.step cfg (.deliver msg) = c.set msg.to_ (.up { node with raft := r }) := by
  have hstep : node.step msg = .ok ({ node with raft := r }, st) := by
    unfold RawNode.step RawNode.stepRaft
    rw [hlocal, if_neg Bool.false_ne_true, if_pos, h]
    · rfl
    · rcases hpeer with hpeer | hpeer
      · rw [hpeer, Bool.true_or]
      · rw [hpeer, Bool.not_false, Bool.or_true]
  simp only [step, if_pos hm, callStatus, call, hup, hstep]
  rfl

end Cluster

/-! ### A round of the driver -/

section Rounds

/-- What a round of the driver leaves of a node. -/
structure Rested (r r' : Raft) : Prop where
  frame : ∃ log readStates u, r' = { r with raftLog := log, msgs := [], readStates := readStates, uncommittedSize := u }
  log : r'.raftLog.log = r.raftLog.log
  committed : r'.raftLog.committed = r.raftLog.committed
  applied : r.raftLog.applied ≤ r.raftLog.committed → r.raftLog.applied ≤ r'.raftLog.applied ∧
    r'.raftLog.applied ≤ r.raftLog.committed ∧
    (r.raftLog.applied < r.raftLog.committed → r.raftLog.applied < r'.raftLog.applied)

theorem handleReady_rests {msgs : List Message} (hg : Good cfg node.raft) (hst : StoreGood node.raft.raftLog.storage)
    (hprev : Handed node) (h : node.handleReady = .ok (msgs, node')) : Rested node.raft node'.raft := by
  obtain ⟨-, hflushed⟩ := handleReady_spec hg hst hprev h
  refine ⟨handleReady_frame h, congrArg Node.log hflushed.abs, congrArg Node.commit hflushed.abs, fun hle => ?_⟩
  obtain ⟨⟨rd, n₁⟩, hready, -⟩ := bind_ok h
  obtain ⟨-, hreach, happlied⟩ := handleReady_applied hg hle hready h
  refine ⟨by omega, by omega, fun hlt => ?_⟩
  -- what waits to be applied is announced, and some of it is handed out
  obtain ⟨hnext, -⟩ := ready_spec hready
  have hsome : rd.committedEntries ≠ [] := by
    intro hnil
    have hnone := (RaftLog.nextEntries_announced hnext).mp hnil
    rw [RaftLog.hasNextEntries, hg.whole.firstIndex_eq, decide_eq_false_iff_not] at hnone
    omega
  have := List.length_pos_iff.mpr hsome
  omega

/-- The node rests, and what it has said is on its way. -/
theorem Cluster.step_ready (hc : ClusterGood cfg c) (hup : c.servers n = .up node) : ∃ node',
    c.step cfg (.ready n) = { c.set n (.up node') with net := c.net ++ node.raft.msgs } ∧
    Rested node.raft node'.raft := by
  obtain ⟨hg, -, hprev⟩ := hc.up n node hup
  have hst := hc.store n
  rw [hup] at hst
  obtain ⟨msgs, node', hok⟩ := handleReady_ok hg
  obtain ⟨hmsgs, -⟩ := handleReady_spec hg hst hprev hok
  refine ⟨node', ?_, handleReady_rests hg hst hprev hok⟩
  simp only [step, ready, hup, hok, hmsgs]

namespace Rested

theorem open_ (h : Rested r r') (ho : r.Open log) : r'.Open log := by
  obtain ⟨_, _, _, hframe⟩ := h.frame
  refine ⟨?_, ?_, ?_⟩
  · rw [hframe]
    exact ho.voter
  · rw [hframe]
    exact ho.free
  · rw [h.log]
    exact ho.behind

theorem mayVote (h : Rested r r') (hm : r.MayVote n t) : r'.MayVote n t := by
  obtain ⟨_, _, _, hframe⟩ := h.frame
  rw [hframe]
  exact hm

theorem polls (h : Rested r r') (hp : r.Polls pre log t) : r'.Polls pre log t := by
  have hlog := h.log.trans hp.log
  obtain ⟨_, _, _, rfl⟩ := h.frame
  exact ⟨hp.state, hp.term, hp.granted, hlog⟩

theorem settled (h : Rested r r') (hs : r.Settled) : r'.Settled := by
  obtain ⟨hle, hge, -⟩ := h.applied hs.applied.le
  have hcom := h.committed
  have happlied := hs.applied
  obtain ⟨_, _, _, rfl⟩ := h.frame
  exact ⟨hs.role, by omega⟩

theorem term (h : Rested r r') : r'.term = r.term := by
  obtain ⟨_, _, _, rfl⟩ := h.frame
  rfl

end Rested

end Rounds

/-! ### A request and its answer -/

section Requests

/-- The two nodes have exchanged a request and its answer; the other nodes have not moved. -/
structure Exchanged (cfg : ClusterConfig) (Q : Finset Nat) (n m : Nat) (c c' : Cluster) : Prop where
  runs : Cluster.Runs cfg (Cluster.Among Q) c c'
  others : ∀ k, k ≠ n → k ≠ m → c'.servers k = c.servers k
  net : ∀ msg ∈ c.net, msg ∈ c'.net

/-- Whether an answer may reach the node. -/
def Raft.Attends (r : Raft) (answer : Message) : Prop :=
  r.state = .candidate → answer.type = .msgPreVoteResp → r.term ≤ answer.term → answer.reject = true

/-- A request for a vote reaches a node, which answers, and the answer comes back. -/
theorem exchange (hc : Cluster.Reachable cfg Cluster.NoStalePreVote c) (hn : c.servers n = .up node)
    (hm : c.servers m = .up peer) (hne : m ≠ n) (hnQ : n ∈ Q) (hmQ : m ∈ Q) (hvoter : m ∈ cfg.voters)
    (hmsg : msg ∈ c.net) (hask : msg.AsksFor log n t) (hto : msg.to_ = m) (hstep : peer.raft.step msg = .ok (q, .ok))
    (hanswer : answer ∈ q.msgs)
    (hkind : answer.type = .msgVoteResp ∨ answer.type = .msgPreVoteResp) (hsrc : answer.from_ = m)
    (hback : answer.to_ = n)
    (hhears : node.raft.Attends answer) (hheard : node.raft.step answer = .ok (r', .ok)) :
    ∃ c' peer', Exchanged cfg Q n m c c' ∧ c'.servers n = .up { node with raft := r' } ∧ c'.servers m = .up peer' ∧
      Rested q peer'.raft := by
  have hfrom := hask.source
  -- the request arrives
  have hrequest : msg.isLocalMsg = false ∧ msg.isResponseMsg = false ∧ msg.type ≠ .msgPreVoteResp := by
    rcases hask.type with hty | hty <;> simp [Message.isLocalMsg, Message.isResponseMsg, hty]
  have h₁ := Cluster.step_deliver cfg hmsg (hto ▸ hm) hrequest.1 (Or.inr hrequest.2.1) hstep
  have hruns₁ : Cluster.Runs cfg (Cluster.Among Q) c (c.step cfg (.deliver msg)) :=
    Cluster.Runs.act .refl (fun _ _ _ _ hty => absurd hty hrequest.2.2) ⟨hfrom ▸ hnQ, hto ▸ hmQ⟩
  rw [h₁, hto] at hruns₁
  -- the answer is sent
  have hup₁ : (c.set m (.up { peer with raft := q })).servers m = .up { peer with raft := q } := by
    rw [Cluster.set_servers, if_pos rfl]
  obtain ⟨peer', h₂, hrested⟩ := Cluster.step_ready (ClusterGood.of_reachable (hruns₁.reachable hc)) hup₁
  have hruns₂ := hruns₁.act (a := .ready m) trivial hmQ
  rw [h₂] at hruns₂
  -- and comes back
  have hn₂ : ({ (c.set m (.up { peer with raft := q })).set m (.up peer') with
      net := (c.set m (.up { peer with raft := q })).net ++ q.msgs } : Cluster).servers answer.to_ = .up node := by
    rw [hback, Cluster.send_servers, if_neg hne.symm, Cluster.set_servers, if_neg hne.symm]
    exact hn
  have hsent : answer ∈ ({ (c.set m (.up { peer with raft := q })).set m (.up peer') with
      net := (c.set m (.up { peer with raft := q })).net ++ q.msgs } : Cluster).net := List.mem_append_right _ hanswer
  have hknown : (node.raft.getProgress answer.from_).isSome := by
    obtain ⟨hg, -, -⟩ := (ClusterGood.of_reachable hc).up n node hn
    rw [getProgress_isSome_iff, hsrc]
    exact List.mem_append_left _ (hg.keys.mem_iff.mpr hvoter)
  have h₃ := Cluster.step_deliver cfg hsent hn₂
    (by rcases hkind with hty | hty <;> simp [Message.isLocalMsg, hty]) (Or.inl hknown) hheard
  have hruns₃ := hruns₂.act (a := .deliver answer)
    (fun _ node₂ hup => by
      obtain rfl := Server.up.inj (hn₂.symm.trans hup)
      exact hhears)
    ⟨hsrc ▸ hmQ, hback ▸ hnQ⟩
  rw [h₃, hback] at hruns₃
  refine ⟨_, peer', ⟨hruns₃, fun k hkn hkm => ?_, fun x hx => List.mem_append_left _ hx⟩, ?_, ?_, hrested⟩
  · rw [Cluster.set_servers, if_neg hkn, Cluster.send_servers, if_neg hkm, Cluster.set_servers, if_neg hkm]
  · rw [Cluster.set_servers, if_pos rfl]
  · rw [Cluster.set_servers, if_neg hne, Cluster.send_servers, if_pos rfl]

/-- The node runs, and is free to vote for the other one in the term. -/
def Cluster.Supports (c : Cluster) (log : List Entry) (n t m : Nat) : Prop :=
  ∃ node, c.servers m = .up node ∧ node.raft.Open log ∧ node.raft.MayVote n t

/-- A request for the vote of the node is on its way. -/
def Cluster.Asked (c : Cluster) (pre : Bool) (log : List Entry) (n t m : Nat) : Prop :=
  ∃ msg ∈ c.net, msg.AsksFor log n t ∧ msg.type = askType pre ∧ msg.to_ = m

theorem Exchanged.supports {k : Nat} (h : Exchanged cfg Q n m c c') (hm : c'.Supports log n t m)
    (hk : c.Supports log n t k) (hkn : k ≠ n) : c'.Supports log n t k := by
  by_cases hkm : k = m
  · exact hkm ▸ hm
  · obtain ⟨node, hup, hopen, hmay⟩ := hk
    exact ⟨node, (h.others k hkn hkm).trans hup, hopen, hmay⟩

theorem Exchanged.asked {k : Nat} (h : Exchanged cfg Q n m c c') (hk : c.Asked pre log n t k) :
    c'.Asked pre log n t k := by
  obtain ⟨msg, hmsg, hask⟩ := hk
  exact ⟨msg, h.net msg hmsg, hask⟩

/-- A supporter is asked and grants, and the node counts that. -/
theorem poll_round (r' : Raft) (hc : Cluster.Reachable cfg Cluster.NoStalePreVote c) (hn : c.servers n = .up node)
    (hp : node.raft.Polls pre log t) (hpos : t ≠ 0) (hm : c.Supports log n t m) (hne : m ≠ n) (hnQ : n ∈ Q)
    (hmQ : m ∈ Q)
    (hvoter : m ∈ cfg.voters) (hasked : c.Asked pre log n t m)
    (hstep : ∀ answer : Message, answer.Grants pre t → answer.from_ = m → node.raft.step answer = .ok (r', .ok)) :
    ∃ c', Exchanged cfg Q n m c c' ∧ c'.servers n = .up { node with raft := r' } ∧ c'.Supports log n t m := by
  obtain ⟨peer, hup, hopen, hmay⟩ := hm
  obtain ⟨msg, hmsg, hask, hty, hto⟩ := hasked
  obtain ⟨hg, hid, -⟩ := (ClusterGood.of_reachable hc).up m peer hup
  obtain ⟨q, hok, -, hopen', hmay', answer, hanswer, hgrant⟩ := step_agrees hg.whole hopen hmay hask hpos
  have htype : answer.type = answerType pre := by
    have hkind := hgrant.type
    rw [hty] at hkind
    cases pre with
    | true => exact (Except.ok.inj hkind).symm
    | false => exact (Except.ok.inj hkind).symm
  have hhears : node.raft.Attends answer := by
    intro hcand hpre
    rw [hp.state] at hcand
    rw [htype] at hpre
    cases pre with
    | true => cases hcand
    | false => cases hpre
  have hkind : answer.type = .msgVoteResp ∨ answer.type = .msgPreVoteResp := by
    rw [htype]
    cases pre with
    | true => exact Or.inr rfl
    | false => exact Or.inl rfl
  obtain ⟨c', peer', hexchanged, hn', hm', hrested⟩ := exchange hc hn hup hne hnQ hmQ hvoter hmsg hask hto hok hanswer
    hkind (hgrant.source.trans hid) (hgrant.to_.trans hask.source) hhears
    (hstep answer ⟨htype, hgrant.term.trans hask.term, hgrant.granted⟩ (hgrant.source.trans hid))
  exact ⟨c', hexchanged, hn', peer', hm', hrested.open_ hopen', hrested.mayVote hmay'⟩

/-- The node counts answers, and lacks some of these for a quorum. -/
structure Cluster.Polling (c : Cluster) (pre : Bool) (log : List Entry) (n t : Nat) (ms : List Nat) (node : RawNode) :
  Prop where
  up : c.servers n = .up node
  polls : node.raft.Polls pre log t
  few : node.raft.votes.keys.length < node.raft.quorum
  enough : node.raft.quorum ≤ node.raft.votes.keys.length + ms.length
  new : ∀ m ∈ ms, m ∉ node.raft.votes.keys

/-- Asking one after the other, the node gets as far as to lack one answer only. -/
theorem rally (hpos : t ≠ 0) (hnQ : n ∈ Q) (ms : List Nat) (hnodup : ms.Nodup)
    (hms : ∀ m ∈ ms, m ≠ n ∧ m ∈ Q ∧ m ∈ cfg.voters)
    (hc : Cluster.Reachable cfg Cluster.NoStalePreVote c) (hp : c.Polling pre log n t ms node)
    (hsupports : ∀ m ∈ ms, c.Supports log n t m) (hasked : ∀ m ∈ ms, c.Asked pre log n t m) :
    ∃ c' node', ∃ m ∈ ms, Cluster.Runs cfg (Cluster.Among Q) c c' ∧ c'.Polling pre log n t [m] node' ∧
      c'.Asked pre log n t m ∧ c'.Supports log n t m ∧ ∀ k, k ≠ n → c.Supports log n t k → c'.Supports log n t k := by
  induction ms generalizing c node with
  | nil => exact absurd hp.enough (by have := hp.few; simp only [List.length_nil]; omega)
  | cons m ms ih =>
      obtain ⟨hne, hmQ, hvoter⟩ := hms m (List.mem_cons_self ..)
      have hnew := hp.new m (List.mem_cons_self ..)
      by_cases hlast : node.raft.quorum = node.raft.votes.keys.length + 1
      · exact ⟨c, node, m, List.mem_cons_self .., .refl, ⟨hp.up, hp.polls, hp.few, hlast.le, by simpa using hnew⟩,
          hasked m (List.mem_cons_self ..), hsupports m (List.mem_cons_self ..), fun k _ hk => hk⟩
      · obtain ⟨-, hlength, hpolls⟩ := poll_tallied hp.polls hnew
        obtain ⟨c₁, hexchanged, hup, hm⟩ := poll_round (node.raft.tallied m) hc hp.up hp.polls hpos
          (hsupports m (List.mem_cons_self ..)) hne hnQ hmQ hvoter (hasked m (List.mem_cons_self ..)) (by
            rintro answer hgrants rfl
            rw [step_counts hp.polls hgrants hpos hnew, if_neg hlast])
        have hfew := hp.few
        have henough := hp.enough
        have hnodup' := List.nodup_cons.mp hnodup
        have hp₁ : c₁.Polling pre log n t ms { node with raft := node.raft.tallied m } := by
          refine ⟨hup, hpolls, ?_, ?_, fun k hk => ?_⟩
          · change (node.raft.tallied m).votes.keys.length < node.raft.quorum
            omega
          · change node.raft.quorum ≤ (node.raft.tallied m).votes.keys.length + ms.length
            simp only [List.length_cons] at henough
            omega
          · change k ∉ (node.raft.votes.insert m true).keys
            rw [AList.keys_insert, List.mem_cons, not_or]
            exact ⟨fun hkm => hnodup'.1 (hkm ▸ hk),
              fun h => hp.new k (List.mem_cons_of_mem _ hk) (List.mem_of_mem_erase h)⟩
        obtain ⟨c', node', k, hk, hruns, hpolling, hask, hsupport, hothers⟩ := ih hnodup'.2
          (fun k hk => hms k (List.mem_cons_of_mem _ hk)) (hexchanged.runs.reachable hc) hp₁
          (fun k hk => hexchanged.supports hm (hsupports k (List.mem_cons_of_mem _ hk))
            (hms k (List.mem_cons_of_mem _ hk)).1)
          (fun k hk => hexchanged.asked (hasked k (List.mem_cons_of_mem _ hk)))
        exact ⟨c', node', k, List.mem_cons_of_mem _ hk, hexchanged.runs.trans hruns, hpolling, hask, hsupport,
          fun k hkn hk => hothers k hkn (hexchanged.supports hm hk hkn)⟩

end Requests

/-! ### An election -/

section Elections

/-- The node has just asked everybody. -/
structure Cluster.Asks (c : Cluster) (Q : Finset Nat) (pre : Bool) (log : List Entry) (n t : Nat) (node : RawNode) :
  Prop where
  up : c.servers n = .up node
  polls : node.raft.Polls pre log t
  alone : node.raft.votes.keys = [n]
  asked : ∀ m ∈ Q, m ≠ n → c.Asked pre log n t m

/-- Its requests are on their way after a round of the driver. -/
theorem asks (hc : Cluster.Reachable cfg Cluster.NoStalePreVote c) (hnQ : n ∈ Q) (hsub : Q ⊆ cfg.voters.toFinset)
    (hn : c.servers n = .up node) (hnode : node.raft = r.asked pre) (hlog : r.raftLog.log = log) :
    ∃ c' node', Cluster.Runs cfg (Cluster.Among Q) c c' ∧ c'.Asks Q pre log n (r.term + 1) node' ∧
      Rested node.raft node'.raft ∧ ∀ k, k ≠ n → c'.servers k = c.servers k := by
  have hgood := ClusterGood.of_reachable hc
  obtain ⟨hg, hid, -⟩ := hgood.up n node hn
  obtain ⟨hpolls, halone, hrequests⟩ := asked_polls (r := r) pre hlog
  obtain ⟨node', hready, hrested⟩ := Cluster.step_ready hgood hn
  have hruns : Cluster.Runs cfg (Cluster.Among Q) c (c.step cfg (.ready n)) := Cluster.Runs.act .refl trivial hnQ
  rw [hready] at hruns
  -- the node and its peers are the same before and after it has asked
  have hself : r.id = n ∧ r.prs.keys.Perm cfg.voters := by
    have hkeys := hg.keys
    rw [hnode] at hid hkeys
    cases pre with
    | true => exact ⟨hid, hkeys⟩
    | false => exact ⟨by simpa [Raft.asked, Raft.campaigning] using hid,
        by simpa [Raft.asked, Raft.campaigning, Raft.standing] using hkeys⟩
  refine ⟨_, node', hruns, ⟨?_, hrested.polls (hnode ▸ hpolls), ?_, fun m hm hne => ?_⟩, hrested, fun k hk => ?_⟩
  · rw [Cluster.send_servers, if_pos rfl]
  · obtain ⟨_, _, _, hframe⟩ := hrested.frame
    rw [hframe, hnode]
    exact halone.trans (by rw [hself.1])
  · obtain ⟨msg, hmsg, hask, hty, hto⟩ := hrequests m (hself.2.mem_iff.mpr (List.mem_toFinset.mp (hsub hm)))
      (hself.1 ▸ hne)
    exact ⟨msg, List.mem_append_right _ (hnode ▸ hmsg), hself.1 ▸ hask, hty, hto⟩
  · rw [Cluster.send_servers, if_neg hk]

/-- With a majority behind it the node gets all answers that it needs but one. -/
theorem Cluster.Asks.rally (h : c.Asks Q pre log n t node) (hc : Cluster.Reachable cfg Cluster.NoStalePreVote c)
    (hv : 2 ≤ cfg.voters.length) (hpos : t ≠ 0) (hnQ : n ∈ Q) (hsub : Q ⊆ cfg.voters.toFinset)
    (hcard : cfg.voters.length < 2 * Q.card) (hsupports : ∀ m ∈ Q, m ≠ n → c.Supports log n t m) :
    ∃ c' node' m, m ∈ Q ∧ m ≠ n ∧ m ∈ cfg.voters ∧ Cluster.Runs cfg (Cluster.Among Q) c c' ∧
      c'.Polling pre log n t [m] node' ∧ c'.Asked pre log n t m ∧ ∀ k ∈ Q, k ≠ n → c'.Supports log n t k := by
  have hmembers : ∀ m ∈ (Q.erase n).toList, m ≠ n ∧ m ∈ Q ∧ m ∈ cfg.voters := by
    intro m hm
    obtain ⟨hne, hmQ⟩ := Finset.mem_erase.mp (Finset.mem_toList.mp hm)
    exact ⟨hne, hmQ, List.mem_toFinset.mp (hsub hmQ)⟩
  obtain ⟨hg, -, -⟩ := (ClusterGood.of_reachable hc).up n node h.up
  have hquorum : node.raft.quorum = cfg.voters.length / 2 + 1 := by
    rw [Raft.quorum, hg.keys.length_eq]
  have hlength : (Q.erase n).toList.length = Q.card - 1 := by
    rw [Finset.length_toList, Finset.card_erase_of_mem hnQ]
  have hp : c.Polling pre log n t (Q.erase n).toList node := by
    refine ⟨h.up, h.polls, ?_, ?_, fun m hm => ?_⟩
    · rw [h.alone, hquorum, List.length_singleton]
      omega
    · rw [h.alone, hquorum, List.length_singleton, hlength]
      omega
    · rw [h.alone, List.mem_singleton]
      exact (hmembers m hm).1
  obtain ⟨c', node', m, hm, hruns, hpolling, hasked, hsupport, hothers⟩ :=
    RaftEtcd.rally hpos hnQ _ (Finset.nodup_toList _) hmembers
    hc hp (fun m hm => hsupports m (hmembers m hm).2.1 (hmembers m hm).1)
    (fun m hm => h.asked m (hmembers m hm).2.1 (hmembers m hm).1)
  obtain ⟨hne, hmQ, hvoter⟩ := hmembers m hm
  exact ⟨c', node', m, hmQ, hne, hvoter, hruns, hpolling, hasked, fun k hk hkn => hothers k hkn (hsupports k hk hkn)⟩

theorem Cluster.Polling.last (h : c.Polling pre log n t [m] node) :
    node.raft.quorum = node.raft.votes.keys.length + 1 ∧ m ∉ node.raft.votes.keys := by
  have hfew := h.few
  have henough := h.enough
  rw [List.length_singleton] at henough
  exact ⟨by omega, h.new m (List.mem_singleton_self m)⟩

/-- The last vote makes it the leader of the term. -/
theorem Cluster.Asks.wins (h : c.Asks Q false log n t node) (hc : Cluster.Reachable cfg Cluster.NoStalePreVote c)
    (hv : 2 ≤ cfg.voters.length) (hpos : t ≠ 0) (hnQ : n ∈ Q) (hsub : Q ⊆ cfg.voters.toFinset)
    (hcard : cfg.voters.length < 2 * Q.card) (hsupports : ∀ m ∈ Q, m ≠ n → c.Supports log n t m) :
    ∃ c', Cluster.Runs cfg (Cluster.Among Q) c c' ∧ c'.Leads n t ∧ log <+: (c'.servers n).log := by
  obtain ⟨c₁, node₁, m, hmQ, hne, hvoter, hruns, hpolling, hasked, hsupports₁⟩ :=
    h.rally hc hv hpos hnQ hsub hcard hsupports
  obtain ⟨hmost, hnew⟩ := hpolling.last
  have hc₁ := hruns.reachable hc
  obtain ⟨hg, hid, -⟩ := (ClusterGood.of_reachable hc₁).up n node₁ hpolling.up
  have hself : node₁.raft.id ∈ node₁.raft.prs.keys := by
    rw [hg.keys.mem_iff, hid]
    exact List.mem_toFinset.mp (hsub hnQ)
  -- every answer that grants has the same effect
  obtain ⟨r', hok, hstate, hterm, hlog⟩ := step_elected hg.whole hpolling.polls
    (show ({ type := .msgVoteResp, from_ := m, term := t } : Message).Grants false t from ⟨rfl, rfl, rfl⟩) hnew hmost
    hself hpos
  rw [step_counts hpolling.polls ⟨rfl, rfl, rfl⟩ hpos hnew] at hok
  obtain ⟨c₂, hexchanged, hup, -⟩ := poll_round r' hc₁ hpolling.up hpolling.polls hpos
    (hsupports₁ m hmQ hne) hne hnQ hmQ hvoter hasked (by
      rintro answer hgrants rfl
      rw [step_counts hpolling.polls hgrants hpos hnew]
      exact hok)
  refine ⟨c₂, hruns.trans hexchanged.runs, ⟨_, hup, hstate, hterm⟩, ?_⟩
  rw [hup]
  exact hlog

end Elections

/-! ### Looking for a term -/

section Terms
variable {low : Nat → Nat}

end Terms

/-! ### Coming back -/

section Starts
variable {st : MemoryStorage} {draws : Nat → Nat}

end Starts

/-! ### The best log -/

section Recovery

end Recovery

end RaftEtcd
