import RaftEtcd.Durability
import RaftEtcd.LocalSnapshot

/-! The servers of a cluster with their stores: what a node hands out as committed is posted to the thread of the store,
which works it off in its own time, and a client is answered from there. Membership is fixed, and nothing is compacted. -/
namespace RaftEtcd
open Consensus
variable {κ : Type} {mp : Msgpack} {cfg : ClusterConfig}

/-- The process of a server beside its node. -/
structure Process (κ : Type) where
  appliedIndex : Nat := 0
  store : RedisStore κ := {}
  queue : List (StoreHandler κ) := []

namespace Process

def entriesToApply (p : Process κ) (entries : List Entry) : Result (List Entry) :=
  match entries with
  | [] => .ok []
  | entry :: _ =>
      if entry.index > p.appliedIndex + 1 then
        .error "first index of committed entry[%lu] should <= progress.appliedIndex[%lu]+1"
      else .ok (entries.drop (p.appliedIndex + 1 - entry.index))

/-- One turn of the loop of `publish_entries`. There are no changes of the configuration. -/
def postEntry (p : Process κ) (entry : Entry) : Result (Process κ) :=
  if entry.type = entryNormal then
    .ok { p with
      appliedIndex := entry.index
      queue := if entry.data = [] then p.queue else p.queue ++ [.readCommit entry.data] }
  else if entry.type = entryConfChange then .ok { p with appliedIndex := entry.index }
  else .error "unknown type %d"

def publish (p : Process κ) (entries : List Entry) : Result (Process κ) := do
  let ents ← p.entriesToApply entries
  ents.foldlM postEntry p

/-- The thread of the store runs the handler that comes next. -/
def serve (mp : Msgpack) (n : Nat) (p : Process κ) : Result (Process κ) :=
  match p.queue with
  | [] => .ok p
  | h :: queue => do
      let (store, _) ← h.run mp n p.store
      .ok { p with store := store, queue := queue }

end Process

structure Service (κ : Type) where
  cluster : Cluster
  process : Nat → Process κ

inductive ServiceAction (κ : Type) where
  | raft (a : Action)
  | session (n : Nat) (h : StoreHandler κ)
  | serve (n : Nat)

namespace Service

def init : Service κ := { cluster := .init, process := fun _ => {} }

def setProcess (x : Service κ) (n : Nat) (p : Process κ) : Service κ :=
  { x with process := Function.update x.process n p }

/-- The process has ended; what is left is the storage. -/
def abort (x : Service κ) (n : Nat) : Service κ :=
  { x with cluster := x.cluster.set n (.down (x.cluster.servers n).storage) }

/-- A round of `pull_ready_events`: when the entries are published, the rest is done. -/
def ready (x : Service κ) (n : Nat) : Service κ :=
  let y := { x with cluster := x.cluster.ready n }
  match x.cluster.servers n with
  | .down _ => y
  | .up node =>
      match node.ready with
      | .error _ => y
      | .ok (rd, _) =>
          match (x.process n).publish rd.committedEntries with
          | .ok p => y.setProcess n p
          | .error _ => y.abort n

def start (cfg : ClusterConfig) (x : Service κ) (n applied : Nat) (draws : Nat → Nat) : Service κ :=
  let y := { x with cluster := x.cluster.start cfg n applied draws }
  match x.cluster.servers n with
  | .down _ => y.setProcess n {}
  | .up _ => y

def step (mp : Msgpack) (cfg : ClusterConfig) (x : Service κ) : ServiceAction κ → Service κ
  | .raft (.ready n) => x.ready n
  | .raft (.start n applied draws) => x.start cfg n applied draws
  | .raft a => { x with cluster := x.cluster.step cfg a }
  | .session n h => x.setProcess n { x.process n with queue := (x.process n).queue ++ [h] }
  | .serve n =>
      match x.cluster.servers n with
      | .down _ => x
      | .up _ =>
          match (x.process n).serve mp n with
          | .ok p => x.setProcess n p
          | .error _ => x.abort n

end Service

/-- What a server asks of its node: it starts from what is stored, and proposes commands only. -/
def Action.Served : Action → Prop
  | .start _ applied _ => applied = 0
  | .proposeConfChange _ _ => False
  | _ => True

def Service.Allowed (x : Service κ) : ServiceAction κ → Prop
  | .raft a => x.cluster.NoStalePreVote a ∧ a.Served
  | .session _ h => h.IsSession
  | .serve _ => True

def Service.Runs (mp : Msgpack) (cfg : ClusterConfig) : Service κ → Service κ → Prop :=
  Relation.ReflTransGen fun x x' => ∃ a, x.Allowed a ∧ x' = x.step mp cfg a

def Service.Reachable (mp : Msgpack) (cfg : ClusterConfig) (x : Service κ) : Prop := Runs mp cfg .init x

instance (a : Action) : Decidable a.Served :=
  match a with
  | .start _ applied _ => inferInstanceAs (Decidable (applied = 0))
  | .proposeConfChange .. => isFalse id
  | .crash _ | .tick _ | .campaign _ | .propose .. | .transferLeadership .. | .readIndex .. | .reportUnreachable ..
  | .reportSnapshot .. | .deliver _ | .ready _ => isTrue trivial

instance (h : StoreHandler κ) : Decidable h.IsSession :=
  match h with
  | .readCommit _ | .recoverFromSnapshot _ | .getSnapshot => isFalse id
  | .request _ | .read | .setProposed .. | .delProposed .. => isTrue trivial

namespace Service

instance (x : Service κ) (a : ServiceAction κ) : Decidable (x.Allowed a) :=
  match a with
  | .raft a => inferInstanceAs (Decidable (x.cluster.NoStalePreVote a ∧ a.Served))
  | .session _ h => inferInstanceAs (Decidable h.IsSession)
  | .serve _ => isTrue trivial

/-- The actions of a list, one after the other. -/
def exec (mp : Msgpack) (cfg : ClusterConfig) (x : Service κ) (as : List (ServiceAction κ)) : Service κ :=
  as.foldl (step mp cfg) x

def Allows (mp : Msgpack) (cfg : ClusterConfig) : Service κ → List (ServiceAction κ) → Prop
  | _, [] => True
  | x, a :: as => x.Allowed a ∧ Allows mp cfg (x.step mp cfg a) as

instance decidableAllows (mp : Msgpack) (cfg : ClusterConfig) :
    (x : Service κ) → (as : List (ServiceAction κ)) → Decidable (Allows mp cfg x as)
  | _, [] => isTrue trivial
  | x, a :: as => @instDecidableAnd _ _ _ (decidableAllows mp cfg (x.step mp cfg a) as)

theorem exec_runs {x : Service κ} {as : List (ServiceAction κ)} (h : Allows mp cfg x as) :
    Runs mp cfg x (x.exec mp cfg as) := by
  induction as generalizing x with
  | nil => exact .refl
  | cons a as ih => exact .head ⟨a, h.1, rfl⟩ (ih h.2)

end Service

/-! ### What the stores are for -/

/-- The map that the commands of a log leave. -/
def replay (mp : Msgpack) (entries : List Entry) : Result KeyValues := entries.foldlM (applyEntry mp) ∅

def Entry.command (e : Entry) : Option Bytes := if e.type = entryNormal ∧ e.data ≠ [] then some e.data else none

def StoreHandler.command : StoreHandler κ → Option Bytes
  | .readCommit data => some data
  | _ => none

/-- No command waits for the thread of the store. -/
def Process.Idle (p : Process κ) : Prop := p.queue.filterMap StoreHandler.command = []

instance (p : Process κ) : Decidable p.Idle := inferInstanceAs (Decidable (_ = _))

theorem StoreHandler.of_command {h : StoreHandler κ} {data : Bytes} (hcommand : h.command = some data) :
    h = .readCommit data := by
  cases h with
  | readCommit data' => rw [Option.some.inj hcommand]
  | _ => cases hcommand

theorem replay_append {es es' : List Entry} {kv : KeyValues} (h : replay mp es = .ok kv) :
    replay mp (es ++ es') = es'.foldlM (applyEntry mp) kv := by
  rw [replay, List.foldlM_append]
  change (replay mp es >>= _) = _
  rw [h]
  rfl

theorem applyEntry_of_none {e : Entry} {kv : KeyValues} (h : e.command = none) : applyEntry mp kv e = .ok kv := by
  rw [applyEntry, if_neg]
  intro hc
  rw [Entry.command, if_pos hc] at h
  cases h

/-- What holds no command changes nothing. -/
theorem foldlM_of_none {es : List Entry} {kv : KeyValues} (h : es.filterMap Entry.command = []) :
    es.foldlM (applyEntry mp) kv = .ok kv := by
  induction es with
  | nil => rfl
  | cons e es ih =>
      rw [List.filterMap_eq_nil_iff] at h
      rw [List.foldlM_cons, applyEntry_of_none (h e (List.mem_cons_self ..))]
      exact ih (List.filterMap_eq_nil_iff.mpr fun e' he' => h e' (List.mem_cons_of_mem _ he'))

/-- The store has done the first `k` of the entries that are published, and the others wait for it. -/
structure Process.Does (mp : Msgpack) (entries : List Entry) (p : Process κ) (k : Nat) : Prop where
  le : k ≤ p.appliedIndex
  done : replay mp (entries.take k) = .ok p.store.keyValues
  waits : p.queue.filterMap StoreHandler.command = ((entries.take p.appliedIndex).drop k).filterMap Entry.command
  queue : ∀ h ∈ p.queue, h.IsSession ∨ ∃ data, h = .readCommit data

namespace Process.Does
variable {p p' : Process κ} {entries entries' : List Entry} {k n : Nat}

theorem fresh (entries : List Entry) : ({} : Process κ).Does mp entries 0 :=
  ⟨le_rfl, rfl, rfl, nofun⟩

/-- Only what is published matters. -/
theorem congr (h : p.Does mp entries k) (heq : entries'.take p.appliedIndex = entries.take p.appliedIndex) :
    p.Does mp entries' k := by
  refine ⟨h.le, ?_, heq ▸ h.waits, h.queue⟩
  rw [take_eq_of_le heq h.le]
  exact h.done

theorem idle (h : p.Does mp entries k) (hidle : p.Idle) : p.Does mp entries p.appliedIndex := by
  have hnone : ((entries.take p.appliedIndex).drop k).filterMap Entry.command = [] := h.waits.symm.trans hidle
  refine ⟨le_rfl, ?_, ?_, h.queue⟩
  · have hsplit := List.take_append_drop k (entries.take p.appliedIndex)
    rw [List.take_take, min_eq_left h.le] at hsplit
    rw [← hsplit, replay_append h.done, foldlM_of_none hnone]
  · rw [List.drop_eq_nil_of_le (List.length_take_le _ _)]
    exact hidle

theorem session (h : p.Does mp entries k) {g : StoreHandler κ} (hg : g.IsSession) :
    Process.Does mp entries { p with queue := p.queue ++ [g] } k := by
  refine ⟨h.le, h.done, ?_, fun g' hg' => ?_⟩
  · have hnone : g.command = none := by
      cases g <;> first | rfl | exact hg.elim
    rw [List.filterMap_append, List.filterMap_cons_none hnone, List.filterMap_nil, List.append_nil]
    exact h.waits
  · rcases List.mem_append.mp hg' with hg' | hg'
    · exact h.queue g' hg'
    · exact Or.inl (List.mem_singleton.mp hg' ▸ hg)

end Process.Does

/-! ### What the cluster does -/

section Applied
variable {c : Cluster} {s : Sys Nat Entry} {node node' : RawNode} {n : Nat}

/-- There are no snapshots on the net. -/
theorem MsgGood.term_ne {msg : Message} (h : MsgGood cfg msg) (hlead : msg.type.isFromLeader = true) : msg.term ≠ 0 := by
  refine (h.peer ?_).1
  have hsnap := h.snap
  cases hty : msg.type <;> rw [hty] at hlead hsnap <;> first | exact absurd rfl hsnap | rfl | cases hlead

theorem stepRaft_applied {msg : Message} {st : Status} (hterm : msg.type.isFromLeader = true → msg.term ≠ 0)
    (h : node.stepRaft msg = .ok (node', st)) : node'.raft.raftLog.applied = node.raft.raftLog.applied :=
  (step_handles hterm (stepRaft_ok h).1).log.applied

theorem call_applied {m : Nat} {f : RawNode → Result RawNode}
    (hf : ∀ node node', c.servers m = .up node → f node = .ok node' →
      node'.raft.raftLog.applied = node.raft.raftLog.applied) (hup : (c.call m f).servers n = .up node') :
    ∃ node, c.servers n = .up node ∧ node'.raft.raftLog.applied = node.raft.raftLog.applied := by
  unfold Cluster.call at hup
  split at hup
  · exact ⟨node', hup, rfl⟩
  rename_i node hnode
  split at hup
  · rename_i node₁ hok
    rw [Cluster.set_servers] at hup
    split at hup
    · rename_i heq
      obtain rfl := Server.up.inj hup
      exact ⟨node, heq ▸ hnode, hf node _ hnode hok⟩
    · exact ⟨node', hup, rfl⟩
  · rw [Cluster.set_servers] at hup
    split at hup
    · cases hup
    · exact ⟨node', hup, rfl⟩

theorem callStatus_applied {m : Nat} {f : RawNode → Result (RawNode × Status)}
    (hf : ∀ node, ∃ msg : Message, msg.type.isFromLeader = false ∧ f node = node.stepRaft msg)
    (hup : (c.callStatus m f).servers n = .up node') :
    ∃ node, c.servers n = .up node ∧ node'.raft.raftLog.applied = node.raft.raftLog.applied := by
  refine call_applied (fun node node' _ h => ?_) hup
  obtain ⟨st, h⟩ := map_fst_ok h
  obtain ⟨msg, hown, hmsg⟩ := hf node
  rw [hmsg] at h
  exact stepRaft_applied (fun hlead => absurd (hlead.symm.trans hown) (by decide)) h

/-- Only a start and a `Ready` change what a node has applied. -/
theorem step_applied (hc : ClusterGood cfg c) {a : Action} (hstart : ∀ m applied draws, a ≠ .start m applied draws)
    (hready : ∀ m, a ≠ .ready m) (hup : (c.step cfg a).servers n = .up node') :
    ∃ node, c.servers n = .up node ∧ node'.raft.raftLog.applied = node.raft.raftLog.applied := by
  cases a with
  | start m applied draws => exact (hstart m applied draws rfl).elim
  | ready m => exact (hready m rfl).elim
  | crash m =>
      rw [Cluster.step, Cluster.set_servers] at hup
      split at hup
      · cases hup
      · exact ⟨node', hup, rfl⟩
  | tick m =>
      refine call_applied (fun node node' _ h => ?_) hup
      obtain ⟨r', hr', h⟩ := bind_ok h
      obtain rfl := Except.ok.inj h
      exact (tick_evolves (W := True) hr').log.applied
  | campaign m => exact callStatus_applied (fun node => ⟨_, rfl, rfl⟩) hup
  | propose m data => exact callStatus_applied (fun node => ⟨_, rfl, rfl⟩) hup
  | proposeConfChange m data => exact callStatus_applied (fun node => ⟨_, rfl, rfl⟩) hup
  | transferLeadership m lead transferee => exact callStatus_applied (fun node => ⟨_, rfl, rfl⟩) hup
  | readIndex m rctx => exact callStatus_applied (fun node => ⟨_, rfl, rfl⟩) hup
  | reportUnreachable m id => exact callStatus_applied (fun node => ⟨_, rfl, rfl⟩) hup
  | reportSnapshot m id failure => exact callStatus_applied (fun node => ⟨_, rfl, rfl⟩) hup
  | deliver msg =>
      rw [Cluster.step] at hup
      split at hup
      · rename_i hm
        refine call_applied (fun node node' _ h => ?_) hup
        obtain ⟨st, h⟩ := map_fst_ok h
        simp only [RawNode.step] at h
        split at h
        · rw [← (Prod.mk.inj (Except.ok.inj h)).1]
        split at h
        · exact stepRaft_applied (hc.net msg hm).term_ne h
        · rw [← (Prod.mk.inj (Except.ok.inj h)).1]
      · exact ⟨node', hup, rfl⟩

/-- What a node that stays up has committed it keeps. -/
theorem step_committed (h : Lifted cfg s c) {a : Action} (ha : c.NoStalePreVote a) (hup : c.servers n = .up node)
    (hup' : (c.step cfg a).servers n = .up node') : node.raft.raftLog.committed ≤ node'.raft.raftLog.committed ∧
      node'.raft.raftLog.log.take node.raft.raftLog.committed = node.raft.raftLog.log.take node.raft.raftLog.committed := by
  have hmove : Moves cfg True c (c.step cfg a) := step_moves h.good ha fun _ => h.acksBounded
  obtain ⟨b, xs, hrun, habs⟩ := hmove.own_steps trivial h.good h.tracked ⟨node', hup'⟩
  have hback := (h.tracked.backs n).node_len
  rw [hup] at hrun hback
  rw [hup'] at habs
  have hlog : node'.raft.raftLog.log = b.log := congrArg Node.log habs
  have hcommit : node'.raft.raftLog.committed = b.commit := congrArg Node.commit habs
  rw [hlog, hcommit]
  exact ⟨(LocalStep.run_le hrun).2, (LocalStep.run_committed hrun hback).2⟩

theorem RaftLog.Whole.unstable_indexed {l : RaftLog} (h : l.Whole) : IndexedFrom l.unstable.offset l.unstable.entries := by
  intro k e he
  have hpos := h.offset_pos
  have hget := h.get_unstable (i := l.unstable.offset - 1 + k) (by omega)
  rw [show l.unstable.offset - 1 + k + 1 - l.unstable.offset = k by omega, he] at hget
  have hidx := h.indexed _ e hget
  omega

/-- What comes next for the application is a stretch of the log up to the commit index. -/
theorem RaftLog.Whole.nextEntries_spec {l : RaftLog} (h : l.Whole) (hle : l.applied ≤ l.committed) {es : List Entry}
    (hnext : l.nextEntries = .ok es) : es <+: l.log.drop l.applied ∧ l.applied + es.length ≤ l.committed := by
  have hcom := h.committed_le
  have hbase : l.logical.index = 0 := by
    rw [RaftLog.logical_none h.no_snapshot]
    exact h.dummy_index
  have hpiece := RaftLog.nextEntries_piece (l := l) (by rw [h.dummy_index]; exact h.stored) h.unstable_indexed
    (by rw [h.dummy_index, hbase]) (by rw [hbase]; omega) hnext
  have hfits := hpiece.fits
  rw [hbase] at hfits
  refine ⟨?_, by omega⟩
  rw [RaftLog.nextEntries, h.firstIndex_eq, max_eq_left (by omega)] at hnext
  simp only at hnext
  split at hnext
  · obtain ⟨es', hslice, hfront⟩ := h.slice_spec l.maxNextEntsSize (show 1 ≤ l.applied + 1 by omega)
      (show l.applied + 1 ≤ l.committed + 1 by omega) (by omega)
    rw [hslice] at hnext
    obtain rfl := Except.ok.inj hnext
    exact hfront
  · obtain rfl := Except.ok.inj hnext
    exact List.nil_prefix

theorem advanceLog_applied (l : RaftLog) (rd : Ready) : (RawNode.advanceLog l rd).applied =
    if rd.appliedCursor > 0 then rd.appliedCursor else l.applied := by
  have hfirst : (if rd.appliedCursor > 0 then l.appliedTo rd.appliedCursor else l).applied =
      if rd.appliedCursor > 0 then rd.appliedCursor else l.applied := by
    split
    · rename_i hpos
      rw [RaftLog.appliedTo, if_neg (by omega)]
    · rfl
  rw [← hfirst]
  unfold RawNode.advanceLog
  cases rd.entries.getLast? with
  | none =>
      simp only
      split <;> rfl
  | some e =>
      simp only
      split <;> rfl

/-- A `Ready` hands out what comes next, and counts it as applied in the end. -/
theorem handleReady_applied {rd : Ready} {n₁ : RawNode} {msgs : List Message} (hg : Good cfg node.raft)
    (hle : node.raft.raftLog.applied ≤ node.raft.raftLog.committed) (hready : node.ready = .ok (rd, n₁))
    (h : node.handleReady = .ok (msgs, node')) : rd.committedEntries <+: node.raft.raftLog.log.drop node.raft.raftLog.applied ∧
      node.raft.raftLog.applied + rd.committedEntries.length ≤ node.raft.raftLog.committed ∧
      node'.raft.raftLog.applied = node.raft.raftLog.applied + rd.committedEntries.length := by
  obtain ⟨hnext, -, hsnap, hlog⟩ := ready_spec hready
  rw [hg.whole.no_snapshot] at hsnap
  obtain ⟨hfront, hreach⟩ := hg.whole.nextEntries_spec hle hnext
  refine ⟨hfront, hreach, ?_⟩
  unfold RawNode.handleReady at h
  obtain ⟨⟨rd', n'⟩, hready', h⟩ := bind_ok h
  obtain ⟨rfl, rfl⟩ := Prod.mk.inj (Except.ok.inj (hready.symm.trans hready'))
  obtain ⟨st, -, h⟩ := bind_ok h
  obtain ⟨-, rfl⟩ := Prod.mk.inj (Except.ok.inj h)
  have hidx : IndexedFrom (rd.start node.raft.raftLog.applied + 1) rd.committedEntries := by
    rw [Ready.start, hsnap]
    have hdrop := hg.whole.indexed.drop node.raft.raftLog.applied
    rw [Nat.add_comm] at hdrop
    exact hdrop.of_initial hfront
  have hstart : rd.start node.raft.raftLog.applied = node.raft.raftLog.applied := by
    rw [Ready.start, hsnap]
    rfl
  have hcursor := Ready.cursor_cases hidx
  simp only [RawNode.advance, advanceLog_applied, hlog]
  rw [Ready.reaches, hstart, hsnap] at hcursor
  rcases hcursor with ⟨hzero, heq⟩ | ⟨hpos, heq⟩
  · rw [if_neg (by rw [hzero]; decide)]
    omega
  · rw [if_pos hpos, heq]

end Applied

/-! ### What is published -/

section Publishing
variable {p p' : Process κ} {entries es : List Entry} {k : Nat}

/-- Entries that follow each other are posted one after the other. -/
theorem posts_spec (hidx : IndexedFrom (p.appliedIndex + 1) es) (h : es.foldlM Process.postEntry p = .ok p') :
    p'.appliedIndex = p.appliedIndex + es.length ∧ p'.store = p.store ∧
      p'.queue.filterMap StoreHandler.command = p.queue.filterMap StoreHandler.command ++ es.filterMap Entry.command ∧
      ∀ g ∈ p'.queue, g ∈ p.queue ∨ ∃ data, g = .readCommit data := by
  induction es generalizing p with
  | nil =>
      obtain rfl := Except.ok.inj h
      exact ⟨rfl, rfl, (List.append_nil _).symm, fun g hg => Or.inl hg⟩
  | cons e es ih =>
      obtain ⟨hindex, hrest⟩ := hidx.cons
      rw [List.foldlM_cons] at h
      obtain ⟨p₁, hpost, h⟩ := bind_ok h
      have hone : p₁.appliedIndex = p.appliedIndex + 1 ∧ p₁.store = p.store ∧
          p₁.queue.filterMap StoreHandler.command = p.queue.filterMap StoreHandler.command ++ [e].filterMap Entry.command ∧
          ∀ g ∈ p₁.queue, g ∈ p.queue ∨ ∃ data, g = .readCommit data := by
        unfold Process.postEntry at hpost
        split at hpost
        · rename_i hty
          obtain rfl := Except.ok.inj hpost
          refine ⟨hindex, rfl, ?_, fun g hg => ?_⟩
          · by_cases hdata : e.data = []
            · simp [Entry.command, hdata]
            · simp [Entry.command, hdata, hty, StoreHandler.command, List.filterMap_append]
          · simp only at hg
            split at hg
            · exact Or.inl hg
            · rcases List.mem_append.mp hg with hg | hg
              · exact Or.inl hg
              · exact Or.inr ⟨_, List.mem_singleton.mp hg⟩
        split at hpost
        · rename_i hty _
          obtain rfl := Except.ok.inj hpost
          exact ⟨hindex, rfl, by simp [Entry.command, hty], fun g hg => Or.inl hg⟩
        · cases hpost
      obtain ⟨happ, hstore, hqueue, hmem⟩ := hone
      obtain ⟨happ', hstore', hqueue', hmem'⟩ := ih (happ ▸ hrest) h
      refine ⟨?_, hstore'.trans hstore, ?_, fun g hg => ?_⟩
      · rw [happ', happ, List.length_cons]
        omega
      · rw [hqueue', hqueue, List.append_assoc, ← List.filterMap_append, List.singleton_append]
      · rcases hmem' g hg with hg | hg
        · exact hmem g hg
        · exact Or.inr hg

/-- What follows the published entries is published as a whole. -/
theorem Process.Does.publish (h : p.Does mp entries k) (hidx : IndexedFrom 1 entries) (hle : p.appliedIndex ≤ entries.length)
    (hes : es <+: entries.drop p.appliedIndex) (hp : p.publish es = .ok p') :
    p'.appliedIndex = p.appliedIndex + es.length ∧ p'.Does mp entries k := by
  have hnum : IndexedFrom (p.appliedIndex + 1) es := by
    rw [Nat.add_comm]
    exact (hidx.drop p.appliedIndex).of_initial hes
  have hall : p.entriesToApply es = .ok es := by
    cases es with
    | nil => rfl
    | cons e es =>
        have hindex := hnum.cons.1
        rw [Process.entriesToApply, if_neg (by omega), hindex, Nat.sub_self, List.drop_zero]
  rw [Process.publish, hall] at hp
  obtain ⟨happ, hstore, hqueue, hmem⟩ := posts_spec hnum hp
  have hlen := hes.length_le
  rw [List.length_drop] at hlen
  have hk := h.le
  have hsplit : (entries.take (p.appliedIndex + es.length)).drop k = (entries.take p.appliedIndex).drop k ++ es := by
    rw [List.take_add, List.drop_append_of_le_length (by rw [List.length_take]; omega)]
    congr 1
    exact (List.prefix_iff_eq_take.mp hes).symm
  refine ⟨happ, by omega, hstore ▸ h.done, ?_, fun g hg => ?_⟩
  · rw [hqueue, happ, hsplit, List.filterMap_append, h.waits]
  · rcases hmem g hg with hg | hg
    · exact h.queue g hg
    · exact Or.inr hg

/-- The store does what comes next, if it is a command. -/
theorem Process.Does.serve {n : Nat} (h : p.Does mp entries k) (hp : p.serve mp n = .ok p') :
    p'.appliedIndex = p.appliedIndex ∧ ∃ k', k ≤ k' ∧ p'.Does mp entries k' := by
  unfold Process.serve at hp
  split at hp
  · obtain rfl := Except.ok.inj hp
    exact ⟨rfl, k, le_rfl, h⟩
  rename_i g queue hqueue
  obtain ⟨⟨store, answer⟩, hrun, hp⟩ := bind_ok hp
  obtain rfl := Except.ok.inj hp
  refine ⟨rfl, ?_⟩
  have hwaits := h.waits
  have hothers : ∀ g' ∈ queue, g'.IsSession ∨ ∃ data, g' = .readCommit data :=
    fun g' hg' => h.queue g' (hqueue ▸ List.mem_cons_of_mem _ hg')
  rw [hqueue] at hwaits
  rcases h.queue g (hqueue ▸ List.mem_cons_self ..) with hsession | ⟨data, rfl⟩
  · -- a session leaves the map as it is
    have hnone : g.command = none := by
      cases g <;> first | rfl | exact hsession.elim
    rw [List.filterMap_cons_none hnone] at hwaits
    obtain ⟨store', hrun', hsame⟩ : ∃ store', g.run mp n p.store = .ok (store', none) ∧
        store'.keyValues = p.store.keyValues := StoreHandler.run_session hsession
    obtain ⟨rfl, -⟩ := Prod.mk.inj (Except.ok.inj (hrun'.symm.trans hrun))
    exact ⟨k, le_rfl, h.le, hsame ▸ h.done, hwaits, hothers⟩
  · have hfirst : ((entries.take p.appliedIndex).drop k).filterMap Entry.command =
        data :: queue.filterMap StoreHandler.command := hwaits.symm
    obtain ⟨front, e, rest, hlist, hfront, he, hrest⟩ := List.filterMap_eq_cons_iff.mp hfirst
    have hlen : k + (front.length + rest.length + 1) = (entries.take p.appliedIndex).length := by
      have := congrArg List.length hlist
      simp only [List.length_drop, List.length_append, List.length_cons] at this
      omega
    have hsplit : entries.take p.appliedIndex = entries.take k ++ front ++ [e] ++ rest := by
      have htake := List.take_append_drop k (entries.take p.appliedIndex)
      rw [hlist, List.take_take, min_eq_left h.le] at htake
      rw [← htake]
      simp
    have hk : (entries.take k ++ front ++ [e]).length = k + front.length + 1 := by
      rw [List.length_take] at hlen
      simp only [List.length_append, List.length_take, List.length_singleton]
      omega
    rw [List.length_take] at hlen
    have htake : entries.take (k + front.length + 1) = entries.take k ++ front ++ [e] := by
      have := congrArg (List.take (k + front.length + 1)) hsplit
      rwa [List.take_take, min_eq_left (by omega), List.take_left' hk] at this
    have hdrop : (entries.take p.appliedIndex).drop (k + front.length + 1) = rest := by
      rw [hsplit]
      exact List.drop_left' hk
    have hcommand : e.type = entryNormal ∧ e.data ≠ [] ∧ e.data = data := by
      unfold Entry.command at he
      split at he
      · rename_i hc
        exact ⟨hc.1, hc.2, Option.some.inj he⟩
      · cases he
    obtain ⟨hty, hdata, rfl⟩ := hcommand
    obtain ⟨⟨store₁, callback⟩, hread, hrun⟩ := bind_ok hrun
    obtain ⟨rfl, -⟩ := Prod.mk.inj (Except.ok.inj hrun)
    refine ⟨k + front.length + 1, by omega, by simp only; omega, ?_, ?_, hothers⟩
    · rw [htake, List.append_assoc, replay_append h.done, List.foldlM_append,
        foldlM_of_none (List.filterMap_eq_nil_iff.mpr hfront)]
      change (applyEntry mp p.store.keyValues e >>= fun kv => .ok kv) = _
      rw [readCommit_applies hty hdata hread]
      rfl
    · rw [hdrop, hrest]

end Publishing

/-! ### Whole runs -/

namespace Service
variable {x x' : Service κ} {a : ServiceAction κ}

/-- The end of a process is a crash. -/
theorem abort_cluster (x : Service κ) (n : Nat) :
    Cluster.Runs cfg Cluster.NoStalePreVote x.cluster (x.abort n).cluster := .single ⟨.crash n, trivial, rfl⟩

/-- What the servers do is a run of the cluster. -/
theorem step_cluster (ha : x.Allowed a) :
    Cluster.Runs cfg Cluster.NoStalePreVote x.cluster (x.step mp cfg a).cluster := by
  cases a with
  | raft a =>
      have hone : Cluster.Runs cfg Cluster.NoStalePreVote x.cluster (x.cluster.step cfg a) := .single ⟨a, ha.1, rfl⟩
      cases a with
      | ready n =>
          change Cluster.Runs cfg Cluster.NoStalePreVote x.cluster (x.ready n).cluster
          unfold Service.ready
          simp only
          split
          · exact hone
          split
          · exact hone
          split
          · exact hone
          · exact Relation.ReflTransGen.trans hone (abort_cluster { x with cluster := x.cluster.ready n } n)
      | start n applied draws =>
          change Cluster.Runs cfg Cluster.NoStalePreVote x.cluster (x.start cfg n applied draws).cluster
          unfold Service.start
          simp only
          split <;> exact hone
      | _ => exact hone
  | session n h => exact .refl
  | serve n =>
      rw [Service.step]
      split
      · exact .refl
      split
      · exact .refl
      · exact abort_cluster x n

theorem Runs.cluster (hr : Runs mp cfg x x') : Cluster.Runs cfg Cluster.NoStalePreVote x.cluster x'.cluster := by
  induction hr with
  | refl => exact .refl
  | tail _ hstep ih =>
      obtain ⟨a, ha, rfl⟩ := hstep
      exact Relation.ReflTransGen.trans ih (step_cluster ha)

/-- A server has published what its node counts as applied, and its store works on it. -/
structure Serves (mp : Msgpack) (p : Process κ) (node : RawNode) : Prop where
  applied : p.appliedIndex = node.raft.raftLog.applied
  committed : node.raft.raftLog.applied ≤ node.raft.raftLog.committed
  does : ∃ k, p.Does mp node.raft.raftLog.log k

/-- Every server that runs does. -/
def Sound (mp : Msgpack) (x : Service κ) : Prop := ∀ n node, x.cluster.servers n = .up node → Serves mp (x.process n) node

theorem Sound.setProcess (h : x.Sound mp) {n : Nat} {p : Process κ}
    (hp : ∀ node, x.cluster.servers n = .up node → Serves mp p node) : (x.setProcess n p).Sound mp := by
  intro m node hup
  change Serves mp (Function.update x.process n p m) node
  by_cases hm : m = n
  · subst hm
    rw [Function.update_self]
    exact hp node hup
  · rw [Function.update_of_ne hm]
    exact h m node hup

theorem Sound.abort (h : x.Sound mp) (n : Nat) : (x.abort n).Sound mp := by
  intro m node hup
  change (x.cluster.set n _).servers m = _ at hup
  rw [Cluster.set_servers] at hup
  split at hup
  · cases hup
  · exact h m node hup

variable {s : Sys Nat Entry}

theorem Sound.other (h : x.Sound mp) (hs : Lifted cfg s x.cluster) {a : Action} (ha : x.cluster.NoStalePreVote a)
    (hstart : ∀ m applied draws, a ≠ .start m applied draws) (hready : ∀ m, a ≠ .ready m) :
    Sound mp { x with cluster := x.cluster.step cfg a } := by
  intro n node' hup'
  obtain ⟨node, hup, happlied⟩ := step_applied hs.good hstart hready hup'
  obtain ⟨hle, htake⟩ := step_committed hs ha hup hup'
  have hserves := h n node hup
  obtain ⟨k, hdoes⟩ := hserves.does
  refine ⟨hserves.applied.trans happlied.symm, by rw [happlied]; exact hserves.committed.trans hle, k, hdoes.congr ?_⟩
  exact take_eq_of_le htake (hserves.applied ▸ hserves.committed)

theorem Sound.start (h : x.Sound mp) (hs : Lifted cfg s x.cluster) (n : Nat) (draws : Nat → Nat) :
    (x.start cfg n 0 draws).Sound mp := by
  have hothers : ∀ m, m ≠ n → (x.cluster.start cfg n 0 draws).servers m = x.cluster.servers m := by
    intro m hm
    unfold Cluster.start
    repeat' split
    all_goals first | rfl | rw [Cluster.set_servers, if_neg hm]
  unfold Service.start
  simp only
  cases hdown : x.cluster.servers n with
  | up node =>
      have hstay : x.cluster.start cfg n 0 draws = x.cluster := by
        rw [Cluster.start, hdown]
      simp only [hstay]
      exact h
  | down st =>
      intro m node hup
      change (x.cluster.start cfg n 0 draws).servers m = _ at hup
      change Serves mp (Function.update x.process n {} m) node
      by_cases hm : m = n
      · subst hm
        rw [Function.update_self]
        rw [Cluster.start, hdown] at hup
        simp only at hup
        split at hup
        · split at hup
          · rename_i hmem node₁ hok
            rw [Cluster.set_servers, if_pos rfl] at hup
            obtain rfl := Server.up.inj hup
            have hst := hs.good.store m
            rw [hdown] at hst
            obtain ⟨r, hr, hok⟩ := bind_ok hok
            obtain rfl := Except.ok.inj hok
            obtain ⟨-, -, happ, -⟩ := new_log hr
            have hzero : r.raftLog.applied = 0 := by
              rw [happ]
              split
              · rename_i hpos
                exact absurd hpos (lt_irrefl 0)
              · exact hst.dummy_index
            exact ⟨hzero.symm, by change r.raftLog.applied ≤ _; omega, 0, .fresh _⟩
          · cases hdown.symm.trans hup
        · cases hdown.symm.trans hup
      · rw [Function.update_of_ne hm]
        exact h m node (hothers m hm ▸ hup)

/-- The server that is not there, or fails, is down after its round. -/
theorem ready_up {c : Cluster} {n : Nat} {node' : RawNode} (hup : (c.ready n).servers n = .up node') :
    ∃ node msgs, c.servers n = .up node ∧ node.handleReady = .ok (msgs, node') := by
  unfold Cluster.ready at hup
  split at hup
  · rename_i hdown
    cases hdown.symm.trans hup
  rename_i node hnode
  split at hup
  · rename_i msgs node₁ hok
    rw [Cluster.send_servers, if_pos rfl] at hup
    obtain rfl := Server.up.inj hup
    exact ⟨node, msgs, hnode, hok⟩
  · rw [Cluster.set_servers, if_pos rfl] at hup
    cases hup

theorem ready_others {c : Cluster} {m n : Nat} (hm : m ≠ n) : (c.ready n).servers m = c.servers m := by
  unfold Cluster.ready
  split
  · rfl
  split
  · rw [Cluster.send_servers, if_neg hm]
  · rw [Cluster.set_servers, if_neg hm]

/-- The server publishes what its `Ready` hands out. -/
theorem Serves.ready {p p' : Process κ} {node node' n₁ : RawNode} {rd : Ready} {msgs : List Message}
    (h : Serves mp p node) (hg : Good cfg node.raft) (hst : StoreGood node.raft.raftLog.storage) (hprev : Handed node)
    (hready : node.ready = .ok (rd, n₁)) (hok : node.handleReady = .ok (msgs, node'))
    (hpublish : p.publish rd.committedEntries = .ok p') : Serves mp p' node' := by
  obtain ⟨happlied, hcommitted, k, hdoes⟩ := h
  obtain ⟨hfront, hreach, happ⟩ := handleReady_applied hg hcommitted hready hok
  obtain ⟨-, hflushed⟩ := handleReady_spec hg hst hprev hok
  have hlog : node'.raft.raftLog.log = node.raft.raftLog.log := congrArg Node.log hflushed.abs
  have hcom : node'.raft.raftLog.committed = node.raft.raftLog.committed := congrArg Node.commit hflushed.abs
  rw [← happlied] at hfront happ hreach
  have hlen := hg.whole.committed_le
  obtain ⟨hindex, hdoes'⟩ := hdoes.publish hg.whole.indexed (by omega) hfront hpublish
  refine ⟨hindex.trans happ.symm, ?_, k, ?_⟩
  · rw [happ, hcom]
    exact hreach
  · rw [hlog]
    exact hdoes'

theorem Sound.ready (h : x.Sound mp) (hs : Lifted cfg s x.cluster) (n : Nat) : (x.ready n).Sound mp := by
  have hothers : ∀ m, m ≠ n → ∀ node, (x.cluster.ready n).servers m = .up node → Serves mp (x.process m) node :=
    fun m hm node hup => h m node (ready_others hm ▸ hup)
  -- a round that leaves the process as it is leaves no server
  have hstay : (∀ node', (x.cluster.ready n).servers n ≠ .up node') → Sound mp { x with cluster := x.cluster.ready n } := by
    intro hdown m node hup
    by_cases hm : m = n
    · subst hm
      exact (hdown node hup).elim
    · exact hothers m hm node hup
  unfold Service.ready
  simp only
  cases hnode : x.cluster.servers n with
  | down st =>
      refine hstay fun node' hup => ?_
      obtain ⟨node, msgs, hup', -⟩ := ready_up hup
      cases hnode.symm.trans hup'
  | up node =>
      simp only
      cases hready : node.ready with
      | error text =>
          refine hstay fun node' hup => ?_
          obtain ⟨node₁, msgs, hup', hok⟩ := ready_up hup
          obtain rfl := Server.up.inj (hnode.symm.trans hup')
          obtain ⟨rd, hrd, -⟩ := bind_ok hok
          cases hready.symm.trans hrd
      | ok res =>
          obtain ⟨rd, n₁⟩ := res
          simp only
          cases hpublish : (x.process n).publish rd.committedEntries with
          | error text =>
              intro m node' hup
              change ((x.cluster.ready n).set n _).servers m = _ at hup
              rw [Cluster.set_servers] at hup
              split at hup
              · cases hup
              · rename_i hm
                exact hothers m hm node' hup
          | ok p =>
              intro m node' hup
              change Serves mp (Function.update x.process n p m) node'
              change (x.cluster.ready n).servers m = _ at hup
              by_cases hm : m = n
              · subst hm
                rw [Function.update_self]
                obtain ⟨node₁, msgs, hup', hok⟩ := ready_up hup
                obtain rfl := Server.up.inj (hnode.symm.trans hup')
                obtain ⟨hg, -, hprev⟩ := hs.good.up m _ hup'
                have hst := hs.good.store m
                rw [hup'] at hst
                exact (h m _ hup').ready hg hst hprev hready hok hpublish
              · rw [Function.update_of_ne hm]
                exact hothers m hm node' hup

theorem Sound.step (h : x.Sound mp) (hs : Lifted cfg s x.cluster) (ha : x.Allowed a) : (x.step mp cfg a).Sound mp := by
  cases a with
  | raft a =>
      cases a with
      | ready n => exact h.ready hs n
      | start n applied draws =>
          obtain rfl : applied = 0 := ha.2
          exact h.start hs n draws
      | _ => exact h.other hs ha.1 (fun _ _ _ => nofun) fun _ => nofun
  | session n g =>
      refine h.setProcess fun node hup => ?_
      obtain ⟨happlied, hcommitted, k, hdoes⟩ := h n node hup
      exact ⟨happlied, hcommitted, k, hdoes.session ha⟩
  | serve n =>
      rw [Service.step]
      split
      · exact h
      rename_i node hup
      split
      · rename_i p hp
        refine h.setProcess fun node' hup' => ?_
        obtain ⟨happlied, hcommitted, k, hdoes⟩ := h n node' hup'
        obtain ⟨happ, k', -, hdoes'⟩ := hdoes.serve hp
        exact ⟨happ.trans happlied, hcommitted, k', hdoes'⟩
      · exact h.abort n

theorem Sound.of_reachable (hv : 2 ≤ cfg.voters.length) (hx : Reachable mp cfg x) : x.Sound mp := by
  induction hx with
  | refl =>
      intro n node hup
      cases hup
  | tail hr hstep ih =>
      obtain ⟨a, ha, rfl⟩ := hstep
      obtain ⟨s, -, hs, -⟩ := Lifted.of_runs hv (Runs.cluster hr) .refl
      exact ih.step hs ha

end Service

/-- A command of server 1. -/
def setCommand : Bytes :=
  messagePack.pack (RaftCommit.toObj { nodeId := 1, redisData := { type := kCommitSet, strs := [[97], [49]] } })

section Posted
variable {x x' : Service κ} {n : Nat} {node : RawNode} {front : List Entry} {e : Entry}

end Posted

end RaftEtcd
