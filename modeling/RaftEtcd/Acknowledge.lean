import Mathlib.Logic.Relation
import RaftEtcd.RedisStore

/-! When a client is told that its write succeeded. The store thread and the raft thread of one
server exchange closures through their queues; each runs its own in the order in which they were
posted. What the rest of the cluster does is left open: the status of a proposal can be anything,
and any command that was ever proposed can be published, also again after a restart. Requests are
numbered over the whole life of the server, and a command remembers the request it came from. -/
namespace RaftEtcd

/-- A command in the log, with the request of this server that proposed it. -/
structure LoggedCommand where
  data : Bytes
  origin : Option Nat := none
  deriving DecidableEq, Repr

/-- The closure that `RaftNode::propose` posts to the raft thread. -/
structure Proposal where
  request : Nat
  commitId : Nat
  isDel : Bool
  deriving DecidableEq, Repr

/-- The closures that are posted to the store thread. -/
inductive Handler where
  | proposed (isDel : Bool) (commitId : Nat) (status : Status)
  | commit (command : LoggedCommand)
  deriving DecidableEq, Repr

structure ClientNode where
  nodeId : Nat
  store : RedisStore Nat := {}
  proposals : List Proposal := []
  handlers : List Handler := []
  /-- The commands of all requests so far. -/
  issued : List RaftCommit := []
  /-- How many of them were made before the last restart. -/
  epoch : Nat := 0
  /-- The requests whose commands the raft core has seen. -/
  proposed : List Nat := []
  /-- The commands that reached the map, and the callbacks that were called. -/
  applied : List LoggedCommand := []
  acks : List (Nat × Status) := []

inductive ClientAction where
  | set (key value : Bytes)
  | del (keys : List Bytes)
  | propose (status : Status)
  | publish (command : LoggedCommand)
  | handle
  | restart (kv : KeyValues)

namespace ClientNode

/-- `set` and `del`: a new request waits, and its proposal is posted. -/
def request (s : ClientNode) (isDel : Bool) (data : RedisCommitData) : ClientNode :=
  { s with
    store := s.store.request s.issued.length
    proposals := s.proposals ++ [{ request := s.issued.length, commitId := s.store.nextRequestId, isDel := isDel }]
    issued := s.issued ++ [s.store.commitOf s.nodeId data] }

/-- The command data of `set` and `del`. -/
def setData (key value : Bytes) : RedisCommitData := { type := kCommitSet, strs := [key, value] }

def delData (keys : List Bytes) : RedisCommitData := { type := kCommitDel, strs := keys }

/-- The raft thread runs the next proposal and posts its status back. -/
def propose (s : ClientNode) (status : Status) : ClientNode :=
  match s.proposals with
  | [] => s
  | p :: ps => { s with
      proposals := ps
      proposed := p.request :: s.proposed
      handlers := s.handlers ++ [.proposed p.isDel p.commitId status] }

/-- A command of this server carries one of its requests; any other carries the number of another
server. -/
def Genuine (mp : Msgpack) (s : ClientNode) (command : LoggedCommand) : Prop :=
  match command.origin with
  | some r => (s.issued[r]?.map fun c => mp.pack c.toObj) = some command.data
  | none => ((decodeCommit mp command.data).map RaftCommit.nodeId) ≠ some s.nodeId

instance (mp : Msgpack) (s : ClientNode) (command : LoggedCommand) : Decidable (s.Genuine mp command) :=
  match h : command.origin with
  | some _ => decidable_of_iff (_ = _) (by simp only [Genuine, h]; exact Iff.rfl)
  | none => decidable_of_iff (_ ≠ _) (by simp only [Genuine, h]; exact Iff.rfl)

/-- Only what was proposed is committed. -/
def publish (mp : Msgpack) (s : ClientNode) (command : LoggedCommand) : ClientNode :=
  if (∀ r ∈ command.origin, r ∈ s.proposed) ∧ s.Genuine mp command then { s with handlers := s.handlers ++ [.commit command] } else s

/-- A new process: the map is rebuilt, and nothing else of the old one is left. -/
def restart (s : ClientNode) (kv : KeyValues) : ClientNode :=
  { s with store := { keyValues := kv }, proposals := [], handlers := [], epoch := s.issued.length }

def acknowledge (s : ClientNode) (r : RedisStore Nat × Option (Nat × Status)) : ClientNode :=
  { s with store := r.1, acks := s.acks ++ r.2.toList }

/-- The store thread runs its next closure; a failed assertion ends the process. -/
def handle (mp : Msgpack) (s : ClientNode) : ClientNode :=
  match s.handlers with
  | [] => s
  | h :: hs =>
      let s := { s with handlers := hs }
      match h with
      | .proposed false commitId status => s.acknowledge (s.store.setProposed commitId status)
      | .proposed true commitId status => s.acknowledge (s.store.delProposed commitId status)
      | .commit command =>
          match s.store.readCommit mp s.nodeId command.data with
          | .error _ => s.restart ∅
          | .ok r =>
              let s := if (decodeCommit mp command.data).isSome then { s with applied := s.applied ++ [command] } else s
              s.acknowledge r

def step (mp : Msgpack) (s : ClientNode) : ClientAction → ClientNode
  | .set key value => s.request false (setData key value)
  | .del keys => s.request true (delData keys)
  | .propose status => s.propose status
  | .publish command => s.publish mp command
  | .handle => s.handle mp
  | .restart kv => s.restart kv

/-- The data of the command that an action issues. -/
def newData : ClientAction → Option RedisCommitData
  | .set key value => some (setData key value)
  | .del keys => some (delData keys)
  | _ => none

/-- Msgpack restores the command that the action issues. -/
def Packs (mp : Msgpack) (s : ClientNode) (a : ClientAction) : Prop :=
  ∀ data ∈ newData a, mp.Restores (s.store.commitOf s.nodeId data).toObj

/-- The request number has not come round since the last restart; the status of a `del` does not
come back while the request is open; and no command of an earlier process is applied while a
request of this one waits under the same number. -/
def Meets (s : ClientNode) (a : ClientAction) : Prop :=
  match a with
  | .set _ _ | .del _ => s.issued.length - s.epoch < 2 ^ 32
  | .handle =>
      match s.handlers.head? with
      | some (.proposed true commitId status) => status.isOk = true → s.store.pendingRequests.lookup commitId = none
      | some (.commit command) => ∀ r c, command.origin = some r → r < s.epoch → s.issued[r]? = some c →
          s.store.pendingRequests.lookup c.commitId = none
      | _ => True
  | _ => True

/-- The runs of a server from its first start, under conditions on the steps. -/
def Runs (mp : Msgpack) (P : ClientNode → ClientAction → Prop) (nodeId : Nat) (s : ClientNode) : Prop :=
  Relation.ReflTransGen (fun s s' => ∃ a, P s a ∧ s' = s.step mp a) { nodeId := nodeId } s

/-- A command that carries this very request has reached the map. -/
def AppliedRequest (mp : Msgpack) (s : ClientNode) (r : Nat) : Prop :=
  ∃ c command, s.issued[r]? = some c ∧ command ∈ s.applied ∧ command.origin = some r ∧ command.data = mp.pack c.toObj

/-! ### What holds in every run -/

/-- The requests of the present process carry the numbers from 0 on, a callback waits under the
number of its own request, and an acknowledged request has been applied. -/
structure Inv (mp : Msgpack) (s : ClientNode) : Prop where
  epoch_le : s.epoch ≤ s.issued.length
  bounded : s.issued.length - s.epoch ≤ 2 ^ 32
  next : s.store.nextRequestId = (s.issued.length - s.epoch) % 2 ^ 32
  packed : ∀ c ∈ s.issued, mp.Restores c.toObj ∧ c.nodeId < 2 ^ 32 ∧ c.commitId < 2 ^ 32
  numbered : ∀ r c, s.issued[r]? = some c → s.epoch ≤ r → c.commitId = r - s.epoch
  pending : ∀ commitId r, s.store.pendingRequests.lookup commitId = some r →
    s.epoch ≤ r ∧ r < s.issued.length ∧ commitId = r - s.epoch
  genuine : ∀ command, Handler.commit command ∈ s.handlers → s.Genuine mp command
  acked : ∀ r, (r, Status.ok) ∈ s.acks → s.AppliedRequest mp r

theorem takePending_spec {κ : Type} (store : RedisStore κ) (commitId : Nat) :
    (store.takePending commitId).2 = store.pendingRequests.lookup commitId ∧
      (store.takePending commitId).1.nextRequestId = store.nextRequestId ∧
      ∀ id r, (store.takePending commitId).1.pendingRequests.lookup id = some r →
        store.pendingRequests.lookup id = some r := by
  unfold RedisStore.takePending
  split
  · rename_i hnone
    exact ⟨hnone.symm, rfl, fun _ _ => id⟩
  · rename_i cb hsome
    refine ⟨hsome.symm, rfl, ?_⟩
    intro id r hlookup
    by_cases hid : id = commitId
    · subst hid
      rw [AList.lookup_erase] at hlookup
      cases hlookup
    · rwa [AList.lookup_erase_ne hid] at hlookup

theorem genuine_request {mp : Msgpack} {s : ClientNode} {command : LoggedCommand} (h : s.Genuine mp command)
    (isDel : Bool) (data : RedisCommitData) : (s.request isDel data).Genuine mp command := by
  unfold Genuine at h ⊢
  cases horigin : command.origin with
  | none => rw [horigin] at h; exact h
  | some r =>
      rw [horigin] at h
      obtain ⟨c, hc, hdata⟩ := Option.map_eq_some_iff.mp h
      have hlt : r < s.issued.length := (List.getElem?_eq_some_iff.mp hc).1
      simp only [request, List.getElem?_append_left hlt]
      exact h

theorem appliedRequest_mono {mp : Msgpack} {s s' : ClientNode} {r : Nat} (h : s.AppliedRequest mp r)
    (hissued : s.issued <+: s'.issued) (happlied : s.applied <+: s'.applied) : s'.AppliedRequest mp r := by
  obtain ⟨c, command, hc, hmem, horigin, hdata⟩ := h
  obtain ⟨more, hmore⟩ := hissued
  refine ⟨c, command, ?_, happlied.subset hmem, horigin, hdata⟩
  rw [← hmore, List.getElem?_append_left (List.getElem?_eq_some_iff.mp hc).1]
  exact hc

theorem Inv.request {mp : Msgpack} {s : ClientNode} (h : s.Inv mp) (isDel : Bool) (data : RedisCommitData)
    (hbound : s.issued.length - s.epoch < 2 ^ 32) (hpack : mp.Restores (s.store.commitOf s.nodeId data).toObj) :
    (s.request isDel data).Inv mp := by
  have hepoch := h.epoch_le
  have hnext : s.store.nextRequestId = s.issued.length - s.epoch := by
    rw [h.next, Nat.mod_eq_of_lt hbound]
  have hlen : (s.request isDel data).issued.length = s.issued.length + 1 := by simp [ClientNode.request]
  refine ⟨by rw [hlen]; exact Nat.le_succ_of_le hepoch, ?_, ?_, ?_, ?_, ?_, ?_, ?_⟩
  · rw [hlen]
    show s.issued.length + 1 - s.epoch ≤ 2 ^ 32
    omega
  · rw [hlen]
    show (s.store.nextRequestId + 1) % 2 ^ 32 = (s.issued.length + 1 - s.epoch) % 2 ^ 32
    rw [hnext]
    congr 1
    omega
  · intro c hc
    rcases List.mem_append.mp hc with hold | hnew
    · exact h.packed c hold
    · rw [List.mem_singleton.mp hnew]
      refine ⟨hpack, Nat.mod_lt _ (by decide), ?_⟩
      show s.store.nextRequestId < 2 ^ 32
      omega
  · intro r c hc hr
    by_cases hlt : r < s.issued.length
    · simp only [ClientNode.request, List.getElem?_append_left hlt] at hc
      exact h.numbered r c hc hr
    · simp only [ClientNode.request, List.getElem?_append_right (Nat.not_lt.mp hlt)] at hc
      rw [List.getElem?_singleton] at hc
      split_ifs at hc with hzero
      obtain rfl := Option.some.inj hc
      show s.store.nextRequestId = r - s.epoch
      omega
  · intro commitId r hlookup
    rw [hlen]
    simp only [ClientNode.request, RedisStore.request] at hlookup ⊢
    by_cases hid : commitId = s.store.nextRequestId
    · subst hid
      rw [AList.lookup_insert] at hlookup
      obtain rfl := Option.some.inj hlookup
      exact ⟨hepoch, by omega, hnext⟩
    · rw [AList.lookup_insert_ne hid] at hlookup
      obtain ⟨hle, hlt, hcid⟩ := h.pending _ _ hlookup
      exact ⟨hle, by omega, hcid⟩
  · exact fun command hmem => genuine_request (h.genuine command hmem) isDel data
  · exact fun r hmem => appliedRequest_mono (h.acked r hmem) (List.prefix_append _ _) (List.prefix_refl _)

/-- A change of the queues keeps everything, as long as the commands in them are genuine. -/
theorem Inv.queues {mp : Msgpack} {s : ClientNode} (h : s.Inv mp) (proposals : List Proposal) (proposed : List Nat)
    (handlers : List Handler) (hgenuine : ∀ command, Handler.commit command ∈ handlers → s.Genuine mp command) :
    Inv mp { s with proposals := proposals, proposed := proposed, handlers := handlers } :=
  ⟨h.epoch_le, h.bounded, h.next, h.packed, h.numbered, h.pending, hgenuine, h.acked⟩

theorem Inv.propose {mp : Msgpack} {s : ClientNode} (h : s.Inv mp) (status : Status) : (s.propose status).Inv mp := by
  unfold ClientNode.propose
  split
  · exact h
  · refine h.queues _ _ _ ?_
    intro command hmem
    rcases List.mem_append.mp hmem with hold | hnew
    · exact h.genuine command hold
    · cases List.mem_singleton.mp hnew

theorem Inv.publish {mp : Msgpack} {s : ClientNode} (h : s.Inv mp) (command : LoggedCommand) :
    (s.publish mp command).Inv mp := by
  unfold ClientNode.publish
  split_ifs with hpub
  · refine h.queues s.proposals s.proposed _ ?_
    intro command' hmem
    rcases List.mem_append.mp hmem with hold | hnew
    · exact h.genuine command' hold
    · obtain rfl := Handler.commit.inj (List.mem_singleton.mp hnew)
      exact hpub.2
  · exact h

theorem Inv.restart {mp : Msgpack} {s : ClientNode} (h : s.Inv mp) (kv : KeyValues) : (s.restart kv).Inv mp := by
  refine ⟨le_rfl, by simp [ClientNode.restart], by simp [ClientNode.restart], h.packed, ?_, ?_, ?_, h.acked⟩
  · intro r c hc hr
    have hlt : r < s.issued.length := (List.getElem?_eq_some_iff.mp hc).1
    have hle : s.issued.length ≤ r := hr
    omega
  · intro commitId r hlookup
    cases hlookup
  · intro command hmem
    cases hmem

theorem Inv.acknowledge {mp : Msgpack} {s : ClientNode} (h : s.Inv mp) (r : RedisStore Nat × Option (Nat × Status))
    (hnext : r.1.nextRequestId = s.store.nextRequestId)
    (hpending : ∀ id x, r.1.pendingRequests.lookup id = some x → s.store.pendingRequests.lookup id = some x)
    (hack : ∀ x, r.2 = some (x, Status.ok) → s.AppliedRequest mp x) : (s.acknowledge r).Inv mp := by
  refine ⟨h.epoch_le, h.bounded, hnext.trans h.next, h.packed, h.numbered,
    fun id x hx => h.pending id x (hpending id x hx), h.genuine, ?_⟩
  intro x hmem
  rcases List.mem_append.mp hmem with hold | hnew
  · exact h.acked x hold
  · exact hack x (Option.mem_toList.mp hnew)

/-- A failed proposal is the only status that `set` passes on. -/
theorem Inv.setProposed {mp : Msgpack} {s : ClientNode} (h : s.Inv mp) (commitId : Nat) (status : Status) :
    (s.acknowledge (s.store.setProposed commitId status)).Inv mp := by
  obtain ⟨-, hnext, hpending⟩ := takePending_spec s.store commitId
  unfold RedisStore.setProposed
  split_ifs with hok
  · exact h.acknowledge _ rfl (fun _ _ => id) (by simp)
  · refine h.acknowledge _ hnext hpending ?_
    intro x hx
    obtain ⟨cb, -, hcb⟩ := Option.map_eq_some_iff.mp hx
    obtain ⟨-, rfl⟩ := Prod.mk.inj hcb
    exact absurd rfl hok

theorem Inv.delProposed {mp : Msgpack} {s : ClientNode} (h : s.Inv mp) (commitId : Nat) (status : Status)
    (hclosed : status.isOk = true → s.store.pendingRequests.lookup commitId = none) :
    (s.acknowledge (s.store.delProposed commitId status)).Inv mp := by
  obtain ⟨hcallback, hnext, hpending⟩ := takePending_spec s.store commitId
  refine h.acknowledge _ hnext hpending ?_
  intro x hx
  obtain ⟨cb, hcb, hstatus⟩ := Option.map_eq_some_iff.mp hx
  obtain ⟨-, rfl⟩ := Prod.mk.inj hstatus
  have hwaits := hcallback.symm.trans hcb
  rw [hclosed rfl] at hwaits
  cases hwaits

/-- The command of a request is read back as it was issued. -/
theorem Inv.decode_own {mp : Msgpack} {s : ClientNode} (h : s.Inv mp) {r : Nat} {c : RaftCommit}
    (hc : s.issued[r]? = some c) : decodeCommit mp (mp.pack c.toObj) = some c := by
  obtain ⟨hrestores, hnode, hcommit⟩ := h.packed c (List.mem_of_getElem? hc)
  rw [decodeCommit, hrestores, Option.bind_some, RaftCommit.convert_toObj {} hnode hcommit]

/-- A callback that a genuine command finds waiting is the one of its own request. -/
theorem Inv.own_callback {mp : Msgpack} {s : ClientNode} (h : s.Inv mp) {command : LoggedCommand}
    (hgenuine : s.Genuine mp command)
    (hstale : ∀ r c, command.origin = some r → r < s.epoch → s.issued[r]? = some c →
      s.store.pendingRequests.lookup c.commitId = none)
    {commit : RaftCommit} (hdecode : decodeCommit mp command.data = some commit) (hnode : commit.nodeId = s.nodeId)
    {x : Nat} (hwaits : s.store.pendingRequests.lookup commit.commitId = some x) :
    ∃ c, s.issued[x]? = some c ∧ command.origin = some x ∧ command.data = mp.pack c.toObj := by
  unfold Genuine at hgenuine
  cases horigin : command.origin with
  | none =>
      rw [horigin] at hgenuine
      exact absurd (by rw [hdecode, Option.map_some, hnode]) hgenuine
  | some r =>
      rw [horigin] at hgenuine
      obtain ⟨c, hc, hdata⟩ := Option.map_eq_some_iff.mp hgenuine
      rw [← hdata, h.decode_own hc] at hdecode
      obtain rfl := Option.some.inj hdecode
      by_cases hr : r < s.epoch
      · rw [hstale r c horigin hr hc] at hwaits
        cases hwaits
      · obtain ⟨hle, -, hnum⟩ := h.pending _ _ hwaits
        have hown := h.numbered r c hc (Nat.not_lt.mp hr)
        obtain rfl : x = r := by omega
        exact ⟨c, hc, rfl, hdata.symm⟩

/-- The map changes before the callback is called. -/
theorem Inv.applied {mp : Msgpack} {s : ClientNode} (h : s.Inv mp) (command : LoggedCommand) :
    Inv mp { s with applied := s.applied ++ [command] } :=
  ⟨h.epoch_le, h.bounded, h.next, h.packed, h.numbered, h.pending, h.genuine, fun r hr =>
    appliedRequest_mono (h.acked r hr) (List.prefix_refl _) (List.prefix_append _ _)⟩

theorem Inv.readCommit {mp : Msgpack} {s : ClientNode} (h : s.Inv mp) {command : LoggedCommand}
    (hgenuine : s.Genuine mp command)
    (hstale : ∀ r c, command.origin = some r → r < s.epoch → s.issued[r]? = some c →
      s.store.pendingRequests.lookup c.commitId = none)
    {res : RedisStore Nat × Option (Nat × Status)} (hres : s.store.readCommit mp s.nodeId command.data = .ok res) :
    ((if (decodeCommit mp command.data).isSome then { s with applied := s.applied ++ [command] } else s).acknowledge
      res).Inv mp := by
  unfold RedisStore.readCommit at hres
  cases hdecode : decodeCommit mp command.data with
  | none =>
      rw [hdecode] at hres
      obtain rfl := Except.ok.inj hres
      exact h.acknowledge _ rfl (fun _ _ => id) (by simp)
  | some commit =>
      simp only [hdecode, bind, Except.bind] at hres
      cases hdata : s.store.keyValues.applyData commit.redisData with
      | error e => rw [hdata] at hres; cases hres
      | ok kv =>
          simp only [hdata] at hres
          have happlied := h.applied command
          simp only [Option.isSome_some, if_true]
          split_ifs at hres with hnode
          · obtain rfl := Except.ok.inj hres
            obtain ⟨hcallback, hnext, hpending⟩ :=
              takePending_spec { s.store with keyValues := kv } commit.commitId
            refine happlied.acknowledge _ hnext hpending ?_
            intro x hx
            obtain ⟨cb, hcb, hstatus⟩ := Option.map_eq_some_iff.mp hx
            obtain ⟨rfl, -⟩ := Prod.mk.inj hstatus
            rw [hcallback] at hcb
            obtain ⟨c, hc, horigin, hpack⟩ := h.own_callback hgenuine hstale hdecode hnode hcb
            exact ⟨c, command, hc, List.mem_append_right _ (List.mem_singleton.mpr rfl), horigin, hpack⟩
          · obtain rfl := Except.ok.inj hres
            exact happlied.acknowledge _ rfl (fun _ _ => id) (by simp)

theorem Inv.handle {mp : Msgpack} {s : ClientNode} (h : s.Inv mp) (hmeets : s.Meets .handle) : (s.handle mp).Inv mp := by
  unfold ClientNode.handle
  cases hhandlers : s.handlers with
  | nil => exact h
  | cons handler hs =>
      have hqueue : Inv mp { s with handlers := hs } :=
        h.queues s.proposals s.proposed hs fun command hmem =>
          h.genuine command (hhandlers ▸ List.mem_cons_of_mem _ hmem)
      simp only [Meets, hhandlers, List.head?_cons] at hmeets
      match handler, hmeets, hhandlers with
      | .proposed false commitId status, _, _ => exact hqueue.setProposed commitId status
      | .proposed true commitId status, hmeets, _ => exact hqueue.delProposed commitId status hmeets
      | .commit command, hmeets, hhandlers =>
          have hgenuine : ClientNode.Genuine mp { s with handlers := hs } command :=
            h.genuine command (hhandlers ▸ List.mem_cons_self)
          cases hres : s.store.readCommit mp s.nodeId command.data with
          | error e =>
              simp only [hres]
              exact hqueue.restart ∅
          | ok res =>
              simp only [hres]
              exact hqueue.readCommit hgenuine hmeets hres

/-- One step keeps the invariant. -/
theorem Inv.step {mp : Msgpack} {s : ClientNode} (h : s.Inv mp) {a : ClientAction} (hpacks : s.Packs mp a)
    (hmeets : s.Meets a) : (s.step mp a).Inv mp := by
  cases a with
  | set key value => exact h.request false _ hmeets (hpacks _ rfl)
  | del keys => exact h.request true _ hmeets (hpacks _ rfl)
  | propose status => exact h.propose status
  | publish command => exact h.publish command
  | handle => exact h.handle hmeets
  | restart kv => exact h.restart kv

theorem inv_initial (mp : Msgpack) (nodeId : Nat) : Inv mp { nodeId := nodeId } := by
  refine ⟨le_rfl, by simp, rfl, by simp, by simp, ?_, by simp, by simp⟩
  intro commitId r hlookup
  cases hlookup

theorem Runs.inv {mp : Msgpack} {nodeId : Nat} {s : ClientNode}
    (h : Runs mp (fun s a => s.Packs mp a ∧ s.Meets a) nodeId s) : s.Inv mp := by
  induction h with
  | refl => exact inv_initial mp nodeId
  | tail _ hstep ih =>
      obtain ⟨a, ⟨hpacks, hmeets⟩, rfl⟩ := hstep
      exact ih.step hpacks hmeets

end ClientNode

/-- In every run whose steps meet the conditions, a callback is told that its request succeeded
only after a command with this very request was applied. -/
theorem acknowledged_request_applied (mp : Msgpack) (nodeId : Nat) (s : ClientNode)
    (hrun : ClientNode.Runs mp (fun s a => s.Packs mp a ∧ s.Meets a) nodeId s) (r : Nat)
    (hack : (r, Status.ok) ∈ s.acks) : s.AppliedRequest mp r :=
  hrun.inv.acked r hack

namespace ClientNode

/-- The actions of a list, one after the other, from the first start of server 1. -/
def after (mp : Msgpack) (as : List ClientAction) : ClientNode := as.foldl (step mp) { nodeId := 1 }

/-- The conditions are met by every action of the list. -/
def MeetsAll (mp : Msgpack) : ClientNode → List ClientAction → Prop
  | _, [] => True
  | s, a :: as => (s.Packs mp a ∧ s.Meets a) ∧ MeetsAll mp (s.step mp a) as

theorem meetsAll_runs {mp : Msgpack} {nodeId : Nat} {s : ClientNode} {as : List ClientAction}
    (hrun : Runs mp (fun s a => s.Packs mp a ∧ s.Meets a) nodeId s) (h : MeetsAll mp s as) :
    Runs mp (fun s a => s.Packs mp a ∧ s.Meets a) nodeId (as.foldl (step mp) s) := by
  induction as generalizing s with
  | nil => exact hrun
  | cons a as ih => exact ih (hrun.tail ⟨a, h.1, rfl⟩) h.2

end ClientNode

/-- The command of the first request, as it stands in the log. -/
def firstCommand (data : RedisCommitData) : LoggedCommand where
  data := messagePack.pack (RaftCommit.toObj { nodeId := 1, commitId := 0, redisData := data })
  origin := some 0

/-- A write that is proposed, committed and applied. -/
def setAndCommit : List ClientAction :=
  [.set [97] [49], .propose .ok, .handle, .publish (firstCommand (ClientNode.setData [97] [49])), .handle]

theorem setAndCommit_meets : ClientNode.MeetsAll messagePack { nodeId := 1 } setAndCommit := by
  have hnone : ∀ (s : ClientNode) (a : ClientAction), ClientNode.newData a = none → s.Packs messagePack a := by
    intro s a hnew data hdata
    rw [hnew] at hdata
    cases hdata
  refine ⟨⟨?_, ?_⟩, ⟨hnone _ _ rfl, trivial⟩, ⟨hnone _ _ rfl, trivial⟩, ⟨hnone _ _ rfl, trivial⟩,
    ⟨hnone _ _ rfl, ?_⟩, trivial⟩
  · intro data hdata
    obtain rfl := Option.some.inj hdata
    rfl
  · exact (by decide : 0 < 2 ^ 32)
  · intro r c _ hr _
    exact absurd hr (Nat.not_lt_zero r)

theorem acknowledged_request_applied_set :
    ClientNode.Runs messagePack (fun s a => s.Packs messagePack a ∧ s.Meets a) 1
        (ClientNode.after messagePack setAndCommit) ∧
      (0, Status.ok) ∈ (ClientNode.after messagePack setAndCommit).acks ∧
      (ClientNode.after messagePack setAndCommit).AppliedRequest messagePack 0 := by
  have hrun := ClientNode.meetsAll_runs .refl setAndCommit_meets
  have hack : (0, Status.ok) ∈ (ClientNode.after messagePack setAndCommit).acks := by decide +kernel
  exact ⟨hrun, hack, acknowledged_request_applied messagePack 1 _ hrun 0 hack⟩

/-- A delete that is proposed, and nothing more. -/
def delAndPropose : List ClientAction := [.del [[97]], .propose .ok, .handle]

/-- A write that is proposed before a restart, and another one behind it when the first is
committed. -/
def setAcrossRestart : List ClientAction :=
  [.set [97] [49], .propose .ok, .restart ∅, .set [98] [50],
    .publish (firstCommand (ClientNode.setData [97] [49])), .handle]

/-- The delete is acknowledged when the leader has taken it, before it is committed; and the
second write is acknowledged when the first is applied. -/
theorem acknowledged_before_applied :
    ((0, Status.ok) ∈ (ClientNode.after messagePack delAndPropose).acks ∧
        ¬ (ClientNode.after messagePack delAndPropose).AppliedRequest messagePack 0) ∧
      (1, Status.ok) ∈ (ClientNode.after messagePack setAcrossRestart).acks ∧
        ¬ (ClientNode.after messagePack setAcrossRestart).AppliedRequest messagePack 1 := by
  refine ⟨⟨by decide +kernel, ?_⟩, by decide +kernel, ?_⟩
  · rintro ⟨c, command, -, hmem, -, -⟩
    have hnone : (ClientNode.after messagePack delAndPropose).applied = [] := by decide +kernel
    rw [hnone] at hmem
    cases hmem
  · rintro ⟨c, command, -, hmem, horigin, -⟩
    have hfirst : ∀ command ∈ (ClientNode.after messagePack setAcrossRestart).applied, command.origin = some 0 := by
      decide +kernel
    rw [hfirst command hmem] at horigin
    cases horigin

end RaftEtcd
