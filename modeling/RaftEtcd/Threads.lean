import RaftEtcd.Delivery
import RaftEtcd.RaftNode

/-! The two threads of a server. What the raft thread wants of the store it posts to the queue of the
store's `io_service`, whose one thread runs the handlers in that order; its own indexes have moved on
by then. Only for a snapshot of its own does it wait for the answer. -/
namespace RaftEtcd

open Journal (Prog)

/-! ### The queue -/

/-- A handler of the store. The sessions of the clients run on the same thread: they ask for a
change, read, or learn what became of a proposal. -/
inductive StoreHandler (κ : Type) where
  | readCommit (data : Bytes)
  | recoverFromSnapshot (snap : Bytes)
  | getSnapshot
  | request (callback : κ)
  | read
  | setProposed (commitId : Nat) (status : Status)
  | delProposed (commitId : Nat) (status : Status)

namespace StoreHandler
variable {κ : Type}

/-- What a handler leaves, and the data for which the raft thread waits. The callback of a recovery
ends the process when the snapshot was no map. -/
def run (mp : Msgpack) (nodeId : Nat) (store : RedisStore κ) : StoreHandler κ → Result (RedisStore κ × Option Bytes)
  | .readCommit data => do
      let (store, _) ← store.readCommit mp nodeId data
      .ok (store, none)
  | .recoverFromSnapshot snap => do
      let (store, status) ← store.recoverFromSnapshot mp snap
      if !status.isOk then .error "recover from snapshot error %s" else .ok (store, none)
  | .getSnapshot => .ok (store, some (store.getSnapshot mp))
  | .request callback => .ok (store.request callback, none)
  | .read => .ok (store, none)
  | .setProposed commitId status => .ok ((store.setProposed commitId status).1, none)
  | .delProposed commitId status => .ok ((store.delProposed commitId status).1, none)

/-- What the raft thread does not post for the log. -/
def IsSession : StoreHandler κ → Prop
  | .readCommit _ | .recoverFromSnapshot _ | .getSnapshot => False
  | .request _ | .read | .setProposed _ _ | .delProposed _ _ => True

/-- The store when all that waits has run. -/
def drain (mp : Msgpack) (nodeId : Nat) : List (StoreHandler κ) → RedisStore κ → Result (RedisStore κ)
  | [], store => .ok store
  | h :: queue, store => do
      let (store, _) ← h.run mp nodeId store
      drain mp nodeId queue store

end StoreHandler

/-! ### The raft thread -/

namespace RaftNode
variable {κ : Type}

/-- `publish_snapshot`, as the raft thread sees it. -/
def postSnapshot (s : RaftNode κ) (snap : Snapshot) : Result (RaftNode κ × List (StoreHandler κ)) :=
  if snap.isEmpty then .ok (s, [])
  else if snap.metadata.index ≤ s.appliedIndex then
    .error "snapshot index [%lu] should > progress.appliedIndex [%lu] + 1"
  else
    .ok ({ s with
      confState := snap.metadata.confState
      snapshotIndex := snap.metadata.index
      appliedIndex := snap.metadata.index }, [.recoverFromSnapshot snap.data])

def receiveSnapshot (mp : Msgpack) (crc : Bytes → UInt32) (s : RaftNode κ) (snap : Snapshot) :
    Proc (RaftNode κ × List (StoreHandler κ)) :=
  if snap.isEmpty then pure (s, [])
  else do
    let s ← s.saveSnap mp crc snap
    (s.setStorage (s.storage.applySnapshot snap).2).postSnapshot snap

/-- A `Ready` is saved; what is posted on the way comes with the server. -/
def stageReady (mp : Msgpack) (crc : Bytes → UInt32) (s : RaftNode κ) (rd : Ready) :
    Proc (RaftNode κ × List (StoreHandler κ)) := do
  let s ← s.walCall fun w => w.save mp crc rd.hardState rd.entries
  let (s, posted) ← s.receiveSnapshot mp crc rd.snapshot
  let st ← s.storage.append rd.entries
  pure (s.setStorage st, posted)

/-- One turn of the loop of `publish_entries`; the last component says whether it goes on. -/
def postEntry (mp : Msgpack) (s : RaftNode κ) (entry : Entry) : Result (RaftNode κ × List (StoreHandler κ) × Bool) :=
  if entry.type = entryNormal then
    .ok ({ s with appliedIndex := entry.index }, if entry.data = [] then [] else [.readCommit entry.data], true)
  else if entry.type = entryConfChange then
    match decodeConfChange mp entry.data with
    | none => .ok (s, [], true)
    | some cc => do
        let (node, confState) ← s.node.applyConfChange cc
        let s := { s with node := node, confState := confState }
        if cc.confChangeType = confChangeRemoveNode ∧ cc.nodeId = s.id then .ok (s, [], false)
        else .ok ({ s with appliedIndex := entry.index }, [], true)
  else .error "unknown type %d"

/-- What `maybe_trigger_snapshot` does once the store has answered. -/
def snapshotAt (mp : Msgpack) (crc : Bytes → UInt32) (s : RaftNode κ) (data : Bytes) : Proc (RaftNode κ) := do
  let (status, snap, st) ← s.storage.createSnapshot s.appliedIndex (some s.confState) data
  if !status.isOk then Prog.ofExcept (.error "create snapshot error %s")
  else do
    let s ← (s.setStorage st).saveSnap mp crc snap
    let compactIndex := if s.appliedIndex > snapshotCatchUpEntriesN then s.appliedIndex - snapshotCatchUpEntriesN else 1
    let (status, st) ← s.storage.compact compactIndex
    if !status.isOk then Prog.ofExcept (.error "compact error %s")
    else pure { s.setStorage st with snapshotIndex := s.appliedIndex }

end RaftNode

/-- Where the raft thread stands: between two rounds, in the loop over the entries of a `Ready`, or
in `future.wait()`. -/
inductive Position where
  | loop
  | publishing (rd : Ready) (entries : List Entry)
  | waiting (rd : Ready)

/-- The last snapshot that was recovered, with its index, and the committed entries that the node has
handed out behind it. Nothing reads it. -/
structure History where
  index : Nat
  map : Option KeyValues
  entries : List Entry := []

def History.take (mp : Msgpack) (history : History) (rd : Ready) : History :=
  if rd.snapshot.isEmpty then { history with entries := history.entries ++ rd.committedEntries }
  else
    { index := rd.snapshot.metadata.index
      map := (mp.unpack rd.snapshot.data).bind KeyValues.convert
      entries := rd.committedEntries }

/-- The store of the server belongs to the store thread. -/
structure Threads (κ : Type) where
  raft : RaftNode κ
  position : Position := .loop
  queue : List (StoreHandler κ) := []
  answer : Option Bytes := none
  history : History

inductive Event (κ : Type) where
  | call (a : NodeAction)
  | take
  | publish
  | trigger
  | create
  | serve
  | post (h : StoreHandler κ)

namespace Threads
variable {κ : Type} (mp : Msgpack) (crc : Bytes → UInt32)

/-- The store has what the constructor recovered. -/
def start (s : RaftNode κ) : Threads κ :=
  { raft := s, history := { index := s.appliedIndex, map := some s.store.keyValues } }

/-- A round up to the loop over the entries. -/
def take (t : Threads κ) : Result (Threads κ) :=
  if !t.raft.node.hasReady then .ok t
  else do
    let (rd, node) ← t.raft.node.ready
    if !rd.containsUpdates then .ok { t with raft := { t.raft with node := node } }
    else do
      let (s, posted) ← (({ t.raft with node := node }).stageReady mp crc rd).result
      let entries ← s.entriesToApply rd.committedEntries
      .ok { t with
        raft := s
        queue := t.queue ++ posted
        position := .publishing rd entries
        history := t.history.take mp rd }

/-- The thread takes part in one thing at a time; what it cannot do now is no step. -/
def run (t : Threads κ) : Event κ → Result (Threads κ)
  | .call a =>
      match t.position with
      | .loop => do
          let n ← t.raft.node.run a
          .ok { t with raft := { t.raft with node := n } }
      | _ => .error "not in the loop"
  | .take =>
      match t.position with
      | .loop => t.take mp crc
      | _ => .error "not in the loop"
  | .publish =>
      match t.position with
      | .publishing rd (entry :: entries) => do
          let (s, posted, more) ← t.raft.postEntry mp entry
          .ok { t with
            raft := s
            queue := t.queue ++ posted
            position := .publishing rd (if more then entries else []) }
      | _ => .error "no entry"
  | .trigger =>
      match t.position with
      | .publishing rd [] =>
          if (t.raft.appliedIndex + 2 ^ 64 - t.raft.snapshotIndex) % 2 ^ 64 ≤ t.raft.snapCount then
            .ok { t with raft := { t.raft with node := t.raft.node.advance rd }, position := .loop }
          else .ok { t with queue := t.queue ++ [.getSnapshot], position := .waiting rd, answer := none }
      | _ => .error "not behind the entries"
  | .create =>
      match t.position, t.answer with
      | .waiting rd, some data => do
          let s ← (t.raft.snapshotAt mp crc data).result
          .ok { t with raft := { s with node := s.node.advance rd }, position := .loop, answer := none }
      | _, _ => .error "no answer"
  | .serve =>
      match t.queue with
      | [] => .error "no handler"
      | h :: queue => do
          let (store, answer) ← h.run mp t.raft.id t.raft.store
          .ok { t with raft := { t.raft with store := store }, queue := queue, answer := answer <|> t.answer }
  | .post h => .ok { t with queue := t.queue ++ [h] }

end Threads

/-- Peers number the entries that they send, and others than the raft thread post for sessions only. -/
def Event.Allowed {κ : Type} : Event κ → Prop
  | .call a => a.IsCall
  | .post h => h.IsSession
  | _ => True

/-- Any interleaving of the threads. -/
def Threads.Runs {κ : Type} (mp : Msgpack) (crc : Bytes → UInt32) : Threads κ → Threads κ → Prop :=
  Relation.ReflTransGen fun t t' => ∃ e : Event κ, e.Allowed ∧ t.run mp crc e = .ok t'

/-! ### The map at an index -/

/-- What an entry does to the map; a command that cannot be read does nothing. -/
def applyEntry (mp : Msgpack) (kv : KeyValues) (entry : Entry) : Result KeyValues :=
  if entry.type = entryNormal ∧ entry.data ≠ [] then
    match decodeCommit mp entry.data with
    | none => .ok kv
    | some commit => kv.applyData commit.redisData
  else .ok kv

/-- The last snapshot, and on it the entries up to the index. -/
def History.mapAt (mp : Msgpack) (history : History) (i : Nat) : Option KeyValues :=
  history.map.bind fun kv => ((history.entries.filter (·.index ≤ i)).foldlM (applyEntry mp) kv).toOption

/-! ### The store thread -/

theorem readCommit_applies {κ : Type} {mp : Msgpack} {nodeId : Nat} {store store' : RedisStore κ} {entry : Entry}
    {callback : Option (κ × Status)} (hty : entry.type = entryNormal) (hdata : entry.data ≠ [])
    (h : store.readCommit mp nodeId entry.data = .ok (store', callback)) :
    applyEntry mp store.keyValues entry = .ok store'.keyValues := by
  rw [applyEntry, if_pos ⟨hty, hdata⟩]
  exact RedisStore.readCommit_keyValues h

namespace StoreHandler
variable {κ : Type} {mp : Msgpack} {nodeId : Nat} {h : StoreHandler κ} {queue : List (StoreHandler κ)}
  {store store' : RedisStore κ}

/-- A session cannot end the process, and leaves the map alone. -/
theorem run_session (hs : h.IsSession) :
    ∃ store', h.run mp nodeId store = .ok (store', none) ∧ store'.keyValues = store.keyValues := by
  cases h with
  | readCommit data => exact hs.elim
  | recoverFromSnapshot snap => exact hs.elim
  | getSnapshot => exact hs.elim
  | request callback => exact ⟨_, rfl, rfl⟩
  | read => exact ⟨_, rfl, rfl⟩
  | setProposed commitId status =>
      refine ⟨_, rfl, ?_⟩
      unfold RedisStore.setProposed
      split
      · rfl
      · exact RedisStore.takePending_keyValues store commitId
  | delProposed commitId status => exact ⟨_, rfl, RedisStore.takePending_keyValues store commitId⟩

/-- Only the question for a snapshot is answered. -/
theorem run_answer {answer : Option Bytes} (hne : h ≠ .getSnapshot) (hrun : h.run mp nodeId store = .ok (store', answer)) :
    answer = none := by
  cases h with
  | readCommit data =>
      obtain ⟨p, -, hrun⟩ := bind_ok hrun
      exact (Prod.mk.inj (Except.ok.inj hrun)).2.symm
  | recoverFromSnapshot snap =>
      obtain ⟨p, -, hrun⟩ := bind_ok hrun
      simp only at hrun
      split at hrun
      · cases hrun
      · exact (Prod.mk.inj (Except.ok.inj hrun)).2.symm
  | getSnapshot => exact (hne rfl).elim
  | request callback => exact (Prod.mk.inj (Except.ok.inj hrun)).2.symm
  | read => exact (Prod.mk.inj (Except.ok.inj hrun)).2.symm
  | setProposed commitId status => exact (Prod.mk.inj (Except.ok.inj hrun)).2.symm
  | delProposed commitId status => exact (Prod.mk.inj (Except.ok.inj hrun)).2.symm

/-- A recovery that does not end the process leaves the map of the snapshot. -/
theorem run_recover {snap : Bytes} {answer : Option Bytes}
    (hrun : (recoverFromSnapshot snap).run mp nodeId store = .ok (store', answer)) :
    (mp.unpack snap).bind KeyValues.convert = some store'.keyValues := by
  obtain ⟨⟨store₁, status⟩, hrecover, hrun⟩ := bind_ok hrun
  unfold RedisStore.recoverFromSnapshot at hrecover
  split at hrecover
  · cases hrecover
  rename_i o hunpack
  rw [hunpack, Option.bind_some]
  split at hrecover
  · obtain ⟨rfl, rfl⟩ := Prod.mk.inj (Except.ok.inj hrecover)
    cases hrun
  · rename_i kv hkv
    obtain ⟨rfl, rfl⟩ := Prod.mk.inj (Except.ok.inj hrecover)
    obtain ⟨rfl, -⟩ := Prod.mk.inj (Except.ok.inj hrun)
    exact hkv

theorem IsSession.ne_getSnapshot (hs : h.IsSession) : h ≠ .getSnapshot := by
  rintro rfl
  exact hs

theorem drain_append (queue queue' : List (StoreHandler κ)) (store : RedisStore κ) :
    drain mp nodeId (queue ++ queue') store = drain mp nodeId queue store >>= drain mp nodeId queue' := by
  induction queue generalizing store with
  | nil => rfl
  | cons h queue ih =>
      simp only [List.cons_append, drain, bind_assoc]
      congr 1
      funext p
      exact ih p.1

theorem drain_sessions (hs : ∀ h ∈ queue, h.IsSession) :
    ∃ store', drain mp nodeId queue store = .ok store' ∧ store'.keyValues = store.keyValues := by
  induction queue generalizing store with
  | nil => exact ⟨store, rfl, rfl⟩
  | cons h queue ih =>
      obtain ⟨store₁, hrun, hkv⟩ := run_session (hs h (List.mem_cons_self ..))
      obtain ⟨store₂, hdrain, hkv'⟩ := ih fun h' hh' => hs h' (List.mem_cons_of_mem _ hh')
      refine ⟨store₂, ?_, hkv'.trans hkv⟩
      rw [drain, hrun]
      exact hdrain

/-- Behind what waits already, one more handler. -/
theorem drain_concat (hd : drain mp nodeId (queue ++ [h]) store = .ok store') :
    ∃ mid answer, drain mp nodeId queue store = .ok mid ∧ h.run mp nodeId mid = .ok (store', answer) := by
  rw [drain_append] at hd
  obtain ⟨mid, hmid, hd⟩ := bind_ok hd
  obtain ⟨⟨last, answer⟩, hrun, hd⟩ := bind_ok hd
  obtain rfl := Except.ok.inj hd
  exact ⟨mid, answer, hmid, hrun⟩

end StoreHandler

/-! ### The raft thread by itself

A server that waits for its store at every turn is the one whose queue is always empty. -/

namespace RaftNode
variable {κ : Type} {mp : Msgpack} {crc : Bytes → UInt32} {s s' : RaftNode κ}

/-- The store runs what was posted. -/
def caughtUp (mp : Msgpack) (s : RaftNode κ) (posted : List (StoreHandler κ)) : Result (RaftNode κ) := do
  let store ← StoreHandler.drain mp s.id posted s.store
  .ok { s with store := store }

/-- A round up to the point where the committed entries are looked at. -/
def saveReady (mp : Msgpack) (crc : Bytes → UInt32) (s : RaftNode κ) (rd : Ready) : Proc (RaftNode κ) := do
  let s ← s.walCall fun w => w.save mp crc rd.hardState rd.entries
  let s ← s.installSnapshot mp crc rd.snapshot
  let st ← s.storage.append rd.entries
  pure (s.setStorage st)

theorem publishSnapshot_eq (s : RaftNode κ) (snap : Snapshot) :
    s.publishSnapshot mp snap = s.postSnapshot snap >>= fun p => p.1.caughtUp mp p.2 := by
  unfold publishSnapshot postSnapshot
  split
  · rfl
  split
  · rfl
  · change _ = caughtUp mp _ [_]
    simp only [caughtUp, StoreHandler.drain, StoreHandler.run, bind_assoc]
    cases s.store.recoverFromSnapshot mp snap.data with
    | error text => rfl
    | ok p =>
        obtain ⟨store, status⟩ := p
        cases hs : status.isOk with
        | false => simp [hs, bind, Except.bind]
        | true => simp [hs, bind, Except.bind]

theorem saveSnap_spec {snap : Snapshot} (h : (s.saveSnap mp crc snap).result = .ok s') :
    ∃ wal snaps, s' = { s with wal := wal, snaps := snaps } := by
  unfold saveSnap at h
  rw [Prog.result_bind] at h
  obtain ⟨s₁, h₁, h⟩ := bind_ok h
  obtain rfl := Except.ok.inj h₁
  split at h
  · cases h
  · obtain rfl := Except.ok.inj h
    exact ⟨_, _, rfl⟩

theorem installSnapshot_result (s : RaftNode κ) (snap : Snapshot) : (s.installSnapshot mp crc snap).result =
    (s.receiveSnapshot mp crc snap).result >>= fun p => p.1.caughtUp mp p.2 := by
  unfold installSnapshot receiveSnapshot
  split
  · rfl
  · simp only [Prog.result_bind, Prog.result_lift, bind_assoc]
    congr 1
    funext s₁
    exact publishSnapshot_eq _ snap

/-- What is saved when the store is waited for is saved when it is not. -/
theorem saveReady_stages {rd : Ready} (h : (s.saveReady mp crc rd).result = .ok s') :
    ∃ p, (s.stageReady mp crc rd).result = .ok p ∧ p.1.caughtUp mp p.2 = .ok s' := by
  unfold saveReady at h
  unfold stageReady
  simp only [Prog.result_bind, Prog.result_lift] at h ⊢
  obtain ⟨s₁, h₁, h⟩ := bind_ok h
  obtain ⟨s₂, h₂, h⟩ := bind_ok h
  obtain ⟨st, h₃, h⟩ := bind_ok h
  obtain rfl := Except.ok.inj h
  rw [installSnapshot_result] at h₂
  obtain ⟨⟨s₃, posted⟩, hreceive, h₂⟩ := bind_ok h₂
  obtain ⟨store, hdrain, h₂⟩ := bind_ok h₂
  obtain rfl := Except.ok.inj h₂
  refine ⟨(s₃.setStorage st, posted), ?_, ?_⟩
  · rw [h₁]
    change ((s₁.receiveSnapshot mp crc rd.snapshot).result >>= _) = _
    rw [hreceive]
    change (s₃.storage.append rd.entries >>= _) = _
    rw [show s₃.storage.append rd.entries = .ok st from h₃]
    rfl
  · change (StoreHandler.drain mp s₃.id posted s₃.store >>= _) = _
    rw [hdrain]
    rfl

theorem receiveSnapshot_spec {snap : Snapshot} {posted : List (StoreHandler κ)}
    (h : (s.receiveSnapshot mp crc snap).result = .ok (s', posted)) :
    (if snap.isEmpty then s.storage else (s.storage.applySnapshot snap).2) = s'.storage ∧
      s'.node = (s.setStorage s'.storage).node ∧ s'.id = s.id ∧ s'.store = s.store ∧
      s'.appliedIndex = (if snap.isEmpty then s.appliedIndex else snap.metadata.index) ∧
      s'.snapshotIndex = (if snap.isEmpty then s.snapshotIndex else snap.metadata.index) ∧
      posted = (if snap.isEmpty then [] else [.recoverFromSnapshot snap.data]) := by
  unfold receiveSnapshot at h
  split at h
  · rename_i hempty
    obtain ⟨rfl, rfl⟩ := Prod.mk.inj (Except.ok.inj h)
    rw [if_pos hempty, if_pos hempty, if_pos hempty, if_pos hempty]
    exact ⟨rfl, rfl, rfl, rfl, rfl, rfl, rfl⟩
  · rename_i hempty
    rw [Prog.result_bind] at h
    obtain ⟨s₁, h₁, h⟩ := bind_ok h
    obtain ⟨wal, snaps, rfl⟩ := saveSnap_spec h₁
    rw [Prog.result_lift] at h
    unfold postSnapshot at h
    rw [if_neg hempty] at h
    split at h
    · cases h
    · obtain ⟨rfl, rfl⟩ := Prod.mk.inj (Except.ok.inj h)
      rw [if_neg hempty, if_neg hempty, if_neg hempty, if_neg hempty]
      exact ⟨rfl, rfl, rfl, rfl, rfl, rfl, rfl⟩

/-- A round stores a `Ready` as any application does, but for the hard state, which is kept on the
disk only. -/
theorem stageReady_spec {rd : Ready} {posted : List (StoreHandler κ)}
    (h : (s.stageReady mp crc rd).result = .ok (s', posted)) :
    ∃ st, persist s.storage { rd with hardState := {} } = .ok st ∧ s'.node = (s.setStorage st).node ∧ s'.id = s.id ∧
      s'.store = s.store ∧ s'.appliedIndex = rd.start s.appliedIndex ∧ s'.snapshotIndex = rd.start s.snapshotIndex ∧
      posted = (if rd.snapshot.isEmpty then [] else [.recoverFromSnapshot rd.snapshot.data]) := by
  unfold stageReady at h
  rw [Prog.result_bind] at h
  obtain ⟨s₁, h₁, h⟩ := bind_ok h
  obtain rfl := Except.ok.inj h₁
  rw [Prog.result_bind] at h
  obtain ⟨⟨s₂, posted'⟩, h₂, h⟩ := bind_ok h
  rw [Prog.result_bind, Prog.result_lift] at h
  obtain ⟨st, hst, h⟩ := bind_ok h
  obtain ⟨rfl, rfl⟩ := Prod.mk.inj (Except.ok.inj h)
  obtain ⟨hstorage, hnode, hid, hstore, happlied, hsnap, hposted⟩ := receiveSnapshot_spec h₂
  refine ⟨st, ?_, ?_, hid, hstore, happlied, hsnap, hposted⟩
  · unfold persist
    simp only
    rw [← hstorage] at hst
    exact hst
  · rw [setStorage, setStorage, log, hnode]
    rfl

/-- A turn of the loop posts the command of an entry, if there is one. A change of the configuration
counts as applied or is passed over. -/
theorem postEntry_spec {entry : Entry} {posted : List (StoreHandler κ)} {more : Bool}
    (h : s.postEntry mp entry = .ok (s', posted, more)) :
    s'.id = s.id ∧ s'.store = s.store ∧ s'.snapshotIndex = s.snapshotIndex ∧ s.log.Grows True s'.log ∧
      (entry.type = entryNormal ∧ s'.appliedIndex = entry.index ∧
          posted = (if entry.data = [] then [] else [.readCommit entry.data]) ∨
        entry.type ≠ entryNormal ∧ posted = [] ∧
          (s'.appliedIndex = entry.index ∨ s'.appliedIndex = s.appliedIndex)) := by
  unfold postEntry at h
  split at h
  · rename_i hty
    simp only [Except.ok.injEq, Prod.mk.injEq] at h
    obtain ⟨rfl, rfl, -⟩ := h
    exact ⟨rfl, rfl, rfl, .refl _, Or.inl ⟨hty, rfl, rfl⟩⟩
  rename_i hty
  split at h
  · split at h
    · simp only [Except.ok.injEq, Prod.mk.injEq] at h
      obtain ⟨rfl, rfl, -⟩ := h
      exact ⟨rfl, rfl, rfl, .refl _, Or.inr ⟨hty, rfl, Or.inr rfl⟩⟩
    · obtain ⟨⟨node, confState⟩, happly, h⟩ := bind_ok h
      have hgrows := (applyConfChange_advances (W := True) happly).log
      simp only at h
      split at h
      · simp only [Except.ok.injEq, Prod.mk.injEq] at h
        obtain ⟨rfl, rfl, -⟩ := h
        exact ⟨rfl, rfl, rfl, hgrows, Or.inr ⟨hty, rfl, Or.inr rfl⟩⟩
      · simp only [Except.ok.injEq, Prod.mk.injEq] at h
        obtain ⟨rfl, rfl, -⟩ := h
        exact ⟨rfl, rfl, rfl, hgrows, Or.inr ⟨hty, rfl, Or.inl rfl⟩⟩
  · cases h

/-- How a round goes on behind its first half. -/
theorem applyReady_result (s : RaftNode κ) (rd : Ready) : (s.applyReady mp crc rd).result =
    (s.saveReady mp crc rd).result >>= fun s => s.entriesToApply rd.committedEntries >>= fun entries =>
      publishEntries mp entries s := by
  unfold applyReady saveReady
  simp only [Prog.result_bind, Prog.result_lift, Prog.result_pure, bind_assoc]
  rfl

/-- One turn of the loop, with a store that is waited for. -/
theorem publishEntries_cons (entry : Entry) (entries : List Entry) (s : RaftNode κ) :
    publishEntries mp (entry :: entries) s = s.postEntry mp entry >>= fun p =>
      p.1.caughtUp mp p.2.1 >>= fun s => publishEntries mp (if p.2.2 then entries else []) s := by
  rw [publishEntries, postEntry]
  split
  · split
    · rfl
    · change _ = caughtUp mp _ [_] >>= _
      simp only [caughtUp, StoreHandler.drain, StoreHandler.run, bind_assoc]
      rfl
  split
  · cases decodeConfChange mp entry.data with
    | none => rfl
    | some cc =>
        simp only
        cases s.node.applyConfChange cc with
        | error text => rfl
        | ok p =>
            change (if _ then _ else _ : Result (RaftNode κ)) = (if _ then _ else _ : Result _) >>= _
            split
            · rfl
            · rfl
  · rfl

end RaftNode

/-! ### Rounds that wait for the store -/

namespace Threads
variable {κ : Type} {mp : Msgpack} {crc : Bytes → UInt32} {t t' : Threads κ} {s s' : RaftNode κ}

theorem runAll_runs {events : List (Event κ)} (ha : ∀ e ∈ events, e.Allowed)
    (h : events.foldlM (fun t e => t.run mp crc e) t = .ok t') : Runs mp crc t t' := by
  induction events generalizing t with
  | nil =>
      obtain rfl := Except.ok.inj h
      exact .refl
  | cons e events ih =>
      rw [List.foldlM_cons] at h
      obtain ⟨t₁, h₁, h⟩ := bind_ok h
      exact .head ⟨e, ha e (List.mem_cons_self ..), h₁⟩ (ih (fun e' he' => ha e' (List.mem_cons_of_mem _ he')) h)

/-- The store may run all that waits. -/
theorem runs_drained (crc : Bytes → UInt32) (h : t.raft.caughtUp mp t.queue = .ok s) :
    ∃ t', Runs mp crc t t' ∧ t'.raft = s ∧ t'.position = t.position ∧ t'.queue = [] := by
  obtain ⟨store, hdrain, hs⟩ := bind_ok h
  obtain rfl := Except.ok.inj hs
  clear h hs
  generalize hq : t.queue = queue at hdrain
  induction queue generalizing t with
  | nil =>
      obtain rfl := Except.ok.inj hdrain
      exact ⟨t, .refl, rfl, rfl, hq⟩
  | cons handler queue ih =>
      obtain ⟨⟨store₁, answer⟩, hrun, hdrain⟩ := bind_ok hdrain
      have hserve : t.run mp crc .serve =
          .ok { t with raft := { t.raft with store := store₁ }, queue := queue, answer := answer <|> t.answer } := by
        simp only [run, hq, hrun]
        rfl
      obtain ⟨t', hruns, hraft, hpos, hq'⟩ := ih
        (t := { t with raft := { t.raft with store := store₁ }, queue := queue, answer := answer <|> t.answer }) rfl hdrain
      exact ⟨t', hruns.head ⟨.serve, trivial, hserve⟩, hraft, hpos, hq'⟩

/-- After every turn of the loop the store may catch up. -/
theorem runs_published (crc : Bytes → UInt32) {rd : Ready} {entries : List Entry} (hpos : t.position = .publishing rd entries)
    (hq : t.queue = []) (h : RaftNode.publishEntries mp entries t.raft = .ok s') :
    ∃ t', Runs mp crc t t' ∧ t'.raft = s' ∧ t'.position = .publishing rd [] ∧ t'.queue = [] := by
  induction entries generalizing t with
  | nil =>
      obtain rfl := Except.ok.inj h
      exact ⟨t, .refl, rfl, hpos, hq⟩
  | cons entry entries ih =>
      rw [RaftNode.publishEntries_cons] at h
      obtain ⟨⟨s₁, posted, more⟩, hpost, h⟩ := bind_ok h
      obtain ⟨s₂, hcaught, h⟩ := bind_ok h
      have hpublish : t.run mp crc .publish =
          .ok { t with raft := s₁, queue := posted, position := .publishing rd (if more then entries else []) } := by
        simp only [run, hpos, hpost, hq]
        rfl
      obtain ⟨t₁, hruns₁, rfl, hpos₁, hq₁⟩ := runs_drained crc
        (t := { t with raft := s₁, queue := posted, position := .publishing rd (if more then entries else []) }) hcaught
      have hturn := hruns₁.head ⟨.publish, trivial, hpublish⟩
      cases more with
      | false =>
          obtain rfl := Except.ok.inj h
          exact ⟨t₁, hturn, rfl, hpos₁, hq₁⟩
      | true =>
          obtain ⟨t', hruns, hraft, hpos', hq'⟩ := ih hpos₁ hq₁ h
          exact ⟨t', hturn.trans hruns, hraft, hpos', hq'⟩

/-- Behind the entries a snapshot is made if one is due, and the round ends. -/
theorem runs_triggered {rd : Ready} (hpos : t.position = .publishing rd []) (hq : t.queue = [])
    (h : (t.raft.maybeTriggerSnapshot mp crc).result = .ok s') :
    ∃ t', Runs mp crc t t' ∧ t'.raft = { s' with node := s'.node.advance rd } ∧ t'.position = .loop ∧ t'.queue = [] := by
  unfold RaftNode.maybeTriggerSnapshot at h
  split at h
  · rename_i hfew
    obtain rfl := Except.ok.inj h
    have htrigger : t.run mp crc .trigger =
        .ok { t with raft := { t.raft with node := t.raft.node.advance rd }, position := .loop } := by
      simp only [run, hpos]
      exact if_pos hfew
    exact ⟨_, .single ⟨.trigger, trivial, htrigger⟩, rfl, rfl, hq⟩
  · rename_i hdue
    have htrigger : t.run mp crc .trigger =
        .ok { t with queue := [.getSnapshot], position := .waiting rd, answer := none } := by
      simp only [run, hpos, hq]
      exact if_neg hdue
    have hserve : run mp crc { t with queue := [.getSnapshot], position := .waiting rd, answer := none } .serve =
        .ok { t with queue := [], position := .waiting rd, answer := some (t.raft.store.getSnapshot mp) } := rfl
    have hcreate : run mp crc { t with queue := [], position := .waiting rd,
                                       answer := some (t.raft.store.getSnapshot mp) } .create =
        .ok { t with raft := { s' with node := s'.node.advance rd }, queue := [], position := .loop, answer := none } := by
      have hs : (t.raft.snapshotAt mp crc (t.raft.store.getSnapshot mp)).result = .ok s' := h
      simp only [run, hs]
      rfl
    exact ⟨_, .head ⟨.trigger, trivial, htrigger⟩ (.head ⟨.serve, trivial, hserve⟩ (.single ⟨.create, trivial, hcreate⟩)),
      rfl, rfl, rfl⟩

/-- A round that waits for the store at every turn is one of the interleavings. -/
theorem round_interleaves (hpos : t.position = .loop) (hq : t.queue = [])
    (h : (t.raft.pullReadyEvents mp crc).result = .ok s') :
    ∃ t', Runs mp crc t t' ∧ t'.raft = s' ∧ t'.position = .loop ∧ t'.queue = [] := by
  have htake : t.run mp crc .take = t.take mp crc := by simp only [run, hpos]
  unfold Threads.take at htake
  unfold RaftNode.pullReadyEvents at h
  split at h
  · obtain rfl := Except.ok.inj h
    exact ⟨t, .refl, rfl, hpos, hq⟩
  rename_i hready
  rw [if_neg hready] at htake
  rw [Prog.result_bind, Prog.result_lift] at h
  obtain ⟨⟨rd, node⟩, hrd, h⟩ := bind_ok h
  rw [hrd] at htake
  simp only at h
  split at h
  · rename_i hnone
    obtain rfl := Except.ok.inj h
    exact ⟨_, .single ⟨.take, trivial, htake.trans (if_pos hnone)⟩, rfl, hpos, hq⟩
  rename_i hupdates
  rw [Prog.result_bind, RaftNode.applyReady_result] at h
  obtain ⟨s₃, hpublish, h⟩ := bind_ok h
  obtain ⟨s₂, hsave, hpublish⟩ := bind_ok hpublish
  obtain ⟨entries, hentries, hpublish⟩ := bind_ok hpublish
  obtain ⟨⟨s₁, posted⟩, hstage, hcaught⟩ := RaftNode.saveReady_stages hsave
  have hsame : s₁.entriesToApply rd.committedEntries = .ok entries := by
    obtain ⟨store, -, hs⟩ := bind_ok hcaught
    obtain rfl := Except.ok.inj hs
    exact hentries
  have htaken : t.run mp crc .take = .ok { t with raft := s₁, queue := posted, position := .publishing rd entries,
                                                  history := t.history.take mp rd } := by
    rw [htake]
    change (if _ then _ else _ : Result (Threads κ)) = _
    rw [if_neg hupdates, hstage]
    change (s₁.entriesToApply rd.committedEntries >>= _) = _
    rw [hsame, hq]
    rfl
  obtain ⟨t₁, hruns₁, rfl, hpos₁, hq₁⟩ := runs_drained crc
    (t := { t with
      raft := s₁
      queue := posted
      position := .publishing rd entries
      history := t.history.take mp rd }) hcaught
  obtain ⟨t₂, hruns₂, rfl, hpos₂, hq₂⟩ := runs_published crc hpos₁ hq₁ hpublish
  rw [Prog.result_bind] at h
  obtain ⟨s₄, htrigger, h⟩ := bind_ok h
  obtain rfl := Except.ok.inj h
  obtain ⟨t₃, hruns₃, hraft, hpos₃, hq₃⟩ := runs_triggered hpos₂ hq₂ htrigger
  exact ⟨t₃, ((hruns₁.head ⟨.take, trivial, htaken⟩).trans hruns₂).trans hruns₃, hraft, hpos₃, hq₃⟩

end Threads

end RaftEtcd
