import RaftEtcd.Lib.AssocMap
import RaftEtcd.Msgpack

/-! `server/redis_store.cpp`: the key-value map, the commands that travel through the log, and the
callbacks that wait for them. What a callback is does not matter to the store. A `std::string` is
its bytes. -/
namespace RaftEtcd

open MessagePack (Obj)

def kCommitSet : UInt8 := 0
def kCommitDel : UInt8 := 1

structure RedisCommitData where
  type : UInt8 := 0
  strs : List Bytes := []
  deriving DecidableEq, Repr

/-- Both numbers are `uint32_t`. -/
structure RaftCommit where
  nodeId : Nat := 0
  commitId : Nat := 0
  redisData : RedisCommitData := {}
  deriving DecidableEq, Repr

def toUint32 : Obj → Option Nat
  | .uint n => if n < 2 ^ 32 then some n else none
  | _ => none

def RedisCommitData.toObj (d : RedisCommitData) : Obj := .array [.uint d.type.toNat, .array (d.strs.map .str)]

def RedisCommitData.convert (old : RedisCommitData) : Obj → Option RedisCommitData
  | .array os => do
      let type ← member os 0 toUint8 old.type
      let strs ← member os 1 (toVector toBytes) old.strs
      some { type, strs }
  | _ => none

def RaftCommit.toObj (c : RaftCommit) : Obj := .array [.uint c.nodeId, .uint c.commitId, c.redisData.toObj]

def RaftCommit.convert (old : RaftCommit) : Obj → Option RaftCommit
  | .array os => do
      let nodeId ← member os 0 toUint32 old.nodeId
      let commitId ← member os 1 toUint32 old.commitId
      let redisData ← member os 2 old.redisData.convert old.redisData
      some { nodeId, commitId, redisData }
  | _ => none

@[simp] theorem RedisCommitData.convert_toObj (old d : RedisCommitData) : old.convert d.toObj = some d := by
  have hstrs : toVector toBytes (.array (d.strs.map .str)) = some d.strs := toVector_map _ _ _ fun _ _ => rfl
  simp [RedisCommitData.convert, RedisCommitData.toObj, hstrs]

theorem RaftCommit.convert_toObj (old : RaftCommit) {c : RaftCommit} (hnode : c.nodeId < 2 ^ 32)
    (hcommit : c.commitId < 2 ^ 32) : old.convert c.toObj = some c := by
  simp only [RaftCommit.convert, RaftCommit.toObj, member_zero, member_succ, toUint32, if_pos hnode, if_pos hcommit,
    RedisCommitData.convert_toObj, bind, Option.bind]

/-- `std::unordered_map<std::string, std::string>`. -/
abbrev KeyValues := AssocMap Bytes Bytes

/-! ### The map -/

namespace KeyValues

/-- Written in the order in which the map is iterated. -/
def toObj (kv : KeyValues) : Obj := .map (kv.entries.map fun s => (.str s.1, .str s.2))

def convertPair (p : Obj × Obj) : Option (Bytes × Bytes) := do
  let k ← toBytes p.1
  let v ← toBytes p.2
  some (k, v)

/-- The pairs are inserted one after the other into a new map. -/
def convert : Obj → Option KeyValues
  | .map kvs => do
      let pairs ← kvs.mapM convertPair
      some (pairs.foldl (fun kv p => kv.insert p.1 p.2) ∅)
  | _ => none

/-- The switch of `read_commit`; an unknown type is only logged. -/
def applyData (kv : KeyValues) (data : RedisCommitData) : Result KeyValues :=
  if data.type = kCommitSet then
    match data.strs with
    | [key, value] => .ok (kv.insert key value)
    | _ => .error "assert(data.strs.size() == 2)"
  else if data.type = kCommitDel then .ok (data.strs.foldl (fun kv key => kv.erase key) kv)
  else .ok kv

end KeyValues

/-- The command of an entry; a bad one is logged and skipped. -/
def decodeCommit (mp : Msgpack) (data : Bytes) : Option RaftCommit := (mp.unpack data).bind (RaftCommit.convert {})

/-! ### The store -/

structure RedisStore (κ : Type) where
  keyValues : KeyValues := ∅
  nextRequestId : Nat := 0
  pendingRequests : AssocMap Nat κ := ∅

namespace RedisStore
variable {κ : Type}

/-- The constructor. Bytes that are not MessagePack at all end the process, since only the
conversion is guarded; a value that is no map is ignored. -/
def new (mp : Msgpack) (snap : Bytes) : Result (RedisStore κ) :=
  if snap = [] then .ok {}
  else
    match mp.unpack snap with
    | none => .error "msgpack::unpack_error"
    | some o => .ok { keyValues := (KeyValues.convert o).getD ∅ }

/-- What `get_snapshot` hands to its callback. -/
def getSnapshot (mp : Msgpack) (store : RedisStore κ) : Bytes := mp.pack (KeyValues.toObj store.keyValues)

/-- As in the constructor, only the conversion is guarded. -/
def recoverFromSnapshot (mp : Msgpack) (store : RedisStore κ) (snap : Bytes) : Result (RedisStore κ × Status) :=
  match mp.unpack snap with
  | none => .error "msgpack::unpack_error"
  | some o =>
      match KeyValues.convert o with
      | none => .ok (store, .ioError "invalid snapshot")
      | some kv => .ok ({ store with keyValues := kv }, .ok)

/-- The command of a request. -/
def commitOf (nodeId : Nat) (store : RedisStore κ) (data : RedisCommitData) : RaftCommit :=
  { nodeId := nodeId % 2 ^ 32, commitId := store.nextRequestId, redisData := data }

/-- The part that `set` and `del` share: a new number, and the callback waits under it. -/
def request (store : RedisStore κ) (callback : κ) : RedisStore κ :=
  { store with
    nextRequestId := (store.nextRequestId + 1) % 2 ^ 32
    pendingRequests := store.pendingRequests.insert store.nextRequestId callback }

/-- The store without a request, and the callback that waited for it. -/
def takePending (store : RedisStore κ) (commitId : Nat) : RedisStore κ × Option κ :=
  match store.pendingRequests.lookup commitId with
  | none => (store, none)
  | some callback => ({ store with pendingRequests := store.pendingRequests.erase commitId }, some callback)

/-- What `set` does when the status of its proposal is back: only a failure ends the request. -/
def setProposed (store : RedisStore κ) (commitId : Nat) (status : Status) : RedisStore κ × Option (κ × Status) :=
  if status.isOk then (store, none)
  else
    let (store, callback) := store.takePending commitId
    (store, callback.map fun cb => (cb, status))

/-- What `del` does then: any status ends the request. -/
def delProposed (store : RedisStore κ) (commitId : Nat) (status : Status) : RedisStore κ × Option (κ × Status) :=
  let (store, callback) := store.takePending commitId
  (store, callback.map fun cb => (cb, status))

/-- The handler of `read_commit`. -/
def readCommit (mp : Msgpack) (nodeId : Nat) (store : RedisStore κ) (data : Bytes) :
    Result (RedisStore κ × Option (κ × Status)) :=
  match decodeCommit mp data with
  | none => .ok (store, none)
  | some commit => do
      let kv ← store.keyValues.applyData commit.redisData
      let store := { store with keyValues := kv }
      if commit.nodeId = nodeId then
        let (store, callback) := store.takePending commit.commitId
        .ok (store, callback.map fun cb => (cb, .ok))
      else .ok (store, none)

theorem takePending_keyValues (store : RedisStore κ) (commitId : Nat) :
    (store.takePending commitId).1.keyValues = store.keyValues := by
  unfold takePending
  split <;> rfl

/-- Whoever waits for it, a command changes the map as it says; what is no command changes nothing. -/
theorem readCommit_keyValues {mp : Msgpack} {nodeId : Nat} {store store' : RedisStore κ} {data : Bytes}
    {callback : Option (κ × Status)} (h : store.readCommit mp nodeId data = .ok (store', callback)) :
    (match decodeCommit mp data with
      | none => .ok store.keyValues
      | some commit => store.keyValues.applyData commit.redisData : Result KeyValues) = .ok store'.keyValues := by
  unfold readCommit at h
  revert h
  cases decodeCommit mp data with
  | none =>
      intro h
      rw [← (Prod.mk.inj (Except.ok.inj h)).1]
  | some commit =>
      intro h
      simp only at h ⊢
      cases hkv : store.keyValues.applyData commit.redisData with
      | error text =>
          rw [hkv] at h
          cases h
      | ok kv =>
          rw [hkv] at h
          change (if commit.nodeId = nodeId then _ else _) = _ at h
          split at h
          · rw [← (Prod.mk.inj (Except.ok.inj h)).1, takePending_keyValues]
          · rw [← (Prod.mk.inj (Except.ok.inj h)).1]

end RedisStore

end RaftEtcd
