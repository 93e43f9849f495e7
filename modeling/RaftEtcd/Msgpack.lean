import RaftEtcd.Lib.MessagePack
import RaftEtcd.Node

/-! What the program asks of the msgpack library. `MSGPACK_DEFINE(a, b, ..)` writes the listed
members as one array; reading converts the elements of such an array into the members of an
existing object, in the same order. Members that are not listed are neither written nor touched
by a conversion. -/
namespace RaftEtcd

open MessagePack (Obj)

/-- `msgpack::pack` and `msgpack::unpack`; the latter throws on a malformed buffer. -/
structure Msgpack where
  pack : Obj → Bytes
  unpack : Bytes → Option Obj

/-- Decoding undoes encoding on this value. -/
def Msgpack.Restores (mp : Msgpack) (o : Obj) : Prop := mp.unpack (mp.pack o) = some o

/-- What the library promises of a value: it takes some bytes, it is restored from all of them,
and from no fewer. -/
structure Msgpack.Delimits (mp : Msgpack) (o : Obj) : Prop where
  nonempty : mp.pack o ≠ []
  restores : mp.Restores o
  cut : ∀ k < (mp.pack o).length, mp.unpack ((mp.pack o).take k) = none

/-- The format of the specification. -/
def messagePack : Msgpack where
  pack := MessagePack.pack
  unpack := MessagePack.unpack

theorem messagePack_restores {o : Obj} (h : MessagePack.Fits o) : messagePack.Restores o :=
  MessagePack.unpack_pack h

theorem messagePack_delimits {o : Obj} (h : MessagePack.Fits o) : messagePack.Delimits o where
  nonempty := by
    intro hnil
    have hback := messagePack_restores h
    rw [Msgpack.Restores, hnil] at hback
    cases hback
  restores := messagePack_restores h
  cut _ hk := MessagePack.unpack_take h hk

/-- What the documentation says of the library: a value within the limits of the format is delimited,
and a few numbers take a few bytes. -/
structure Msgpack.Reliable (mp : Msgpack) : Prop where
  delimits : ∀ o, MessagePack.Fits o → mp.Delimits o
  numbers : ∀ ns : List Nat, (∀ n ∈ ns, n < 2 ^ 64) → (mp.pack (.array (ns.map .uint))).length ≤ 5 + 9 * ns.length

theorem messagePack_reliable : messagePack.Reliable where
  delimits _ := messagePack_delimits
  numbers ns _ := MessagePack.pack_numbers_length_le ns

/-! ### Conversions of the library; `none` is a `msgpack::type_error` -/

def toUint : Obj → Option Nat
  | .uint n => some n
  | _ => none

def toUint8 : Obj → Option UInt8
  | .uint n => if n < 2 ^ 8 then some (UInt8.ofNat n) else none
  | _ => none

def toBool : Obj → Option Bool
  | .bool b => some b
  | _ => none

/-- A `std::vector<uint8_t>` or a `std::string`. -/
def toBytes : Obj → Option Bytes
  | .bin s => some s
  | .str s => some s
  | _ => none

/-- A `std::vector` of anything else. -/
def toVector {α : Type*} (convert : Obj → Option α) : Obj → Option (List α)
  | .array os => os.mapM convert
  | _ => none

/-- The member at a place of the array; an array that ends before it leaves the member alone. -/
def member {α : Type*} (os : List Obj) (i : Nat) (convert : Obj → Option α) (old : α) : Option α :=
  match os[i]? with
  | none => some old
  | some o => convert o

@[simp] theorem member_zero {α : Type*} (o : Obj) (os : List Obj) (convert : Obj → Option α) (old : α) :
    member (o :: os) 0 convert old = convert o := rfl

@[simp] theorem member_succ {α : Type*} (o : Obj) (os : List Obj) (i : Nat) (convert : Obj → Option α) (old : α) :
    member (o :: os) (i + 1) convert old = member os i convert old := rfl

@[simp] theorem toUint8_uint (b : UInt8) : toUint8 (.uint b.toNat) = some b := by
  simp [toUint8, b.toNat_lt]

theorem toVector_map {α : Type*} (convert : Obj → Option α) (write : α → Obj) (as : List α)
    (h : ∀ a ∈ as, convert (write a) = some a) : toVector convert (.array (as.map write)) = some as := by
  simp only [toVector]
  induction as with
  | nil => rfl
  | cons a as ih =>
      have htail := ih fun a' ha' => h a' (List.mem_cons_of_mem _ ha')
      simp only [List.map_cons, List.mapM_cons, h a List.mem_cons_self, htail]
      rfl

/-! ### The structures of `raft/proto.h` -/

def Entry.toObj (e : Entry) : Obj :=
  .array [.uint e.type.toNat, .uint e.term, .uint e.index, .bin e.data]

def Entry.convert (old : Entry) : Obj → Option Entry
  | .array os => do
      let type ← member os 0 toUint8 old.type
      let term ← member os 1 toUint old.term
      let index ← member os 2 toUint old.index
      let data ← member os 3 toBytes old.data
      some { type, term, index, data }
  | _ => none

def HardState.toObj (hs : HardState) : Obj := .array [.uint hs.term, .uint hs.vote, .uint hs.commit]

def HardState.convert (old : HardState) : Obj → Option HardState
  | .array os => do
      let term ← member os 0 toUint old.term
      let vote ← member os 1 toUint old.vote
      let commit ← member os 2 toUint old.commit
      some { term, vote, commit }
  | _ => none

/-- `MSGPACK_DEFINE(index, term)`: the configuration is not among the members. -/
def SnapshotMetadata.toObj (m : SnapshotMetadata) : Obj := .array [.uint m.index, .uint m.term]

def SnapshotMetadata.convert (old : SnapshotMetadata) : Obj → Option SnapshotMetadata
  | .array os => do
      let index ← member os 0 toUint old.index
      let term ← member os 1 toUint old.term
      some { old with index, term }
  | _ => none

def Snapshot.toObj (s : Snapshot) : Obj := .array [.bin s.data, s.metadata.toObj]

def Snapshot.convert (old : Snapshot) : Obj → Option Snapshot
  | .array os => do
      let data ← member os 0 toBytes old.data
      let metadata ← member os 1 old.metadata.convert old.metadata
      some { data, metadata }
  | _ => none

/-- The numbers of `proto.h`. -/
def MessageType.code : MessageType → UInt8
  | .msgHup => 0
  | .msgBeat => 1
  | .msgProp => 2
  | .msgApp => 3
  | .msgAppResp => 4
  | .msgVote => 5
  | .msgVoteResp => 6
  | .msgSnap => 7
  | .msgHeartbeat => 8
  | .msgHeartbeatResp => 9
  | .msgUnreachable => 10
  | .msgSnapStatus => 11
  | .msgCheckQuorum => 12
  | .msgTransferLeader => 13
  | .msgTimeoutNow => 14
  | .msgReadIndex => 15
  | .msgReadIndexResp => 16
  | .msgPreVote => 17
  | .msgPreVoteResp => 18

def MessageType.all : List MessageType :=
  [.msgHup, .msgBeat, .msgProp, .msgApp, .msgAppResp, .msgVote, .msgVoteResp, .msgSnap, .msgHeartbeat,
    .msgHeartbeatResp, .msgUnreachable, .msgSnapStatus, .msgCheckQuorum, .msgTransferLeader, .msgTimeoutNow,
    .msgReadIndex, .msgReadIndexResp, .msgPreVote, .msgPreVoteResp]

/-- A byte from `MsgTypeSize` on stands for no message type. -/
def MessageType.convert (o : Obj) : Option MessageType := do
  let b ← toUint8 o
  MessageType.all[b.toNat]?

/-- The eleven members that `MSGPACK_DEFINE` lists; `snapshot` is not among them. -/
def Message.toObj (m : Message) : Obj :=
  .array [.uint m.type.code.toNat, .uint m.to_, .uint m.from_, .uint m.term, .uint m.logTerm, .uint m.index,
    .array (m.entries.map Entry.toObj), .uint m.commit, .bool m.reject, .uint m.rejectHint, .bin m.context]

def Message.convert (old : Message) : Obj → Option Message
  | .array os => do
      let type ← member os 0 MessageType.convert old.type
      let to_ ← member os 1 toUint old.to_
      let from_ ← member os 2 toUint old.from_
      let term ← member os 3 toUint old.term
      let logTerm ← member os 4 toUint old.logTerm
      let index ← member os 5 toUint old.index
      let entries ← member os 6 (toVector (Entry.convert {})) old.entries
      let commit ← member os 7 toUint old.commit
      let reject ← member os 8 toBool old.reject
      let rejectHint ← member os 9 toUint old.rejectHint
      let context ← member os 10 toBytes old.context
      some { old with type, to_, from_, term, logTerm, index, entries, commit, reject, rejectHint, context }
  | _ => none

def ConfChange.toObj (cc : ConfChange) : Obj :=
  .array [.uint cc.id, .uint cc.confChangeType.toNat, .uint cc.nodeId, .bin cc.context]

def ConfChange.convert (old : ConfChange) : Obj → Option ConfChange
  | .array os => do
      let id ← member os 0 toUint old.id
      let confChangeType ← member os 1 toUint8 old.confChangeType
      let nodeId ← member os 2 toUint old.nodeId
      let context ← member os 3 toBytes old.context
      some { id, confChangeType, nodeId, context }
  | _ => none

/-! ### Values of the machine types can be written -/

theorem fits_array {os : List Obj} (hlen : os.length < 16) (h : ∀ o ∈ os, MessagePack.Fits o) :
    MessagePack.Fits (.array os) :=
  .array (by omega) h

theorem fits_uint8 (b : UInt8) : MessagePack.Fits (.uint b.toNat) := by
  have := b.toNat_lt
  exact .uint (by omega)

theorem Entry.fits {e : Entry} (hterm : e.term < 2 ^ 64) (hindex : e.index < 2 ^ 64) (hdata : e.data.length < 2 ^ 32) :
    MessagePack.Fits e.toObj := by
  refine fits_array (by simp) ?_
  simp only [List.forall_mem_cons]
  exact ⟨fits_uint8 _, .uint hterm, .uint hindex, .bin hdata, by simp⟩

theorem HardState.fits {hs : HardState} (hterm : hs.term < 2 ^ 64) (hvote : hs.vote < 2 ^ 64)
    (hcommit : hs.commit < 2 ^ 64) : MessagePack.Fits hs.toObj := by
  refine fits_array (by simp) ?_
  simp only [List.forall_mem_cons]
  exact ⟨.uint hterm, .uint hvote, .uint hcommit, by simp⟩

/-! ### What a conversion recovers -/

@[simp] theorem Entry.convert_toObj (old e : Entry) : old.convert e.toObj = some e := by
  simp [Entry.convert, Entry.toObj, toUint, toBytes]

@[simp] theorem HardState.convert_toObj (old hs : HardState) : old.convert hs.toObj = some hs := by
  simp [HardState.convert, HardState.toObj, toUint]

@[simp] theorem SnapshotMetadata.convert_toObj (old m : SnapshotMetadata) :
    old.convert m.toObj = some { m with confState := old.confState } := by
  simp [SnapshotMetadata.convert, SnapshotMetadata.toObj, toUint]

@[simp] theorem Snapshot.convert_toObj (old s : Snapshot) :
    old.convert s.toObj = some { s with metadata := { s.metadata with confState := old.metadata.confState } } := by
  simp [Snapshot.convert, Snapshot.toObj, toBytes]

@[simp] theorem MessageType.convert_code (t : MessageType) :
    MessageType.convert (.uint t.code.toNat) = some t := by
  cases t <;> rfl

/-- Every member comes back but the snapshot, which stays as the receiver had it. -/
theorem Message.convert_toObj (old m : Message) :
    old.convert m.toObj = some { m with snapshot := old.snapshot } := by
  have hents : toVector (Entry.convert {}) (.array (m.entries.map Entry.toObj)) = some m.entries :=
    toVector_map _ _ _ fun e _ => Entry.convert_toObj {} e
  simp [Message.convert, Message.toObj, toUint, toBool, toBytes, hents]

/-! ### The size of an entry -/

/-- What `data_serialize_size` adds, before it is cut to a `uint32_t`. -/
def dataSerializeSum (len : Nat) : Nat :=
  if len ≤ 2 ^ 8 - 1 then 2 + len
  else if len ≤ 2 ^ 16 - 1 then 3 + len
  else 5 + len

/-- The sums of `serialize_size` in the order in which they are taken, each before it is cut. -/
def Entry.serializeSums (e : Entry) : List Nat :=
  let len := e.data.length % 2 ^ 32
  let type := 1 + u8SerializeSize e.type
  let term := type + u64SerializeSize e.term
  let index := term + u64SerializeSize e.index
  [dataSerializeSum len, type, term, index, index + dataSerializeSize len]

theorem dataSerializeSize_eq (len : Nat) : dataSerializeSize len = dataSerializeSum len % 2 ^ 32 := by
  unfold dataSerializeSize dataSerializeSum
  split
  · rfl
  split <;> rfl

theorem packUint_length (n : Nat) : (MessagePack.packUint n).length = u64SerializeSize n := by
  unfold MessagePack.packUint u64SerializeSize
  split
  · rename_i h
    rw [if_pos (by omega)]
    rfl
  split
  · rfl
  split
  · rfl
  split <;> rfl

/-- A byte takes as much as the same number in eight bytes. -/
theorem u8SerializeSize_eq (b : UInt8) : u8SerializeSize b = u64SerializeSize b.toNat := by
  unfold u8SerializeSize u64SerializeSize
  rw [if_pos b.toNat_lt]

theorem u64SerializeSize_le (n : Nat) : u64SerializeSize n ≤ 9 := by
  unfold u64SerializeSize
  split
  · split <;> omega
  split
  · omega
  split <;> omega

theorem packBin_length (s : Bytes) : (MessagePack.pack (.bin s)).length = dataSerializeSum s.length := by
  rw [MessagePack.pack, List.length_append, MessagePack.binHeader, dataSerializeSum]
  split
  · rw [if_pos (by omega)]
    rfl
  split
  · rw [if_neg (by omega), if_pos (by omega)]
    rfl
  · rw [if_neg (by omega), if_neg (by omega)]
    rfl

theorem Entry.pack_length (e : Entry) : (messagePack.pack e.toObj).length =
    1 + u8SerializeSize e.type + u64SerializeSize e.term + u64SerializeSize e.index + dataSerializeSum e.data.length := by
  have hpack : messagePack.pack e.toObj = MessagePack.arrayHeader 4 ++ (MessagePack.packUint e.type.toNat ++
      (MessagePack.packUint e.term ++ (MessagePack.packUint e.index ++ (MessagePack.pack (.bin e.data) ++ [])))) := rfl
  have hheader : (MessagePack.arrayHeader 4).length = 1 := rfl
  rw [hpack, List.append_nil, List.length_append, List.length_append, List.length_append, List.length_append, hheader,
    packUint_length, packUint_length, packUint_length, packBin_length, u8SerializeSize_eq]
  omega

/-- The size is that of the encoding, and no sum on the way to it overflows. -/
theorem serializeSize_exact (e : Entry) (hdata : e.data.length < 2 ^ 32 - 64) :
    e.serializeSize = (messagePack.pack e.toObj).length ∧ ∀ sum ∈ e.serializeSums, sum < 2 ^ 32 := by
  have hlen : e.data.length % 2 ^ 32 = e.data.length := Nat.mod_eq_of_lt (by omega)
  have hsum : dataSerializeSum e.data.length ≤ 5 + e.data.length := by
    unfold dataSerializeSum
    split
    · omega
    split <;> omega
  have hcut : dataSerializeSize e.data.length = dataSerializeSum e.data.length := by
    rw [dataSerializeSize_eq, Nat.mod_eq_of_lt (by omega)]
  have htype : u8SerializeSize e.type ≤ 9 := u8SerializeSize_eq e.type ▸ u64SerializeSize_le _
  have hterm := u64SerializeSize_le e.term
  have hindex := u64SerializeSize_le e.index
  constructor
  · rw [Entry.serializeSize, hlen, hcut, Entry.pack_length, Nat.mod_eq_of_lt (by omega)]
  · intro sum hmem
    simp only [Entry.serializeSums, hlen, hcut, List.mem_cons, List.not_mem_nil, or_false] at hmem
    omega

/-- The largest type and index, a term of three bytes and the shortest data with a length of two. -/
def widestEntry : Entry := { type := 255, term := 2 ^ 16 - 1, index := 2 ^ 64 - 1, data := List.replicate 256 0 }

theorem serializeSize_exact_widest : widestEntry.serializeSize = (messagePack.pack widestEntry.toObj).length ∧
    ∀ sum ∈ widestEntry.serializeSums, sum < 2 ^ 32 := by
  have hdata : widestEntry.data.length = 256 := List.length_replicate
  exact serializeSize_exact widestEntry (by rw [hdata]; decide)

end RaftEtcd
