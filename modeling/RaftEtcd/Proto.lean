import Mathlib.Algebra.Order.Ring.Nat
import Mathlib.Data.List.AList

/-! The log and message vocabulary of `raft/proto.h`, with the size and message-type helpers
of `raft/proto.cpp` and `raft/util.cpp`. Every `uint64_t` is a natural number: terms and
indexes only grow by one per election or entry. `uint32_t` sums that can wrap are reduced. -/
namespace RaftEtcd

abbrev Bytes := List UInt8

instance : LawfulBEq Bytes := inferInstance

/-- A `LOG_FATAL`, a failed `assert` or an access outside a vector ends the process, and
nothing above catches it. The text is the format string of the source. -/
abbrev Result := Except String

/-- A computation that does not end in a fatal error, taken apart. -/
theorem bind_ok {α β : Type} {x : Result α} {f : α → Result β} {b : β} (h : (x >>= f) = .ok b) :
    ∃ a, x = .ok a ∧ f a = .ok b := by
  cases x with
  | error e => cases h
  | ok a => exact ⟨a, rfl, h⟩

/-- A closed computation that was evaluated. -/
theorem exists_ok_of_any {α : Type} {x : Result α} {p : α → Bool} (h : x.toOption.any p = true) :
    ∃ a, x = .ok a ∧ p a = true := by
  cases x with
  | error e => cases h
  | ok a => exact ⟨a, rfl, h⟩

/-- The computation ends in this fatal error. -/
def failsWith {α : Type} (text : String) : Result α → Bool
  | .ok _ => false
  | .error e => e == text

theorem eq_error_of_failsWith {α : Type} {text : String} {x : Result α} (h : failsWith text x = true) :
    x = .error text := by
  cases x with
  | ok a => cases h
  | error e => rw [eq_of_beq (show (e == text) = true from h)]

/-- `common/status.h`. -/
inductive Status where
  | ok
  | notFound (msg : String)
  | notSupported (msg : String)
  | invalidArgument (msg : String)
  | ioError (msg : String)
  deriving DecidableEq, Repr

def Status.isOk : Status → Bool
  | .ok => true
  | _ => false

inductive MessageType where
  | msgHup | msgBeat | msgProp | msgApp | msgAppResp | msgVote | msgVoteResp | msgSnap
  | msgHeartbeat | msgHeartbeatResp | msgUnreachable | msgSnapStatus | msgCheckQuorum
  | msgTransferLeader | msgTimeoutNow | msgReadIndex | msgReadIndexResp | msgPreVote
  | msgPreVoteResp
  deriving DecidableEq, Repr

/-- A byte in the source too: `RawNode::read_index` builds an entry of type `MsgReadIndex`. -/
abbrev EntryType := UInt8

def entryNormal : EntryType := 0
def entryConfChange : EntryType := 1

structure Entry where
  type : EntryType := entryNormal
  term : Nat := 0
  index : Nat := 0
  data : Bytes := []
  deriving DecidableEq, Repr

structure ConfState where
  nodes : List Nat := []
  learners : List Nat := []
  deriving DecidableEq, Repr

structure SnapshotMetadata where
  confState : ConfState := {}
  index : Nat := 0
  term : Nat := 0
  deriving DecidableEq, Repr

structure Snapshot where
  data : Bytes := []
  metadata : SnapshotMetadata := {}
  deriving DecidableEq, Repr

def Snapshot.isEmpty (s : Snapshot) : Bool := s.metadata.index == 0

structure Message where
  type : MessageType := .msgHup
  to_ : Nat := 0
  from_ : Nat := 0
  term : Nat := 0
  logTerm : Nat := 0
  index : Nat := 0
  entries : List Entry := []
  commit : Nat := 0
  snapshot : Snapshot := {}
  reject : Bool := false
  rejectHint : Nat := 0
  context : Bytes := []
  deriving DecidableEq, Repr

def Message.isLocalMsg (m : Message) : Bool :=
  m.type = .msgHup || m.type = .msgBeat || m.type = .msgUnreachable || m.type = .msgSnapStatus ||
    m.type = .msgCheckQuorum

def Message.isResponseMsg (m : Message) : Bool :=
  m.type = .msgAppResp || m.type = .msgVoteResp || m.type = .msgHeartbeatResp ||
    m.type = .msgUnreachable || m.type = .msgPreVoteResp

structure HardState where
  term : Nat := 0
  vote : Nat := 0
  commit : Nat := 0
  deriving DecidableEq, Repr

def HardState.isEmptyState (hs : HardState) : Bool :=
  hs.term == 0 && hs.vote == 0 && hs.commit == 0

def u8SerializeSize (d : UInt8) : Nat := if d.toNat < 2 ^ 7 then 1 else 2

def u64SerializeSize (d : Nat) : Nat :=
  if d < 2 ^ 8 then
    if d < 2 ^ 7 then 1 else 2
  else if d < 2 ^ 16 then 3
  else if d < 2 ^ 32 then 5
  else 9

def dataSerializeSize (len : Nat) : Nat :=
  if len ≤ 2 ^ 8 - 1 then (2 + len) % 2 ^ 32
  else if len ≤ 2 ^ 16 - 1 then (3 + len) % 2 ^ 32
  else (5 + len) % 2 ^ 32

def Entry.serializeSize (e : Entry) : Nat :=
  (1 + u8SerializeSize e.type + u64SerializeSize e.term + u64SerializeSize e.index +
    dataSerializeSize (e.data.length % 2 ^ 32)) % 2 ^ 32

def Entry.payloadSize (e : Entry) : Nat := e.data.length % 2 ^ 32

/-- Maps vote and pre-vote requests to their responses. -/
def voteRespMsgType : MessageType → Result MessageType
  | .msgVote => .ok .msgVoteResp
  | .msgPreVote => .ok .msgPreVoteResp
  | _ => .error "not a vote message:%s"

/-- The loop of `entry_limit_size` from its second entry on, with the running size. -/
def entryLimitSizeFrom (maxSize : Nat) : Nat → List Entry → List Entry
  | _, [] => []
  | size, e :: es =>
      if size + e.serializeSize > maxSize then []
      else e :: entryLimitSizeFrom maxSize (size + e.serializeSize) es

/-- The longest prefix within the limit, but never fewer than one entry. -/
def entryLimitSize (maxSize : Nat) : List Entry → List Entry
  | [] => []
  | e :: es => e :: entryLimitSizeFrom maxSize e.serializeSize es

theorem entryLimitSizeFrom_initial (maxSize size : Nat) (es : List Entry) :
    entryLimitSizeFrom maxSize size es <+: es := by
  induction es generalizing size with
  | nil => exact List.nil_prefix
  | cons e es ih =>
      unfold entryLimitSizeFrom
      split
      · exact List.nil_prefix
      · exact List.cons_prefix_cons.mpr ⟨rfl, ih _⟩

theorem entryLimitSize_initial (maxSize : Nat) (es : List Entry) :
    entryLimitSize maxSize es <+: es := by
  cases es with
  | nil => exact List.nil_prefix
  | cons e es => exact List.cons_prefix_cons.mpr ⟨rfl, entryLimitSizeFrom_initial _ _ es⟩

/-- A state with a new vote or term, or with entries, has to reach the disk before it is used. -/
def isMustSync (st prevst : HardState) (entsnum : Nat) : Bool :=
  entsnum != 0 || st.vote != prevst.vote || st.term != prevst.term

/-- `std::numeric_limits<uint64_t>::max()`. -/
def unlimited : Nat := 2 ^ 64 - 1

end RaftEtcd
