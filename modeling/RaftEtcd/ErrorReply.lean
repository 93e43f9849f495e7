import RaftEtcd.Handlers
import RaftEtcd.Node
import RaftEtcd.RedisReply

/-! `server/redis_session.cpp`: with which lengths a session replies to a request. The errors are formatted into
a buffer of 256 bytes, and what `snprintf` returns is taken for the length of what it has stored. -/
namespace RaftEtcd
variable {κ : Type}

/-! ### The code -/

namespace Status

/-- The name of the code and the message; without a message the name loses its last character. -/
def withMessage (name msg : String) : Bytes := if msg = "" then (text name).dropLast else text name ++ text msg

def toString : Status → Bytes
  | .ok => text "ok"
  | .notFound msg => withMessage "not found" msg
  | .notSupported msg => withMessage "not supported" msg
  | .invalidArgument msg => withMessage "invalid argument" msg
  | .ioError msg => withMessage "io error" msg

end Status

namespace Shared

def ok : Bytes := text "+OK\r\n"
def pong : Bytes := text "+PONG\r\n"
def err (s : Bytes) : Bytes := text "-ERR " ++ cString s ++ text "\r\n"
def unknownCommand (name : Bytes) : Bytes := text "-ERR unknown command `" ++ cString name ++ text "`\r\n"

end Shared

/-- What is stored in front of the terminator, and the result: the length of all that was to be printed, or -1 where
an `int` does not hold it. -/
def snprintf (size : Nat) (printed : Bytes) : Bytes × Int :=
  (printed.take (size - 1), if printed.length < 2 ^ 31 then printed.length else -1)

/-- A call of `send_reply`: whether `snprintf` filled the buffer, the bytes that are stored at the pointer, and the
length, a `uint32_t`. -/
structure ReplyCall where
  formatted : Bool
  stored : Bytes
  len : Nat
  deriving DecidableEq, Repr

/-- What goes out of the stored bytes. -/
def ReplyCall.sent (call : ReplyCall) : Bytes := call.stored.take call.len

def replyText (s : Bytes) : ReplyCall := { formatted := false, stored := s, len := s.length % 2 ^ 32 }

/-- The buffer has 256 bytes in every handler. -/
def replyFormatted (printed : Bytes) : ReplyCall :=
  { formatted := true, stored := (snprintf 256 printed).1, len := ((snprintf 256 printed).2 % 2 ^ 32).toNat }

/-- What a handler does: it replies, or has the store make a change whose callback replies. -/
inductive Handled
  | replies (call : ReplyCall)
  | set (key value : Bytes)
  | del (keys : List Bytes)

/-- What goes out at once. -/
def Handled.sent : Handled → Bytes
  | .replies call => call.sent
  | .set _ _ | .del _ => []

/-- The callback that `set` and `del` hand to the store. -/
def replyStatus (status : Status) : ReplyCall :=
  if status.isOk then replyText Shared.ok else replyFormatted (Shared.err status.toString)

/-- A request, as the reader of hiredis hands it out. -/
inductive RedisRequest
  | array (elements : List RedisElement)
  | other (type : Nat)

inductive Command
  | ping | get | set | del | keys
  deriving DecidableEq, Repr

/-- The names with their handlers. -/
def commandTable : List (Bytes × Command) :=
  [(text "ping", .ping), (text "PING", .ping), (text "get", .get), (text "Get", .get), (text "set", .set),
    (text "SET", .set), (text "del", .del), (text "DEL", .del), (text "keys", .keys), (text "KEYS", .keys)]

namespace Reply

def wrongType : Handled := .replies (replyText Shared.wrongType)

def wrongNumberArguments (name : String) : Handled := .replies (replyFormatted (Shared.wrongNumberArguments name))

def getCommand (store : RedisStore κ) : List RedisElement → Result Handled
  | [] => .error "assert(reply->elements > 0)"
  | [_, .string key] =>
      match store.get key with
      | none => .ok (.replies (replyText Shared.null))
      | some value =>
          match gStrdupPrintf value.length value with
          | none => .error "strlen of a null pointer"
          | some str => .ok (.replies (replyText (cString str)))
  | [_, .other _] => .ok wrongType
  | _ => .ok (wrongNumberArguments "get")

def setCommand : List RedisElement → Result Handled
  | [] => .error "assert(reply->elements > 0)"
  | [_, .string key, .string value] => .ok (.set key value)
  | [_, _, _] => .ok wrongType
  | _ => .ok (wrongNumberArguments "set")

/-- The keys of a deletion, if they are all strings. -/
def stringsOf : List RedisElement → Option (List Bytes)
  | [] => some []
  | .string str :: elements => (stringsOf elements).map (str :: ·)
  | .other _ :: _ => none

def delCommand : List RedisElement → Result Handled
  | [] => .error "assert(reply->elements > 0)"
  | [_] => .ok (wrongNumberArguments "del")
  | _ :: elements =>
      match stringsOf elements with
      | none => .ok wrongType
      | some keys => .ok (.del keys)

def keysCommand (store : RedisStore κ) : List RedisElement → Result Handled
  | [] => .error "assert(reply->elements > 0)"
  | [_, .string pattern] => .ok (.replies (replyText (buildRedisStringArrayReply (store.keys pattern))))
  | [_, .other _] => .ok wrongType
  | _ => .ok (wrongNumberArguments "keys")

def run (store : RedisStore κ) (elements : List RedisElement) : Command → Result Handled
  | .ping => .ok (.replies (replyText Shared.pong))
  | .get => getCommand store elements
  | .set => setCommand elements
  | .del => delCommand elements
  | .keys => keysCommand store elements

def onRedisReply (store : RedisStore κ) : RedisRequest → Result Handled
  | .other _ => .ok wrongType
  | .array [] => .ok (wrongNumberArguments "")
  | .array (.other _ :: _) => .ok wrongType
  | .array (.string command :: elements) =>
      match commandTable.lookup command with
      | none => .ok (.replies (replyFormatted (Shared.unknownCommand command)))
      | some cb => run store (.string command :: elements) cb

end Reply

/-! ### What a callback is called with -/

/-- The statuses with which the store calls a callback: when an entry is applied, and when a proposal has been made. -/
inductive CalledBack (κ : Type) (status : Status) : Prop
  | applied {mp : Msgpack} {nodeId : Nat} {store store' : RedisStore κ} {data : Bytes} {callback : κ}
      (read : store.readCommit mp nodeId data = .ok (store', some (callback, status)))
  | set {n n' : RawNode} {data : Bytes} {st : Status} {store : RedisStore κ} {commitId : Nat} {callback : κ}
      (proposed : n.propose data = .ok (n', st)) (failed : (store.setProposed commitId st).2 = some (callback, status))
  | del {n n' : RawNode} {data : Bytes} {st : Status} {store : RedisStore κ} {commitId : Nat} {callback : κ}
      (proposed : n.propose data = .ok (n', st)) (ended : (store.delProposed commitId st).2 = some (callback, status))

/-- A proposal is dropped for one reason or another, with one message. -/
theorem propose_status {n n' : RawNode} {data : Bytes} {st : Status} (h : n.propose data = .ok (n', st)) :
    st = .ok ∨ st = .invalidArgument "raft proposal dropped" := by
  unfold RawNode.propose RawNode.stepRaft at h
  obtain ⟨⟨r, st'⟩, hstep, h⟩ := bind_ok h
  obtain ⟨-, rfl⟩ := Prod.mk.inj (Except.ok.inj h)
  unfold Raft.step Raft.stepBody at hstep
  rw [if_pos rfl] at hstep
  dsimp only at hstep
  split at hstep
  · unfold Raft.stepFollower at hstep
    dsimp only at hstep
    split at hstep
    · exact Or.inr (Prod.mk.inj (Except.ok.inj hstep)).2.symm
    split at hstep
    · exact Or.inr (Prod.mk.inj (Except.ok.inj hstep)).2.symm
    · obtain ⟨r', -, hok⟩ := bind_ok hstep
      exact Or.inl (Prod.mk.inj (Except.ok.inj hok)).2.symm
  · exact Or.inr (Prod.mk.inj (Except.ok.inj hstep)).2.symm
  · exact Or.inr (Prod.mk.inj (Except.ok.inj hstep)).2.symm
  · cases leaderProp_proposes hstep with
    | refuses why status same => exact Or.inr status
    | drops member settled append status => exact Or.inr status
    | takes nonempty r₁ append cast status => exact Or.inl status

theorem calledBack_status {status : Status} (h : CalledBack κ status) :
    status = .ok ∨ status = .invalidArgument "raft proposal dropped" := by
  have hmap : ∀ {waits : Option κ} {st : Status} {callback : κ},
      waits.map (fun cb => (cb, st)) = some (callback, status) → status = st := by
    intro waits st callback heq
    obtain ⟨cb, -, hcb⟩ := Option.map_eq_some_iff.mp heq
    exact (Prod.mk.inj hcb).2.symm
  cases h with
  | applied read =>
      unfold RedisStore.readCommit at read
      split at read
      · cases read
      obtain ⟨kv, -, read⟩ := bind_ok read
      dsimp only at read
      split at read
      · exact Or.inl (hmap (Prod.mk.inj (Except.ok.inj read)).2)
      · cases read
  | set proposed failed =>
      unfold RedisStore.setProposed at failed
      split at failed
      · cases failed
      · rw [hmap failed]
        exact propose_status proposed
  | del proposed ended =>
      rw [hmap ended]
      exact propose_status proposed

/-! ### Lengths -/

/-- The length of a formatted reply is at most that of what is stored. -/
def ReplyCall.Inside (call : ReplyCall) : Prop :=
  call.formatted = true → call.len ≤ call.stored.length ∧ call.stored.length ≤ 255

/-- That a handler's replies are inside, the later ones included. -/
def Handled.Inside (κ : Type) : Handled → Prop
  | .replies call => call.Inside
  | .set _ _ | .del _ => ∀ status, CalledBack κ status → (replyStatus status).Inside

/-- The request names an unknown command, with more than 230 bytes in front of the first zero byte. -/
def RedisRequest.LongUnknown (request : RedisRequest) : Prop :=
  ∃ command elements, request = .array (.string command :: elements) ∧ commandTable.lookup command = none ∧
    230 < (cString command).length

section Lengths
variable {store : RedisStore κ} {elements : List RedisElement} {handled : Handled}

theorem replyText_inside (s : Bytes) : (replyText s).Inside := nofun

/-- A reply is inside exactly if all of it fits. -/
theorem replyFormatted_inside {printed : Bytes} : (replyFormatted printed).Inside ↔ printed.length ≤ 255 := by
  have hstored : (replyFormatted printed).stored.length = min 255 printed.length := List.length_take
  have hlen : (replyFormatted printed).len = if printed.length < 2 ^ 31 then printed.length else 2 ^ 32 - 1 := by
    simp only [replyFormatted, snprintf]
    split <;> omega
  rw [ReplyCall.Inside, hstored, hlen]
  constructor
  · intro h
    have := h rfl
    split at this <;> omega
  · intro h _
    rw [if_pos (by omega)]
    omega

theorem unknownCommand_length (name : Bytes) : (Shared.unknownCommand name).length = 25 + (cString name).length := by
  have hfront : (text "-ERR unknown command `").length = 22 := by decide +kernel
  have hend : (text "`\r\n").length = 3 := by decide +kernel
  rw [Shared.unknownCommand, List.length_append, List.length_append, hfront, hend]
  omega

/-- The arguments are counted under the names of commands only. -/
theorem wrongNumberArguments_inside : ∀ name ∈ ["", "get", "set", "del", "keys"],
    (Reply.wrongNumberArguments name).Inside κ := by
  have hall : ∀ name ∈ ["", "get", "set", "del", "keys"], (Shared.wrongNumberArguments name).length ≤ 255 := by
    decide +kernel
  exact fun name hname => replyFormatted_inside.mpr (hall name hname)

theorem wrongType_inside : Reply.wrongType.Inside κ := replyText_inside _

/-- The callback of a change has one error to report. -/
theorem replyStatus_inside {status : Status} (h : CalledBack κ status) : (replyStatus status).Inside := by
  rcases calledBack_status h with rfl | rfl
  · exact replyText_inside _
  · exact replyFormatted_inside.mpr (by decide +kernel)

theorem getCommand_inside (h : Reply.getCommand store elements = .ok handled) : handled.Inside κ := by
  unfold Reply.getCommand at h
  split at h
  · cases h
  · split at h
    · cases h
      exact replyText_inside _
    split at h
    · cases h
    · cases h
      exact replyText_inside _
  · cases h
    exact wrongType_inside
  · cases h
    exact wrongNumberArguments_inside "get" (by decide)

theorem setCommand_inside (h : Reply.setCommand elements = .ok handled) : handled.Inside κ := by
  unfold Reply.setCommand at h
  split at h
  · cases h
  · cases h
    exact fun status => replyStatus_inside
  · cases h
    exact wrongType_inside
  · cases h
    exact wrongNumberArguments_inside "set" (by decide)

theorem delCommand_inside (h : Reply.delCommand elements = .ok handled) : handled.Inside κ := by
  unfold Reply.delCommand at h
  split at h
  · cases h
  · cases h
    exact wrongNumberArguments_inside "del" (by decide)
  · split at h
    · cases h
      exact wrongType_inside
    · cases h
      exact fun status => replyStatus_inside

theorem keysCommand_inside (h : Reply.keysCommand store elements = .ok handled) : handled.Inside κ := by
  unfold Reply.keysCommand at h
  split at h
  · cases h
  · cases h
    exact replyText_inside _
  · cases h
    exact wrongType_inside
  · cases h
    exact wrongNumberArguments_inside "keys" (by decide)

theorem run_inside {cb : Command} (h : Reply.run store elements cb = .ok handled) : handled.Inside κ := by
  cases cb with
  | ping =>
      cases h
      exact replyText_inside _
  | get => exact getCommand_inside h
  | set => exact setCommand_inside h
  | del => exact delCommand_inside h
  | keys => exact keysCommand_inside h

theorem onRedisReply_unknown {command : Bytes} (h : commandTable.lookup command = none) :
    Reply.onRedisReply store (.array (.string command :: elements)) =
      .ok (.replies (replyFormatted (Shared.unknownCommand command))) := by
  simp only [Reply.onRedisReply, h]

theorem unknownCommand_inside {command : Bytes} :
    (replyFormatted (Shared.unknownCommand command)).Inside ↔ ¬ 230 < (cString command).length := by
  rw [replyFormatted_inside, unknownCommand_length]
  omega

/-- The lengths of formatted replies are inside the buffer, whatever the request asks for, unless it asks for an
unknown command with a long name. -/
theorem formatted_replies_inside_iff (store : RedisStore κ) (request : RedisRequest) :
    (∀ handled, Reply.onRedisReply store request = .ok handled → handled.Inside κ) ↔ ¬ request.LongUnknown := by
  constructor
  · rintro h ⟨command, elements, rfl, hlookup, hlong⟩
    exact unknownCommand_inside.mp (h _ (onRedisReply_unknown hlookup)) hlong
  · intro hshort handled h
    unfold Reply.onRedisReply at h
    split at h
    · cases h
      exact wrongType_inside
    · cases h
      exact wrongNumberArguments_inside "" (by decide)
    · cases h
      exact wrongType_inside
    · rename_i command elements
      split at h
      · rename_i hlookup
        cases h
        exact unknownCommand_inside.mpr fun hlong => hshort ⟨command, elements, rfl, hlookup, hlong⟩
      · exact run_inside h

/-- 231 times the same letter. -/
theorem long_command_read_past : ¬ ∀ handled,
    Reply.onRedisReply ({} : RedisStore Unit) (.array [.string (List.replicate 231 120)]) = .ok handled →
      handled.Inside Unit := by
  intro h
  exact unknownCommand_inside.mp (h _ (onRedisReply_unknown (by decide +kernel))) (by decide +kernel)

/-! ### The bytes that go out -/

theorem replyText_sent (s : Bytes) : (replyText s).sent = sendReply s s.length := rfl

/-- What fits is sent as it was printed. -/
theorem replyFormatted_sent {printed : Bytes} (h : printed.length ≤ 255) : (replyFormatted printed).sent = printed := by
  have hlen : (replyFormatted printed).len = printed.length := by
    simp only [replyFormatted, snprintf]
    rw [if_pos (by omega)]
    omega
  rw [ReplyCall.sent, hlen]
  exact List.take_of_length_le (List.length_take_le' _ _) |>.trans (List.take_of_length_le h)

/-- Behind its first zero byte a text is not sent. -/
theorem sendReply_cString (str : Bytes) : sendReply str (cString str).length = (replyText (cString str)).sent := by
  have hle := Nat.mod_le (cString str).length (2 ^ 32)
  obtain ⟨rest, hrest⟩ : cString str <+: str := List.takeWhile_prefix _
  generalize cString str = front at hrest hle
  rw [replyText_sent, sendReply, sendReply, ← hrest, List.take_append_of_le_length hle]

/-- GET sends what its call of `send_reply` says. -/
theorem getCommand_sent : getCommand store elements = (Reply.getCommand store elements).map Handled.sent := by
  have hnumber : (Shared.wrongNumberArguments "get").length ≤ 255 := by decide +kernel
  match elements with
  | [] => rfl
  | [_, .string key] =>
      rw [getCommand, Reply.getCommand]
      cases store.get key with
      | none => rfl
      | some value =>
          dsimp only
          cases gStrdupPrintf value.length value with
          | none => rfl
          | some str => exact congrArg Except.ok (sendReply_cString str)
  | [_, .other _] => rfl
  | [_] => exact congrArg Except.ok (replyFormatted_sent hnumber).symm
  | _ :: element :: _ :: _ => cases element <;> exact congrArg Except.ok (replyFormatted_sent hnumber).symm

/-- So does KEYS. -/
theorem keysCommand_sent : keysCommand store elements = (Reply.keysCommand store elements).map Handled.sent := by
  have hnumber : (Shared.wrongNumberArguments "keys").length ≤ 255 := by decide +kernel
  match elements with
  | [] | [_, .string _] | [_, .other _] => rfl
  | [_] => exact congrArg Except.ok (replyFormatted_sent hnumber).symm
  | _ :: element :: _ :: _ => cases element <;> exact congrArg Except.ok (replyFormatted_sent hnumber).symm

end Lengths

end RaftEtcd
