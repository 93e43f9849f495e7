import RaftEtcd.Acknowledge
import RaftEtcd.ErrorReply
import RaftEtcd.PeerStream
import RaftEtcd.RedisSession

/-! `server/redis_session.cpp` over `server/redis_store.cpp`: the conversations of a server with its clients. Every
session reads requests, answers some of them at once and the others when the store calls back, and writes the answers
to its socket one `async_write` after the other. All this runs on the thread of the store, in any order. -/
namespace RaftEtcd
variable {rd : RedisReader RedisRequest} {mp : Msgpack}

/-! ### The code -/

/-- What has been done to the map: the data of an entry, or a snapshot in its place. -/
inductive MapChange where
  | command (data : Bytes)
  | snapshot (snap : Bytes)
  deriving DecidableEq, Repr

def LoggedCommand.change (command : LoggedCommand) : MapChange := .command command.data

/-- An answer to a request of the session, with the number of changes that the map had seen then. -/
structure Answer where
  request : Nat
  seen : Nat
  bytes : Bytes
  deriving DecidableEq, Repr

/-- A session with both of its directions. An `async_write` of `writing` bytes is under way, and the socket has taken
`taken` of them. The write points into the vector of the buffer: `intact` is lost when the vector moves before all has
been taken, or when a cursor wraps. `asked`, `replies` and `received` record the requests, the calls of `send_reply` and
what the client has got. -/
structure Connection (rd : RedisReader RedisRequest) where
  session : RedisSession rd := .opened rd
  sendBuffer : ByteBuffer := {}
  writing : Option Nat := none
  taken : Nat := 0
  failed : Bool := false
  intact : Bool := true
  asked : List RedisRequest := []
  replies : List Answer := []
  received : Bytes := []

namespace Connection

/-- All that was to be sent. -/
def outgoing (c : Connection rd) : Bytes := c.replies.flatMap Answer.bytes

def startSend (c : Connection rd) : Result (Connection rd) := do
  if c.sendBuffer.readable then
    let remaining ← c.sendBuffer.readableBytes
    .ok { c with writing := some remaining, taken := 0 }
  else .ok c

/-- The bytes are in the buffer. A vector of another size is another piece of memory. -/
def queue (c : Connection rd) (buffer : ByteBuffer) (a : Answer) : Connection rd :=
  { c with
    sendBuffer := buffer
    intact := c.intact && (c.writing.all (· = c.taken) || buffer.buff.length = c.sendBuffer.buff.length) &&
      c.sendBuffer.writer + a.bytes.length < 2 ^ 32
    replies := c.replies ++ [a] }

/-- A length beyond what is stored makes `put` read on behind it. -/
def sendReply (c : Connection rd) (request seen : Nat) (call : ReplyCall) : Result (Connection rd) :=
  if call.stored.length < call.len then .error "memcpy beyond the end of the reply"
  else do
    let bytes ← c.sendBuffer.readableBytes
    let buffer ← c.sendBuffer.put call.sent
    let c := c.queue buffer { request := request, seen := seen, bytes := call.sent }
    if bytes = 0 then c.startSend else .ok c

/-- The socket takes some of the bytes of the write that is under way. -/
def takes (c : Connection rd) (bytes : Bytes) : Connection rd :=
  { c with taken := c.taken + bytes.length, received := c.received ++ bytes }

/-- The handler of `async_write`, when all has been written. -/
def written (c : Connection rd) : Result (Connection rd) := do
  let buffer ← c.sendBuffer.readBytes c.taken
  { c with sendBuffer := buffer, writing := none, taken := 0 }.startSend

/-- With an error it does nothing, and the write that has begun is the last one. -/
def writeFails (c : Connection rd) : Connection rd := { c with writing := none, failed := true }

end Connection

/-- The node, and what is remembered of the past: for each callback that was handed to the store, the session that it
keeps alive and the request of it; all changes of the map; and what the raft thread has said of the proposals. -/
structure StoreThread where
  node : ClientNode
  askers : List (Nat × Nat) := []
  history : List MapChange := []
  statuses : List (Nat × Status) := []

/-- `set` and `del` of the store; the callback keeps the session. -/
def StoreThread.hand (s : StoreThread) (i k : Nat) (isDel : Bool) (data : RedisCommitData) : StoreThread :=
  { s with node := s.node.request isDel data, askers := s.askers ++ [(i, k)] }

/-- The raft thread runs the next proposal and posts its status. -/
def StoreThread.propose (s : StoreThread) (status : Status) : StoreThread :=
  { s with
    node := s.node.propose status
    statuses := s.statuses ++ s.node.proposals.head?.toList.map fun p => (p.request, status) }

/-- It posts the data of an entry. -/
def StoreThread.publish (s : StoreThread) (data : Bytes) : StoreThread :=
  { s with node := { s.node with handlers := s.node.handlers ++ [.commit { data := data }] } }

/-- The store's thread runs its next closure. -/
def StoreThread.handle (mp : Msgpack) (s : StoreThread) : StoreThread :=
  { s with
    node := s.node.handle mp
    history := s.history ++ ((s.node.handle mp).applied.drop s.node.applied.length).map LoggedCommand.change }

/-- `recover_from_snapshot`, and the callback that the raft thread has given it. -/
def StoreThread.recover (mp : Msgpack) (s : StoreThread) (snap : Bytes) : Result StoreThread := do
  let (store, status) ← s.node.store.recoverFromSnapshot mp snap
  if !status.isOk then .error "recover from snapshot error %s"
  else .ok { s with node := { s.node with store := store }, history := s.history ++ [.snapshot snap] }

structure FrontEnd (rd : RedisReader RedisRequest) where
  thread : StoreThread
  connections : Nat → Connection rd := fun _ => {}

/-- The events on the thread of the store, and what the raft thread posts to it: the status of a proposal, or the data
of any entry. The closure of a snapshot may run at any time. -/
inductive FrontEvent
  | receive (i : Nat) (bytes : Bytes)
  | propose (status : Status)
  | publish (data : Bytes)
  | handle
  | recover (snap : Bytes)
  | takes (i : Nat) (bytes : Bytes)
  | written (i : Nat)
  | writeFails (i : Nat)

namespace FrontEnd

/-- A server whose store has this map; nobody has sent anything. -/
def started (rd : RedisReader RedisRequest) (nodeId : Nat) (kv : KeyValues) : FrontEnd rd :=
  { thread := { node := { nodeId := nodeId, store := { keyValues := kv } } } }

def setConnection (f : FrontEnd rd) (i : Nat) (c : Connection rd) : FrontEnd rd :=
  { f with connections := Function.update f.connections i c }

def reply (f : FrontEnd rd) (i k : Nat) (call : ReplyCall) : Result (FrontEnd rd) := do
  let c ← (f.connections i).sendReply k f.thread.history.length call
  .ok (f.setConnection i c)

def hand (f : FrontEnd rd) (i k : Nat) (isDel : Bool) (data : RedisCommitData) : FrontEnd rd :=
  { f with thread := f.thread.hand i k isDel data }

/-- `on_redis_reply`. -/
def request (f : FrontEnd rd) (i : Nat) (req : RedisRequest) : Result (FrontEnd rd) := do
  let k := (f.connections i).asked.length
  let f := f.setConnection i { f.connections i with asked := (f.connections i).asked ++ [req] }
  match ← Reply.onRedisReply f.thread.node.store req with
  | .replies call => f.reply i k call
  | .set key value => .ok (f.hand i k false (ClientNode.setData key value))
  | .del keys => .ok (f.hand i k true (ClientNode.delData keys))

/-- A read of the session completes: what the reader finds in it is answered in turn. -/
def receive (f : FrontEnd rd) (i : Nat) (bytes : Bytes) : Result (FrontEnd rd) :=
  let s := (f.connections i).session
  let f := f.setConnection i { f.connections i with session := s.receive bytes }
  ((s.receive bytes).handled.drop s.handled.length).foldlM (fun f req => f.request i req) f

/-- A callback of the store. -/
def callback (f : FrontEnd rd) (ack : Nat × Status) : Result (FrontEnd rd) :=
  match f.thread.askers[ack.1]? with
  | none => .error "no such callback"
  | some (i, k) => f.reply i k (replyStatus ack.2)

/-- A closure of the store; a failed assertion ends the process. -/
def handle (mp : Msgpack) (f : FrontEnd rd) : Result (FrontEnd rd) := do
  if let some (.commit command) := f.thread.node.handlers.head? then
    let _ ← f.thread.node.store.readCommit mp f.thread.node.nodeId command.data
  let thread := f.thread.handle mp
  (thread.node.acks.drop f.thread.node.acks.length).foldlM callback { f with thread := thread }

def step (mp : Msgpack) (f : FrontEnd rd) : FrontEvent → Result (FrontEnd rd)
  | .receive i bytes => f.receive i bytes
  | .propose status => .ok { f with thread := f.thread.propose status }
  | .publish data => .ok { f with thread := f.thread.publish data }
  | .handle => f.handle mp
  | .recover snap => do
      let thread ← f.thread.recover mp snap
      .ok { f with thread := thread }
  | .takes i bytes => .ok (f.setConnection i ((f.connections i).takes bytes))
  | .written i => do
      let c ← (f.connections i).written
      .ok (f.setConnection i c)
  | .writeFails i => .ok (f.setConnection i (f.connections i).writeFails)

/-- What the socket of a session may do: while a write is under way it takes bytes of it, the next ones unless the
memory has changed, and the handler runs when it has them all, or when it fails. -/
def Allowed (f : FrontEnd rd) : FrontEvent → Prop
  | .takes i bytes => ∃ n ∈ (f.connections i).writing, (f.connections i).taken + bytes.length ≤ n ∧
      ((f.connections i).intact = true →
        bytes = ((f.connections i).sendBuffer.slice.drop (f.connections i).taken).take bytes.length)
  | .written i => (f.connections i).writing = some (f.connections i).taken
  | .writeFails i => (f.connections i).writing.isSome
  | _ => True

instance (f : FrontEnd rd) : (e : FrontEvent) → Decidable (f.Allowed e)
  | .takes i bytes => inferInstanceAs (Decidable (∃ n ∈ (f.connections i).writing,
      (f.connections i).taken + bytes.length ≤ n ∧ ((f.connections i).intact = true →
        bytes = ((f.connections i).sendBuffer.slice.drop (f.connections i).taken).take bytes.length)))
  | .written i => inferInstanceAs (Decidable ((f.connections i).writing = some (f.connections i).taken))
  | .writeFails i => inferInstanceAs (Decidable ((f.connections i).writing.isSome = true))
  | .receive _ _ | .propose _ | .publish _ | .handle | .recover _ => isTrue trivial

/-- The numbers of the requests have not come round. -/
def Numbered (f : FrontEnd rd) : Prop := f.thread.node.issued.length ≤ 2 ^ 32

/-- What the server does from one state on, under a condition on the steps. -/
def Runs (mp : Msgpack) (P : FrontEnd rd → FrontEvent → FrontEnd rd → Prop) (f f' : FrontEnd rd) : Prop :=
  Relation.ReflTransGen
    (fun g g' => ∃ e, g.Allowed e ∧ g.step mp e = .ok g' ∧ g'.Numbered ∧ P g e g') f f'

end FrontEnd

/-! ### The socket -/

namespace Connection
variable {c c' : Connection rd} {front content : Bytes}

/-- What was to be sent is what has left the buffer and what is in it; the client has the one, and of the other what
the socket has taken. -/
structure Clean (c : Connection rd) (front content : Bytes) : Prop where
  buffer : c.sendBuffer.Holds content
  outgoing : c.outgoing = front ++ content
  received : c.received = front ++ content.take c.taken
  within : c.taken ≤ content.length
  writing : ∀ n, c.writing = some n → c.taken ≤ n ∧ 0 < n ∧ n ≤ content.length
  rests : c.writing = none → c.failed = false → content = []

theorem startSend_clean (hb : c.sendBuffer.Holds content) (ho : c.outgoing = front ++ content) (hr : c.received = front)
    (hw : c.writing = none) (ht : c.taken = 0) : ∃ c', c.startSend = .ok c' ∧ c'.Clean front content := by
  have hstart : c.received = front ++ content.take 0 := by
    rw [List.take_zero, List.append_nil]
    exact hr
  unfold startSend
  rw [hb.readable]
  cases content with
  | nil => exact ⟨c, rfl, hb, ho, ht.symm ▸ hstart, ht.le, fun n hn => (by cases hw.symm.trans hn),
      fun _ _ => rfl⟩
  | cons b bs =>
      rw [hb.readableBytes]
      refine ⟨{ c with writing := some (b :: bs).length, taken := 0 }, rfl, hb, ho, hstart, Nat.zero_le _,
        fun n hn => ?_,
        nofun⟩
      obtain rfl := Option.some.inj hn
      exact ⟨Nat.zero_le _, Nat.succ_pos _, le_rfl⟩

/-- What `send_reply` leaves as it is, and the answer that it notes. -/
structure Replied (c c' : Connection rd) (a : Answer) : Prop where
  session : c'.session = c.session
  asked : c'.asked = c.asked
  replies : c'.replies = c.replies ++ [a]

/-- Nothing new is asked, and no reply is taken back. -/
structure Stays (c c' : Connection rd) : Prop where
  session : c'.session = c.session
  asked : c'.asked = c.asked
  replies : c.replies <+: c'.replies

theorem Stays.refl (c : Connection rd) : c.Stays c := ⟨rfl, rfl, List.prefix_refl _⟩

theorem Replied.stays {a : Answer} (h : c.Replied c' a) : c.Stays c' :=
  ⟨h.session, h.asked, h.replies ▸ List.prefix_append _ _⟩

theorem startSend_frame (h : c.startSend = .ok c') : c'.session = c.session ∧ c'.asked = c.asked ∧
    c'.replies = c.replies ∧ c'.intact = c.intact := by
  unfold startSend at h
  split at h
  · obtain ⟨n, -, h⟩ := bind_ok h
    obtain rfl := Except.ok.inj h
    exact ⟨rfl, rfl, rfl, rfl⟩
  · obtain rfl := Except.ok.inj h
    exact ⟨rfl, rfl, rfl, rfl⟩

theorem sendReply_replied {k seen : Nat} {call : ReplyCall} (h : c.sendReply k seen call = .ok c') :
    c.Replied c' { request := k, seen := seen, bytes := call.sent } := by
  unfold sendReply at h
  split at h
  · cases h
  obtain ⟨bytes, -, h⟩ := bind_ok h
  obtain ⟨buffer, -, h⟩ := bind_ok h
  dsimp only at h
  split at h
  · obtain ⟨hsession, hasked, hreplies, -⟩ := startSend_frame h
    exact ⟨hsession, hasked, hreplies⟩
  · obtain rfl := Except.ok.inj h
    exact ⟨rfl, rfl, rfl⟩

theorem sendReply_intact {k seen : Nat} {call : ReplyCall} (h : c.sendReply k seen call = .ok c')
    (hintact : c'.intact = true) : c.intact = true := by
  unfold sendReply at h
  split at h
  · cases h
  obtain ⟨bytes, -, h⟩ := bind_ok h
  obtain ⟨buffer, -, h⟩ := bind_ok h
  dsimp only at h
  have hqueued : ∀ a : Answer, (c.queue buffer a).intact = true → c.intact = true := fun a hq =>
    (Bool.and_eq_true_iff.mp (Bool.and_eq_true_iff.mp hq).1).1
  split at h
  · exact hqueued _ ((startSend_frame h).2.2.2 ▸ hintact)
  · obtain rfl := Except.ok.inj h
    exact hqueued _ hintact

/-- A reply goes behind those that wait; if there are none, the next write begins. -/
theorem Clean.sendReply {k seen : Nat} {call : ReplyCall} (hc : c.Clean front content)
    (h : c.sendReply k seen call = .ok c') (hintact : c'.intact = true) : ∃ content', c'.Clean front content' := by
  unfold Connection.sendReply at h
  split at h
  · cases h
  rw [hc.buffer.readableBytes] at h
  obtain ⟨bytes, hbytes, h⟩ := bind_ok h
  obtain rfl := Except.ok.inj hbytes
  obtain ⟨buffer, hput, hreply⟩ := bind_ok h
  generalize ha : ({ request := k, seen := seen, bytes := call.sent } : Answer) = a at hreply
  have hbytes : a.bytes = call.sent := ha ▸ rfl
  -- no cursor has wrapped
  have hkept : (c.queue buffer a).intact = true := by
    dsimp only at hreply
    split at hreply
    · rw [← (startSend_frame hreply).2.2.2]
      exact hintact
    · obtain rfl := Except.ok.inj hreply
      exact hintact
  have hfit : c.sendBuffer.writer + call.sent.length < 2 ^ 32 := by
    rw [← hbytes]
    exact of_decide_eq_true (Bool.and_eq_true_iff.mp hkept).2
  obtain ⟨buffer', hput', hholds, -⟩ := hc.buffer.put call.sent hfit
  obtain rfl := Except.ok.inj (hput.symm.trans hput')
  have hout : (c.queue buffer a).outgoing = front ++ (content ++ call.sent) := by
    change (c.replies ++ [a]).flatMap Answer.bytes = _
    rw [List.flatMap_append, List.flatMap_singleton, hbytes, ← List.append_assoc, ← hc.outgoing]
    rfl
  dsimp only at hreply
  split at hreply
  · rename_i hempty
    obtain rfl := List.eq_nil_of_length_eq_zero hempty
    have hrests : c.writing = none := by
      cases hw : c.writing with
      | none => rfl
      | some n =>
          obtain ⟨-, hpos, hle⟩ := hc.writing n hw
          exact absurd (hpos.trans_le hle) (lt_irrefl _)
    have hreceived : c.received = front := by
      rw [hc.received, List.take_nil, List.append_nil]
    obtain ⟨c₁, hstart, hclean⟩ := startSend_clean hholds hout hreceived hrests (Nat.le_zero.mp hc.within)
    obtain rfl := Except.ok.inj (hreply.symm.trans hstart)
    exact ⟨_, hclean⟩
  · rename_i hsome
    obtain rfl := Except.ok.inj hreply
    refine ⟨content ++ call.sent, hholds, hout, ?_, ?_, fun n hn => ?_, fun hw hf => ?_⟩
    · change c.received = front ++ (content ++ call.sent).take c.taken
      rw [List.take_append_of_le_length hc.within]
      exact hc.received
    · exact hc.within.trans (by rw [List.length_append]; omega)
    · obtain ⟨hle, hpos, hlen⟩ := hc.writing n hn
      exact ⟨hle, hpos, hlen.trans (by rw [List.length_append]; omega)⟩
    · exact absurd (congrArg List.length (hc.rests hw hf)) hsome

theorem Clean.takes {bytes : Bytes} {n : Nat} (hc : c.Clean front content) (hw : c.writing = some n)
    (hle : c.taken + bytes.length ≤ n) (hbytes : bytes = (c.sendBuffer.slice.drop c.taken).take bytes.length) :
    (c.takes bytes).Clean front content := by
  obtain ⟨-, hpos, hlen⟩ := hc.writing n hw
  refine ⟨hc.buffer, hc.outgoing, ?_, hle.trans hlen, fun k hk => ?_, fun hnone => by cases hnone.symm.trans hw⟩
  · change c.received ++ bytes = front ++ content.take (c.taken + bytes.length)
    rw [hc.buffer.slice] at hbytes
    rw [hc.received, List.take_add, ← hbytes, List.append_assoc]
  · obtain rfl := Option.some.inj (hw.symm.trans hk)
    exact ⟨hle, hpos, hlen⟩

theorem Clean.written (hc : c.Clean front content) (hw : c.writing = some c.taken) :
    ∃ c', c.written = .ok c' ∧ c'.Clean (front ++ content.take c.taken) (content.drop c.taken) := by
  obtain ⟨-, -, hle⟩ := hc.writing _ hw
  obtain ⟨buffer, hread, hholds, -⟩ := hc.buffer.readBytes hle
  have hout : c.outgoing = (front ++ content.take c.taken) ++ content.drop c.taken := by
    rw [List.append_assoc, List.take_append_drop]
    exact hc.outgoing
  unfold Connection.written
  rw [hread]
  exact startSend_clean hholds hout hc.received rfl rfl

theorem Clean.writeFails (hc : c.Clean front content) : c.writeFails.Clean front content :=
  ⟨hc.buffer, hc.outgoing, hc.received, hc.within, nofun, nofun⟩

theorem Clean.hears (hc : c.Clean front content) (session : RedisSession rd) (asked : List RedisRequest) :
    Clean { c with session := session, asked := asked } front content :=
  ⟨hc.buffer, hc.outgoing, hc.received, hc.within, hc.writing, hc.rests⟩

/-- The client has a first part of what was to be sent, and all of it when nothing is under way. -/
theorem Clean.delivers (hc : c.Clean front content) :
    c.received <+: c.outgoing ∧ (c.writing = none → c.failed = false → c.received = c.outgoing) := by
  rw [hc.outgoing, hc.received]
  refine ⟨(List.prefix_append_right_inj _).mpr (List.take_prefix _ _), fun hw hf => ?_⟩
  rw [hc.rests hw hf, List.take_nil]

theorem fresh_clean : Clean ({} : Connection rd) [] [] :=
  ⟨⟨le_rfl, Nat.zero_le _, Nat.two_pow_pos 32, rfl⟩, rfl, rfl, le_rfl, nofun, fun _ _ => rfl⟩

end Connection

/-! ### The thread of the store -/

namespace KeyValues

/-- A command that is none changes nothing, and a snapshot that is no map ends the process. -/
def applyChange (mp : Msgpack) (kv : KeyValues) : MapChange → Result KeyValues
  | .command data =>
      match decodeCommit mp data with
      | none => .ok kv
      | some commit => kv.applyData commit.redisData
  | .snapshot snap =>
      match (mp.unpack snap).bind convert with
      | none => .error "invalid snapshot"
      | some kv => .ok kv

/-- The changes, one after the other. -/
def replay (mp : Msgpack) (kv : KeyValues) (changes : List MapChange) : Result KeyValues :=
  changes.foldlM (applyChange mp) kv

theorem replay_append {kv kv' : KeyValues} {changes : List MapChange} (h : kv.replay mp changes = .ok kv')
    (more : List MapChange) : kv.replay mp (changes ++ more) = kv'.replay mp more := by
  rw [replay, List.foldlM_append]
  change (kv.replay mp changes >>= _) = _
  rw [h]
  rfl

end KeyValues

namespace ClientNode
variable {s s' : ClientNode}

/-- Why the callback under a number is called: the status of the proposal ends the request, or a command of this server
with this number has been applied. -/
inductive Reports (mp : Msgpack) (s : ClientNode) (commands : List LoggedCommand) (id : Nat) : Status → Prop
  | proposed {isDel : Bool} {status : Status} (posted : .proposed isDel id status ∈ s.handlers)
      (notSet : status.isOk = true → isDel = true) : Reports mp s commands id status
  | commit {command : LoggedCommand} {commit : RaftCommit} (mem : command ∈ commands)
      (decodes : decodeCommit mp command.data = some commit) (mine : commit.nodeId = s.nodeId)
      (number : commit.commitId = id) : Reports mp s commands id .ok

/-- The closure of the store has run: it may have applied a command, and it has called one callback that waited, or
none. -/
structure Handles (mp : Msgpack) (s s' : ClientNode) (commands : List LoggedCommand) (ack : Option (Nat × Status)) :
    Prop where
  nodeId : s'.nodeId = s.nodeId
  issued : s'.issued = s.issued
  proposals : s'.proposals = s.proposals
  handlers : s'.handlers = s.handlers.tail
  runs : ∀ command ∈ commands, .commit command ∈ s.handlers
  next : s'.store.nextRequestId = s.store.nextRequestId
  acks : s'.acks = s.acks ++ ack.toList
  applied : s'.applied = s.applied ++ commands
  map : s.store.keyValues.replay mp (commands.map LoggedCommand.change) = .ok s'.store.keyValues
  calls : ack = none ∧ s'.store.pendingRequests = s.store.pendingRequests ∨
    ∃ id r status, ack = some (r, status) ∧ s.store.pendingRequests.lookup id = some r ∧
      s'.store.pendingRequests = s.store.pendingRequests.erase id ∧ s.Reports mp commands id status

/-- The callback under a number is called, if one waits there. -/
theorem Handles.takes (store : RedisStore Nat) {commands : List LoggedCommand} {hs : List Handler} {id : Nat}
    {status : Status} (hnext : store.nextRequestId = s.store.nextRequestId)
    (hpending : store.pendingRequests = s.store.pendingRequests)
    (hmap : s.store.keyValues.replay mp (commands.map LoggedCommand.change) = .ok store.keyValues)
    (hhs : hs = s.handlers.tail) (hruns : ∀ command ∈ commands, .commit command ∈ s.handlers)
    (hreports : s.Reports mp commands id status) : ∃ ack, Handles mp s
      (acknowledge { s with handlers := hs, applied := s.applied ++ commands }
        ((store.takePending id).1, (store.takePending id).2.map fun cb => (cb, status))) commands ack := by
  unfold RedisStore.takePending
  cases hlookup : store.pendingRequests.lookup id with
  | none => exact ⟨none, rfl, rfl, rfl, hhs, hruns, hnext, rfl, rfl, hmap, Or.inl ⟨rfl, hpending⟩⟩
  | some r =>
      refine ⟨some (r, status), rfl, rfl, rfl, hhs, hruns, hnext, rfl, rfl, hmap,
        Or.inr ⟨id, r, status, rfl, ?_, ?_, hreports⟩⟩
      · rw [← hpending]
        exact hlookup
      · change store.pendingRequests.erase id = _
        rw [hpending]

/-- Nobody waits for it. -/
theorem Handles.quiet (store : RedisStore Nat) {commands : List LoggedCommand} {hs : List Handler}
    (hnext : store.nextRequestId = s.store.nextRequestId) (hpending : store.pendingRequests = s.store.pendingRequests)
    (hmap : s.store.keyValues.replay mp (commands.map LoggedCommand.change) = .ok store.keyValues)
    (hhs : hs = s.handlers.tail) (hruns : ∀ command ∈ commands, .commit command ∈ s.handlers) :
    Handles mp s (acknowledge { s with handlers := hs, applied := s.applied ++ commands } (store, none)) commands
      none :=
  ⟨rfl, rfl, rfl, hhs, hruns, hnext, rfl, rfl, hmap, Or.inl ⟨rfl, hpending⟩⟩

theorem handle_handles (h : ∀ command, s.handlers.head? = some (.commit command) →
    ∃ res, s.store.readCommit mp s.nodeId command.data = .ok res) :
    ∃ commands ack, Handles mp s (s.handle mp) commands ack := by
  have hnone : s.store.keyValues.replay mp (List.map LoggedCommand.change []) = .ok s.store.keyValues := rfl
  have hno : ∀ command ∈ ([] : List LoggedCommand), .commit command ∈ s.handlers :=
    fun _ h => absurd h List.not_mem_nil
  unfold ClientNode.handle
  cases hhandlers : s.handlers with
  | nil =>
      exact ⟨[], none, rfl, rfl, rfl, (by rw [hhandlers]; rfl), hno, rfl, (List.append_nil _).symm, (List.append_nil _).symm,
        hnone, Or.inl ⟨rfl, rfl⟩⟩
  | cons handler hs =>
      have htail : hs = s.handlers.tail := by
        rw [hhandlers]
        rfl
      have hself : ({ s with handlers := hs } : ClientNode) =
          { s with handlers := hs, applied := s.applied ++ [] } := by
        rw [List.append_nil]
      cases handler with
      | proposed isDel commitId status =>
          have hposted : .proposed isDel commitId status ∈ s.handlers := by
            rw [hhandlers]
            exact List.mem_cons_self
          cases isDel with
          | false =>
              simp only [RedisStore.setProposed]
              rw [hself]
              split
              · exact ⟨[], none, .quiet s.store rfl rfl hnone htail hno⟩
              · rename_i hfailed
                exact ⟨[], Handles.takes s.store rfl rfl hnone htail hno
                  (.proposed hposted fun hok => absurd hok hfailed)⟩
          | true =>
              simp only [RedisStore.delProposed]
              rw [hself]
              exact ⟨[], Handles.takes s.store rfl rfl hnone htail hno (.proposed hposted fun _ => rfl)⟩
      | commit command =>
          obtain ⟨res, hres⟩ := h command (by rw [hhandlers]; rfl)
          have hhead : ∀ c ∈ [command], .commit c ∈ s.handlers := fun c hc => by
            rw [hhandlers, List.mem_singleton.mp hc]
            exact List.mem_cons_self
          simp only [hres]
          have hmap := RedisStore.readCommit_keyValues hres
          unfold RedisStore.readCommit at hres
          cases hdecode : decodeCommit mp command.data with
          | none =>
              rw [hdecode] at hres
              obtain rfl := Except.ok.inj hres
              rw [Option.isSome_none, if_neg Bool.false_ne_true, hself]
              exact ⟨[], none, .quiet s.store rfl rfl hnone htail hno⟩
          | some commit =>
              rw [hdecode] at hres hmap
              obtain ⟨kv, hkv, hres⟩ := bind_ok hres
              have hone : s.store.keyValues.replay mp ([command].map LoggedCommand.change) = .ok kv := by
                change (KeyValues.applyChange mp s.store.keyValues (.command command.data) >>= fun kv => .ok kv) = _
                rw [KeyValues.applyChange, hdecode]
                simp only [hkv, bind, Except.bind]
              rw [Option.isSome_some, if_pos rfl]
              dsimp only at hres
              split at hres
              · rename_i hmine
                obtain rfl := Except.ok.inj hres
                exact ⟨[command], Handles.takes { s.store with keyValues := kv } rfl rfl hone htail hhead
                  (.commit List.mem_cons_self hdecode hmine rfl)⟩
              · obtain rfl := Except.ok.inj hres
                exact ⟨[command], none, .quiet { s.store with keyValues := kv } rfl rfl hone htail hhead⟩

end ClientNode

end RaftEtcd
