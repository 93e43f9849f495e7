import RaftEtcd.Transport

/-! `common/bytebuffer.cpp` and the sessions on both ends of a connection: frames go into a buffer
with 32-bit cursors, leave it in pieces as the writes complete, and are read from the socket as a
header and a payload. -/
namespace RaftEtcd

open MessagePack (bigEndian takeBytes takeNat)

def minBuffering : Nat := 4096

/-- The cursors are `uint32_t`, the size of the vector is not. Memory is taken to suffice. -/
structure ByteBuffer where
  reader : Nat := 0
  writer : Nat := 0
  buff : Bytes := List.replicate minBuffering 0

namespace ByteBuffer

/-- Copying beyond the end of the vector is an error. -/
def put (b : ByteBuffer) (data : Bytes) : Result ByteBuffer :=
  let left := (b.buff.length % 2 ^ 32 + 2 ^ 32 - b.writer) % 2 ^ 32
  let buff := if left < data.length then b.buff ++ List.replicate (b.buff.length + data.length) 0 else b.buff
  if b.writer + data.length > buff.length then .error "memcpy beyond the end of buff_"
  else
    .ok { b with
      buff := buff.take b.writer ++ data ++ buff.drop (b.writer + data.length)
      writer := (b.writer + data.length) % 2 ^ 32 }

def readable (b : ByteBuffer) : Bool := b.writer > b.reader

def readableBytes (b : ByteBuffer) : Result Nat :=
  if b.writer ≥ b.reader then .ok (b.writer - b.reader) else .error "assert(writer_ >= reader_)"

def mayShrinkToFit (b : ByteBuffer) : ByteBuffer :=
  if b.reader = b.writer then { b with reader := 0, writer := 0 } else b

def readBytes (b : ByteBuffer) (bytes : Nat) : Result ByteBuffer := do
  let readable ← b.readableBytes
  if readable ≥ bytes then .ok { b with reader := (b.reader + bytes) % 2 ^ 32 }.mayShrinkToFit
  else .error "assert(readable_bytes() >= bytes)"

def slice (b : ByteBuffer) : Bytes := (b.buff.drop b.reader).take (b.writer - b.reader)

/-- The cursors lie in the vector, with `content` between them. -/
structure Holds (b : ByteBuffer) (content : Bytes) : Prop where
  ordered : b.reader ≤ b.writer
  inside : b.writer ≤ b.buff.length
  small : b.writer < 2 ^ 32
  slice : b.slice = content

variable {b : ByteBuffer} {content : Bytes}

theorem Holds.length (h : b.Holds content) : content.length = b.writer - b.reader := by
  have hinside := h.inside
  rw [← h.slice, ByteBuffer.slice, List.length_take, List.length_drop]
  omega

theorem Holds.readableBytes (h : b.Holds content) : b.readableBytes = .ok content.length := by
  rw [ByteBuffer.readableBytes, if_pos h.ordered, h.length]

theorem Holds.readable (h : b.Holds content) : b.readable = !content.isEmpty := by
  have hlen := h.length
  rw [ByteBuffer.readable]
  cases content with
  | nil =>
      simp only [List.length_nil] at hlen
      simpa using by omega
  | cons c cs =>
      simp only [List.length_cons] at hlen
      simpa using by omega

/-- The 32-bit room is never more than the room there is. -/
theorem left_le {size writer : Nat} (hle : writer ≤ size) :
    (size % 2 ^ 32 + 2 ^ 32 - writer) % 2 ^ 32 ≤ size - writer := by
  omega

/-- What is put comes behind what is there, as long as the cursor does not wrap. -/
theorem Holds.put (h : b.Holds content) (data : Bytes) (hfit : b.writer + data.length < 2 ^ 32) :
    ∃ b', b.put data = .ok b' ∧ b'.Holds (content ++ data) ∧ b'.writer = b.writer + data.length := by
  have hordered := h.ordered
  have hinside := h.inside
  have hleft := left_le h.inside
  unfold ByteBuffer.put
  -- the vector after the resize has the same bytes in front and room for the data
  have hgrown : ∃ buff, (if (b.buff.length % 2 ^ 32 + 2 ^ 32 - b.writer) % 2 ^ 32 < data.length then
        b.buff ++ List.replicate (b.buff.length + data.length) 0 else b.buff) = buff ∧
      b.writer + data.length ≤ buff.length ∧ buff.take b.writer = b.buff.take b.writer := by
    refine ⟨_, rfl, ?_⟩
    split
    · rw [List.length_append, List.length_replicate, List.take_append_of_le_length hinside]
      exact ⟨by omega, rfl⟩
    · exact ⟨by omega, rfl⟩
  obtain ⟨buff, hbuff, hroom, hfront⟩ := hgrown
  simp only [hbuff]
  rw [if_neg (by omega), Nat.mod_eq_of_lt hfit]
  refine ⟨_, rfl, ⟨?_, ?_, hfit, ?_⟩, rfl⟩
  · simp only
    omega
  · simp only [List.length_append, List.length_take, List.length_drop]
    omega
  · have hslice : (b.buff.take b.writer).drop b.reader = content := by
      rw [List.drop_take]
      exact h.slice
    have hlen : (b.buff.take b.writer).length = b.writer := by
      rw [List.length_take]
      omega
    simp only [ByteBuffer.slice, hfront, List.append_assoc]
    rw [List.drop_append_of_le_length (by omega), hslice, ← List.append_assoc]
    have hall : (content ++ data).length = b.writer + data.length - b.reader := by
      rw [List.length_append, h.length]
      omega
    rw [← hall, List.take_left]

/-- Reading drops from the front; an emptied buffer starts over. -/
theorem Holds.readBytes {n : Nat} (h : b.Holds content) (hn : n ≤ content.length) :
    ∃ b', b.readBytes n = .ok b' ∧ b'.Holds (content.drop n) ∧
      b'.writer = if content.drop n = [] then 0 else b.writer := by
  have hlen := h.length
  have hordered := h.ordered
  have hinside := h.inside
  have hsmall := h.small
  unfold ByteBuffer.readBytes
  rw [h.readableBytes]
  change ∃ b', (if content.length ≥ n then _ else _) = Except.ok b' ∧ _
  rw [if_pos hn, Nat.mod_eq_of_lt (by omega)]
  refine ⟨_, rfl, ?_⟩
  have hslice : (b.buff.drop (b.reader + n)).take (b.writer - (b.reader + n)) = content.drop n := by
    rw [← h.slice, ByteBuffer.slice, List.drop_take, List.drop_drop]
    congr 1
    omega
  unfold ByteBuffer.mayShrinkToFit
  split
  · rename_i hall
    simp only at hall
    have hnil : content.drop n = [] := List.drop_eq_nil_of_le (by omega)
    rw [if_pos hnil, hnil]
    exact ⟨⟨le_rfl, Nat.zero_le _, by simp, by simp [ByteBuffer.slice]⟩, rfl⟩
  · rename_i hsome
    simp only at hsome
    have hne : content.drop n ≠ [] := by
      intro hnil
      have := List.drop_eq_nil_iff.mp hnil
      omega
    rw [if_neg hne]
    exact ⟨⟨by simp only; omega, hinside, hsmall, hslice⟩, rfl⟩

end ByteBuffer

/-! ### One end -/

structure ClientSession where
  buffer : ByteBuffer := {}
  connected : Bool := false
  /-- The calls of `async_write` that have not completed. -/
  writes : Nat := 0

namespace ClientSession

def startWrite (s : ClientSession) : ClientSession :=
  if s.buffer.readable then { s with writes := s.writes + 1 } else s

def send (s : ClientSession) (transportType : UInt8) (data : Bytes) : Result ClientSession := do
  let remaining ← s.buffer.readableBytes
  let buffer ← s.buffer.put (transportType :: bigEndian 4 data.length)
  let buffer ← buffer.put data
  let readable ← buffer.readableBytes
  if remaining + 5 + data.length ≠ readable then
    .error "assert(remaining + sizeof(TransportMeta) + len == buffer_.readable_bytes())"
  else
    let s := { s with buffer := buffer }
    .ok (if s.connected ∧ remaining = 0 then s.startWrite else s)

/-- The handler of `async_connect`, without an error. -/
def connect (s : ClientSession) : ClientSession := { s with connected := true }.startWrite

/-- The handler of `async_write`, without an error and with some bytes written. -/
def written (s : ClientSession) (bytes : Nat) : Result ClientSession := do
  let buffer ← s.buffer.readBytes bytes
  .ok { s with buffer := buffer, writes := s.writes - 1 }.startWrite

end ClientSession

/-- The arguments of one call of `send`. -/
structure Frame where
  type : UInt8
  data : Bytes
  deriving DecidableEq

def Frame.bytes (f : Frame) : Bytes := sessionSend f.type f.data f.data.length

theorem Frame.bytes_eq (f : Frame) : f.bytes = f.type :: bigEndian 4 f.data.length ++ f.data := by
  rw [Frame.bytes, sessionSend, List.take_length]

@[simp] theorem Frame.bytes_length (f : Frame) : f.bytes.length = 5 + f.data.length := by
  simp only [f.bytes_eq, List.cons_append, List.length_cons, List.length_append, MessagePack.bigEndian_length]
  omega

/-! ### The other end -/

/-- An integer as the machine has it in memory. -/
def littleEndian (bs : Bytes) : Nat := bs.foldr (fun b n => b.toNat + 256 * n) 0

/-- Whether `decode_message` comes to its last line, where the next header is read. -/
def decodeGoesOn (mp : Msgpack) (f : Frame) : Bool :=
  if f.type = transportTypeDebug then
    f.data.length = 8 ∧ (littleEndian (f.data.take 4) + 1) % 2 ^ 32 = littleEndian (f.data.drop 4)
  else if f.type = transportTypeStream then (decodeMessage mp f.type f.data).isSome
  else false

/-- `start_read_meta` and `start_read_message`: what `decode_message` finds, and what the socket
holds behind it. -/
def readFrame : Bytes → Option (Frame × Bytes)
  | [] => none
  | type :: stream => do
      let (len, stream) ← takeNat 4 stream
      if len = 0 then none
      else
        let (data, stream) ← takeBytes len stream
        some (⟨type, data⟩, stream)

/-- The frames that come to `decode_message` when these bytes arrive. -/
def serverReads (mp : Msgpack) : Nat → Bytes → List Frame
  | 0, _ => []
  | rounds + 1, stream =>
      match readFrame stream with
      | none => []
      | some (f, stream) => f :: if decodeGoesOn mp f then serverReads mp rounds stream else []

/-- The frames up to the first one that ends the session, this one included. -/
def heeded (mp : Msgpack) : List Frame → List Frame
  | [] => []
  | f :: fs => f :: if decodeGoesOn mp f then heeded mp fs else []

/-! ### What is read of what was written -/

section Reading

variable {f : Frame} {mp : Msgpack}

/-- What a call of `send` may be given: some bytes, as many as a `uint32_t` counts. -/
def Frame.Sendable (f : Frame) : Prop := f.data ≠ [] ∧ f.data.length < 2 ^ 32

theorem readFrame_bytes (h : f.Sendable) (more : Bytes) : readFrame (f.bytes ++ more) = some (f, more) := by
  have hpos : f.data.length ≠ 0 := fun hzero => h.1 (List.length_eq_zero_iff.mp hzero)
  rw [f.bytes_eq]
  simp only [List.cons_append, List.append_assoc, readFrame]
  rw [MessagePack.takeNat_bigEndian 4 _ _ (by have := h.2; omega)]
  simp only [bind, Option.bind]
  rw [if_neg hpos, MessagePack.takeBytes_append]

/-- A frame of which a part is missing is not read. -/
theorem readFrame_short (h : f.Sendable) {front : Bytes} (hfront : front <+: f.bytes)
    (hshort : front.length < f.bytes.length) : readFrame front = none := by
  rw [f.bytes_length] at hshort
  rw [f.bytes_eq, List.cons_append, ] at hfront
  cases front with
  | nil => rfl
  | cons type front =>
      simp only [List.length_cons] at hshort
      rw [List.cons_prefix_cons] at hfront
      simp only [readFrame, bind]
      by_cases hmeta : front.length < 4
      · have hnone : takeNat 4 front = none := by
          simp [takeNat, takeBytes, hmeta]
        rw [hnone, Option.bind_none]
      · obtain ⟨data, rfl⟩ : ∃ data, front = bigEndian 4 f.data.length ++ data := by
          have hboth := List.prefix_of_prefix_length_le (List.prefix_append _ _) hfront.2
            (by rw [MessagePack.bigEndian_length]; omega)
          obtain ⟨data, hdata⟩ := hboth
          exact ⟨data, hdata.symm⟩
        simp only [List.length_append, MessagePack.bigEndian_length] at hshort
        rw [MessagePack.takeNat_bigEndian 4 _ _ (by have := h.2; omega)]
        simp only [Option.bind_some]
        have hnone : takeBytes f.data.length data = none := by
          simp [takeBytes]
          omega
        rw [hnone, Option.bind_none, ite_self]

/-- Of a front of the frames the server reads those that are there as a whole, up to the one that
ends the session. -/
theorem serverReads_front (mp : Msgpack) {sent : List Frame} {taken left : Bytes} (h : ∀ f ∈ sent, f.Sendable)
    (hbytes : taken ++ left = sent.flatMap Frame.bytes) :
    ∃ whole rest, sent = whole ++ rest ∧ whole.flatMap Frame.bytes <+: taken ∧
      (∀ f ∈ rest.head?, taken.length < ((whole ++ [f]).flatMap Frame.bytes).length) ∧
      ∀ rounds, taken.length ≤ rounds → serverReads mp rounds taken = heeded mp whole := by
  induction sent generalizing taken with
  | nil =>
      obtain ⟨rfl, rfl⟩ := List.append_eq_nil_iff.mp hbytes
      refine ⟨[], [], rfl, List.nil_prefix, by simp, ?_⟩
      intro rounds _
      cases rounds <;> rfl
  | cons f sent ih =>
      have hf := h f List.mem_cons_self
      rw [List.flatMap_cons] at hbytes
      by_cases hshort : taken.length < f.bytes.length
      · have hfront : taken <+: f.bytes :=
          List.prefix_of_prefix_length_le ⟨left, hbytes⟩ (List.prefix_append _ _) (by omega)
        refine ⟨[], f :: sent, rfl, List.nil_prefix, by simpa using hshort, ?_⟩
        intro rounds _
        cases rounds with
        | zero => rfl
        | succ rounds => rw [serverReads, readFrame_short hf hfront hshort, heeded]
      · obtain ⟨taken, rfl⟩ : ∃ taken', taken = f.bytes ++ taken' := by
          obtain ⟨taken', htaken⟩ := List.prefix_of_prefix_length_le
            (List.prefix_append f.bytes (sent.flatMap Frame.bytes)) ⟨left, hbytes⟩ (by omega)
          exact ⟨taken', htaken.symm⟩
        rw [List.append_assoc] at hbytes
        obtain ⟨whole, rest, rfl, hwhole, hrest, hreads⟩ :=
          ih (fun g hg => h g (List.mem_cons_of_mem _ hg)) (List.append_cancel_left hbytes)
        refine ⟨f :: whole, rest, rfl, ?_, ?_, ?_⟩
        · rw [List.flatMap_cons, List.prefix_append_right_inj]
          exact hwhole
        · intro g hg
          have hless := hrest g hg
          rw [List.cons_append, List.flatMap_cons, List.length_append, List.length_append]
          omega
        · intro rounds hrounds
          rw [List.length_append, f.bytes_length] at hrounds
          cases rounds with
          | zero => omega
          | succ rounds => simp only [serverReads, readFrame_bytes hf, heeded, hreads rounds (by omega)]

theorem heeded_eq_self {fs : List Frame} (h : ∀ f ∈ fs, decodeGoesOn mp f) : heeded mp fs = fs := by
  induction fs with
  | nil => rfl
  | cons f fs ih =>
      rw [heeded, if_pos (h f List.mem_cons_self), ih fun g hg => h g (List.mem_cons_of_mem _ hg)]

end Reading

/-! ### A connection over time -/

/-- What a connection has seen: the calls of `send`, the bytes that its completed writes have taken
from the buffer, and how many bytes have come into the buffer since it was empty. -/
structure PeerStream where
  session : ClientSession := {}
  closed : Bool := false
  sent : List Frame := []
  taken : Bytes := []
  passed : Nat := 0

inductive PeerEvent where
  | send (f : Frame)
  | connected
  | written (bytes : Nat)

namespace PeerStream

/-- A completion without bytes makes the peer drop the session. -/
def step (p : PeerStream) : PeerEvent → Result PeerStream
  | .send f => do
      let session ← p.session.send f.type f.data
      .ok { p with session := session, sent := p.sent ++ [f], passed := p.passed + f.bytes.length }
  | .connected => .ok { p with session := p.session.connect }
  | .written 0 => .ok { p with closed := true }
  | .written (bytes + 1) => do
      let session ← p.session.written (bytes + 1)
      .ok { p with
        session := session
        taken := p.taken ++ p.session.buffer.slice.take (bytes + 1)
        passed := if session.buffer.readable then p.passed else 0 }

/-- What can happen to an open session: a call with data, as long as fewer than 4 GiB have passed
since the buffer was empty; the connection, once; the completion of a write, of any part. -/
def Allows (p : PeerStream) : PeerEvent → Prop
  | .send f => p.closed = false ∧ f.data ≠ [] ∧ p.passed + f.bytes.length < 2 ^ 32
  | .connected => p.closed = false ∧ p.session.connected = false
  | .written bytes => p.closed = false ∧ 0 < p.session.writes ∧ bytes ≤ p.session.buffer.slice.length

inductive Runs : PeerStream → Prop where
  | opened : Runs {}
  | step {p p' : PeerStream} {e : PeerEvent} (run : Runs p) (allows : p.Allows e) (step : p.step e = .ok p') :
      Runs p'

/-- The buffer holds what was sent and not yet taken, and a connected session with something to write
is writing, once. -/
structure Flows (p : PeerStream) : Prop where
  holds : p.session.buffer.Holds p.session.buffer.slice
  bytes : p.taken ++ p.session.buffer.slice = p.sent.flatMap Frame.bytes
  passed : p.session.buffer.writer = p.passed
  sendable : ∀ f ∈ p.sent, f.Sendable
  writes : p.session.writes = if p.session.connected ∧ p.session.buffer.slice ≠ [] then 1 else 0

theorem opened_flows : Flows {} where
  holds := ⟨le_rfl, by simp, by simp, rfl⟩
  bytes := rfl
  passed := rfl
  sendable := by simp
  writes := rfl

variable {p p' : PeerStream} {e : PeerEvent}

theorem startWrite_writes {s : ClientSession} {content : Bytes} (h : s.buffer.Holds content) :
    s.startWrite.writes = s.writes + if content ≠ [] then 1 else 0 := by
  unfold ClientSession.startWrite
  rw [h.readable]
  cases content <;> rfl

@[simp] theorem startWrite_buffer (s : ClientSession) : s.startWrite.buffer = s.buffer := by
  unfold ClientSession.startWrite
  split <;> rfl

@[simp] theorem startWrite_connected (s : ClientSession) : s.startWrite.connected = s.connected := by
  unfold ClientSession.startWrite
  split <;> rfl

theorem ok_bind {α β : Type} (a : α) (f : α → Result β) : (Except.ok a >>= f) = f a := rfl

theorem send_eq {s : ClientSession} {type : UInt8} {data : Bytes} {b b' : ByteBuffer} {n n' : Nat}
    (hread : s.buffer.readableBytes = .ok n) (hput : s.buffer.put (type :: bigEndian 4 data.length) = .ok b)
    (hput' : b.put data = .ok b') (hread' : b'.readableBytes = .ok n') (hcounts : n + 5 + data.length = n') :
    s.send type data =
      .ok (if s.connected ∧ n = 0 then { s with buffer := b' }.startWrite else { s with buffer := b' }) := by
  unfold ClientSession.send
  rw [hread, ok_bind, hput, ok_bind, hput', ok_bind, hread', ok_bind, if_neg (not_not.mpr hcounts)]

/-- A call of `send` puts one frame behind what is there, and starts a write unless one is on its way. -/
theorem send_spec {s : ClientSession} {f : Frame} {content : Bytes} (h : s.buffer.Holds content)
    (hfit : s.buffer.writer + f.bytes.length < 2 ^ 32) :
    ∃ s', s.send f.type f.data = .ok s' ∧ s'.buffer.Holds (content ++ f.bytes) ∧
      s'.buffer.writer = s.buffer.writer + f.bytes.length ∧ s'.connected = s.connected ∧
      s'.writes = s.writes + if s.connected ∧ content = [] then 1 else 0 := by
  -- the header is a list of five bytes, whatever they are
  obtain ⟨header, hheader⟩ : ∃ header, header = f.type :: bigEndian 4 f.data.length := ⟨_, rfl⟩
  have hmeta : header.length = 5 := by simp [hheader]
  have hall : content ++ header ++ f.data = content ++ f.bytes := by
    rw [f.bytes_eq, List.append_assoc, hheader]
  rw [f.bytes_length] at hfit
  obtain ⟨b, hput, hb, hwriter⟩ := h.put header (by omega)
  obtain ⟨b', hput', hb', hwriter'⟩ := hb.put f.data (by omega)
  rw [hall] at hb'
  rw [hheader] at hput
  have hcounts : content.length + 5 + f.data.length = (content ++ f.bytes).length := by
    rw [List.length_append, f.bytes_length]
    omega
  have hsend := send_eq h.readableBytes hput hput' hb'.readableBytes hcounts
  have hsome : content ++ f.bytes ≠ [] := by simp [f.bytes_eq]
  refine ⟨_, hsend, ?_⟩
  have hwriter'' : b'.writer = s.buffer.writer + f.bytes.length := by
    rw [f.bytes_length]
    omega
  simp only [List.length_eq_zero_iff]
  by_cases hidle : s.connected ∧ content = []
  · simp only [if_pos hidle]
    rw [startWrite_writes hb', if_pos hsome, startWrite_buffer, startWrite_connected]
    exact ⟨hb', hwriter'', rfl, rfl⟩
  · simp only [if_neg hidle]
    exact ⟨hb', hwriter'', trivial, rfl⟩

/-- The completion of a write takes its bytes from the front, and goes on with what is left. -/
theorem written_spec {s : ClientSession} {content : Bytes} {n : Nat} (h : s.buffer.Holds content)
    (hn : n ≤ content.length) :
    ∃ s', s.written n = .ok s' ∧ s'.buffer.Holds (content.drop n) ∧
      s'.buffer.writer = (if content.drop n = [] then 0 else s.buffer.writer) ∧ s'.connected = s.connected ∧
      s'.writes = s.writes - 1 + if content.drop n ≠ [] then 1 else 0 := by
  obtain ⟨b, hread, hb, hwriter⟩ := h.readBytes hn
  have hwritten : s.written n = .ok { s with buffer := b, writes := s.writes - 1 }.startWrite := by
    unfold ClientSession.written
    rw [hread]
    rfl
  refine ⟨_, hwritten, ?_⟩
  rw [startWrite_writes hb, startWrite_buffer, startWrite_connected]
  exact ⟨hb, hwriter, rfl, rfl⟩

/-- What may happen does happen: no assertion fails and nothing is copied out of bounds. -/
theorem Flows.step (h : p.Flows) (hallows : p.Allows e) : ∃ p', p.step e = .ok p' ∧ p'.Flows := by
  have hwrites := h.writes
  cases e with
  | send f =>
      obtain ⟨-, hdata, hfit⟩ := hallows
      have hsendable : f.Sendable := ⟨hdata, by rw [f.bytes_length] at hfit; omega⟩
      rw [← h.passed] at hfit
      obtain ⟨s, hsend, hholds, hwriter, hconnected, hnew⟩ := send_spec h.holds hfit
      refine ⟨{ p with session := s, sent := p.sent ++ [f], passed := p.passed + f.bytes.length }, ?_, ?_⟩
      · simp only [PeerStream.step, hsend]
        rfl
      · refine ⟨hholds.slice ▸ hholds, ?_, by rw [← h.passed]; exact hwriter, ?_, ?_⟩
        · simp only [hholds.slice, List.flatMap_append, ← List.append_assoc, h.bytes, List.flatMap_singleton]
        · intro g hg
          rcases List.mem_append.mp hg with hg | hg
          · exact h.sendable g hg
          · exact List.mem_singleton.mp hg ▸ hsendable
        · have hsome : p.session.buffer.slice ++ f.bytes ≠ [] := by simp [f.bytes_eq]
          simp only [hholds.slice, hconnected, hnew, hwrites]
          by_cases hc : p.session.connected <;> by_cases hs : p.session.buffer.slice = [] <;> simp [hc, hs, hsome]
          all_goals simp [f.bytes_eq]
  | connected =>
      obtain ⟨-, hnot⟩ := hallows
      refine ⟨{ p with session := p.session.connect }, rfl, ?_⟩
      have hbuffer : p.session.connect.buffer = p.session.buffer := by simp [ClientSession.connect]
      refine ⟨by rw [hbuffer]; exact h.holds, by rw [hbuffer]; exact h.bytes, by rw [hbuffer]; exact h.passed,
        h.sendable, ?_⟩
      rw [if_neg (by simp [hnot])] at hwrites
      simp only [ClientSession.connect]
      rw [startWrite_writes (s := { p.session with connected := true }) h.holds]
      simp [hwrites]
  | written n =>
      obtain ⟨-, hpending, hn⟩ := hallows
      cases n with
      | zero => exact ⟨{ p with closed := true }, rfl, h.holds, h.bytes, h.passed, h.sendable, h.writes⟩
      | succ n =>
          obtain ⟨s, hwritten, hholds, hwriter, hconnected, hnew⟩ := written_spec h.holds hn
          refine ⟨{ p with
            session := s
            taken := p.taken ++ p.session.buffer.slice.take (n + 1)
            passed := if s.buffer.readable then p.passed else 0 }, ?_, ?_⟩
          · simp only [PeerStream.step, hwritten]
            rfl
          · refine ⟨hholds.slice ▸ hholds, ?_, ?_, h.sendable, ?_⟩
            · simp only [hholds.slice, List.append_assoc, List.take_append_drop, h.bytes]
            · simp only [hwriter, hholds.readable, h.passed]
              cases hrest : p.session.buffer.slice.drop (n + 1) <;> rfl
            · have hon : p.session.connected ∧ p.session.buffer.slice ≠ [] := by
                by_contra hoff
                rw [if_neg hoff] at hwrites
                omega
              rw [if_pos hon] at hwrites
              simp only [hholds.slice, hconnected, hnew, hwrites, hon.1]
              simp

theorem Runs.flows (h : Runs p) : p.Flows := by
  induction h with
  | opened => exact opened_flows
  | step _ allows hstep ih =>
      obtain ⟨p', hok, hflows⟩ := ih.step allows
      rw [hok] at hstep
      cases hstep
      exact hflows

end PeerStream

end RaftEtcd
