import RaftEtcd.Cluster
import RaftEtcd.Msgpack

/-! `transport/peer.cpp` and `transport/raft_server.cpp`: how a message reaches another server. It
is packed, framed by a type byte and a length in network order, and unpacked into a fresh
message on the other side. -/
namespace RaftEtcd

open MessagePack (Obj bigEndian takeBytes takeNat)

def transportTypeStream : UInt8 := 1
def transportTypeDebug : UInt8 := 5

/-- `ClientSession::send`: the bytes it adds to its buffer, a `TransportMeta` and the data. -/
def sessionSend (type : UInt8) (data : Bytes) (len : Nat) : Bytes := type :: bigEndian 4 len ++ data.take len

/-- `PeerImpl::send`; the size goes through a `uint32_t`. -/
def peerSend (mp : Msgpack) (m : Message) : Bytes :=
  let sbuf := mp.pack m.toObj
  sessionSend transportTypeStream sbuf (sbuf.length % 2 ^ 32)

/-- `ServerSession::decode_message`: the message it hands on, if any. -/
def decodeMessage (mp : Msgpack) (type : UInt8) (data : Bytes) : Option Message :=
  if type = transportTypeStream then (mp.unpack data).bind (Message.convert {}) else none

/-- `start_read_meta` and `start_read_message` on the bytes that arrive. A read of no bytes ends
the session. -/
def serverReceive (mp : Msgpack) : Bytes → Option Message
  | [] => none
  | type :: stream =>
      match takeNat 4 stream with
      | none => none
      | some (len, stream) =>
          if len = 0 then none
          else
            match takeBytes len stream with
            | none => none
            | some (data, _) => decodeMessage mp type data

theorem serverReceive_peerSend (mp : Msgpack) (m : Message) :
    serverReceive mp (peerSend mp m) =
      if (mp.pack m.toObj).length % 2 ^ 32 = 0 then none
      else decodeMessage mp transportTypeStream
        ((mp.pack m.toObj).take ((mp.pack m.toObj).length % 2 ^ 32)) := by
  have hlen : ((mp.pack m.toObj).take ((mp.pack m.toObj).length % 2 ^ 32)).length =
      (mp.pack m.toObj).length % 2 ^ 32 := by
    rw [List.length_take]
    have := Nat.mod_le (mp.pack m.toObj).length (2 ^ 32)
    omega
  have htake := MessagePack.takeBytes_append ((mp.pack m.toObj).take ((mp.pack m.toObj).length % 2 ^ 32)) []
  rw [hlen, List.append_nil] at htake
  simp only [peerSend, sessionSend, List.cons_append, serverReceive]
  rw [MessagePack.takeNat_bigEndian 4 _ _ (by omega)]
  simp only [htake]

/-- The message arrives without its snapshot, if its length survives the cast. -/
theorem serverReceive_short {mp : Msgpack} {m : Message} (h : mp.Delimits m.toObj)
    (hlen : (mp.pack m.toObj).length < 2 ^ 32) :
    serverReceive mp (peerSend mp m) = some { m with snapshot := {} } := by
  have hpos : (mp.pack m.toObj).length ≠ 0 := fun hzero => h.nonempty (List.length_eq_zero_iff.mp hzero)
  rw [serverReceive_peerSend, Nat.mod_eq_of_lt hlen, if_neg hpos, List.take_length, decodeMessage, if_pos rfl,
    h.restores, Option.bind_some, Message.convert_toObj]

theorem serverReceive_long {mp : Msgpack} {m : Message} (h : mp.Delimits m.toObj)
    (hlen : 2 ^ 32 ≤ (mp.pack m.toObj).length) : serverReceive mp (peerSend mp m) = none := by
  have hcut := h.cut ((mp.pack m.toObj).length % 2 ^ 32) (by omega)
  rw [serverReceive_peerSend, decodeMessage, hcut]
  split_ifs <;> rfl

/-- A message arrives as it was sent exactly when it carries no snapshot and its packed form is
shorter than 4 GiB. -/
theorem message_round_trip (mp : Msgpack) (m : Message) (hlib : mp.Delimits m.toObj) :
    serverReceive mp (peerSend mp m) = some m ↔ m.snapshot = {} ∧ (mp.pack m.toObj).length < 2 ^ 32 := by
  constructor
  · intro hsame
    by_cases hlen : (mp.pack m.toObj).length < 2 ^ 32
    · rw [serverReceive_short hlib hlen] at hsame
      exact ⟨(congrArg Message.snapshot (Option.some.inj hsame)).symm, hlen⟩
    · rw [serverReceive_long hlib (by omega)] at hsame
      cases hsame
  · rintro ⟨hsnap, hlen⟩
    rw [serverReceive_short hlib hlen, ← hsnap]

/-! ### Messages of the machine types -/

theorem Message.fits {m : Message} (hto : m.to_ < 2 ^ 64) (hfrom : m.from_ < 2 ^ 64) (hterm : m.term < 2 ^ 64)
    (hlogTerm : m.logTerm < 2 ^ 64) (hindex : m.index < 2 ^ 64) (hcommit : m.commit < 2 ^ 64)
    (hhint : m.rejectHint < 2 ^ 64) (hcontext : m.context.length < 2 ^ 32) (hlen : m.entries.length < 2 ^ 32)
    (hents : ∀ e ∈ m.entries, e.term < 2 ^ 64 ∧ e.index < 2 ^ 64 ∧ e.data.length < 2 ^ 32) :
    MessagePack.Fits m.toObj := by
  have hentries : MessagePack.Fits (.array (m.entries.map Entry.toObj)) := by
    refine .array (by rwa [List.length_map]) ?_
    intro o ho
    obtain ⟨e, he, rfl⟩ := List.mem_map.mp ho
    obtain ⟨hterm, hindex, hdata⟩ := hents e he
    exact Entry.fits hterm hindex hdata
  refine fits_array (by simp) ?_
  simp only [List.forall_mem_cons]
  exact ⟨fits_uint8 _, .uint hto, .uint hfrom, .uint hterm, .uint hlogTerm, .uint hindex, hentries, .uint hcommit,
    .bool _, .uint hhint, .bin hcontext, by simp⟩

/-- An append with one entry. -/
def appendOne : Message :=
  { type := .msgApp, to_ := 2, from_ := 1, term := 2, logTerm := 1, index := 3, commit := 3
    entries := [{ term := 2, index := 4, data := [1, 2, 3] }] }

theorem message_round_trip_append :
    messagePack.Delimits appendOne.toObj ∧
      (serverReceive messagePack (peerSend messagePack appendOne) = some appendOne ↔
        appendOne.snapshot = {} ∧ (messagePack.pack appendOne.toObj).length < 2 ^ 32) := by
  have hlib : messagePack.Delimits appendOne.toObj := by
    refine messagePack_delimits (Message.fits ?_ ?_ ?_ ?_ ?_ ?_ ?_ ?_ ?_ ?_)
    all_goals decide
  exact ⟨hlib, message_round_trip messagePack appendOne hlib⟩

/-- The storage of a server that has compacted its log to a snapshot. -/
def compacted : MemoryStorage :=
  { hardState := { term := 1, vote := 1, commit := 3 }
    snapshot := { data := [7], metadata := { confState := { nodes := [1, 2] }, index := 3, term := 1 } }
    dummy := { index := 3, term := 1 } }

/-- It wins an election, and its peer answers that it has nothing. -/
def snapshotSender : Result RawNode := do
  let n ← RawNode.restartNode { serverSettings false with id := 1, storage := compacted }
  let (n, _) ← n.campaign
  let (n, _) ← n.step { type := .msgVoteResp, to_ := 1, from_ := 2, term := 2 }
  let (n, _) ← n.step { type := .msgAppResp, to_ := 1, from_ := 2, term := 2, index := 3, reject := true }
  .ok n

/-- The snapshot that the leader then sends arrives empty. -/
theorem snapshot_lost_in_transport :
    ∃ n, snapshotSender = .ok n ∧ ∃ m ∈ n.raft.msgs, m.type = .msgSnap ∧
      serverReceive messagePack (peerSend messagePack m) ≠ some m := by
  have hlost : (snapshotSender.toOption.map fun n => decide (∃ m ∈ n.raft.msgs, m.type = .msgSnap ∧
      serverReceive messagePack (peerSend messagePack m) ≠ some m)) = some true := by
    decide +kernel
  cases hrun : snapshotSender with
  | error e => rw [hrun] at hlost; cases hlost
  | ok n =>
      rw [hrun] at hlost
      exact ⟨n, rfl, of_decide_eq_true (Option.some.inj hlost)⟩

end RaftEtcd
