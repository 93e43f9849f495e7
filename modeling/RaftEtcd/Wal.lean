import RaftEtcd.Lib.Framing
import RaftEtcd.Msgpack

/-! `wal/wal.h` and `wal/wal.cpp`: the write-ahead log. A record is a type byte, a length of
three bytes, a checksum of four bytes and the data, all little-endian. The checksum function is a
parameter; `crc32` below is the one that `compute_crc32` takes from the library. -/
namespace RaftEtcd

open MessagePack (Obj)
open Framing (Head Reader Scan)

abbrev WalType := UInt8

def walInvalidType : WalType := 0
def walEntryType : WalType := 1
def walStateType : WalType := 2
def walCrcType : WalType := 3
def walSnapshotType : WalType := 4

/-- `SegmentSizeBytes`. -/
def segmentSizeBytes : Nat := 64 * 1000 * 1000

/-- `MAX_WAL_RECORD_LEN`. -/
def maxWalRecordLen : Nat := 0x00FFFFFF

structure WalSnapshot where
  index : Nat := 0
  term : Nat := 0
  deriving DecidableEq, Repr

def WalSnapshot.toObj (s : WalSnapshot) : Obj := .array [.uint s.index, .uint s.term]

def WalSnapshot.convert (old : WalSnapshot) : Obj → Option WalSnapshot
  | .array os => do
      let index ← member os 0 toUint old.index
      let term ← member os 1 toUint old.term
      some { index, term }
  | _ => none

@[simp] theorem WalSnapshot.convert_toObj (old s : WalSnapshot) : old.convert s.toObj = some s := by
  simp [WalSnapshot.convert, WalSnapshot.toObj, toUint]

theorem WalSnapshot.fits {s : WalSnapshot} (hindex : s.index < 2 ^ 64) (hterm : s.term < 2 ^ 64) :
    MessagePack.Fits s.toObj := by
  refine fits_array (by simp) ?_
  simp only [List.forall_mem_cons]
  exact ⟨.uint hindex, .uint hterm, by simp⟩

/-! ### Records -/

/-- One bit of the reflected polynomial division. -/
def crc32Bit (c : UInt32) : UInt32 := if c &&& 1 = 1 then (c >>> 1) ^^^ 0xEDB88320 else c >>> 1

/-- `boost::crc_32_type`. -/
def crc32 (data : Bytes) : UInt32 :=
  data.foldl (fun c b => Nat.repeat crc32Bit 8 (c ^^^ b.toUInt32)) 0xFFFFFFFF ^^^ 0xFFFFFFFF

-- the check value of the algorithm: the digits 1 to 9
example : crc32 [0x31, 0x32, 0x33, 0x34, 0x35, 0x36, 0x37, 0x38, 0x39] = 0xCBF43926 := by decide +kernel

/-- The header of a record, `len` as its three bytes. -/
structure WalRecord where
  type : WalType
  len0 : UInt8
  len1 : UInt8
  len2 : UInt8
  crc : UInt32

/-- `WAL_Record_len`. -/
def walRecordLen (r : WalRecord) : Nat := r.len2.toNat * 2 ^ 16 + r.len1.toNat * 2 ^ 8 + r.len0.toNat

/-- `set_WAL_Record_len`: its parameter is a `uint32_t`, and a longer length is cut to the maximum. -/
def setWalRecordLen (r : WalRecord) (len : Nat) : WalRecord :=
  let len := min (len % 2 ^ 32) maxWalRecordLen
  { r with
    len2 := UInt8.ofNat (len / 2 ^ 16)
    len1 := UInt8.ofNat (len / 2 ^ 8)
    len0 := UInt8.ofNat len }

/-- A `uint32_t` in memory. -/
def uint32Bytes (x : UInt32) : Bytes :=
  [UInt8.ofNat x.toNat, UInt8.ofNat (x.toNat / 2 ^ 8), UInt8.ofNat (x.toNat / 2 ^ 16), UInt8.ofNat (x.toNat / 2 ^ 24)]

def uint32OfBytes (b0 b1 b2 b3 : UInt8) : UInt32 :=
  UInt32.ofNat (b3.toNat * 2 ^ 24 + b2.toNat * 2 ^ 16 + b1.toNat * 2 ^ 8 + b0.toNat)

/-- The eight bytes of a header. -/
def WalRecord.bytes (r : WalRecord) : Bytes := [r.type, r.len0, r.len1, r.len2] ++ uint32Bytes r.crc

/-- `memcpy` of a header; the caller has checked that eight bytes are left. -/
def WalRecord.ofBytes : Bytes → Option (WalRecord × Bytes)
  | t :: l0 :: l1 :: l2 :: c0 :: c1 :: c2 :: c3 :: rest =>
      some ({ type := t, len0 := l0, len1 := l1, len2 := l2, crc := uint32OfBytes c0 c1 c2 c3 }, rest)
  | _ => none

@[simp] theorem uint32OfBytes_bytes (x : UInt32) :
    uint32OfBytes (UInt8.ofNat x.toNat) (UInt8.ofNat (x.toNat / 2 ^ 8)) (UInt8.ofNat (x.toNat / 2 ^ 16))
      (UInt8.ofNat (x.toNat / 2 ^ 24)) = x := by
  have hlt := x.toNat_lt
  apply UInt32.toNat_inj.mp
  simp only [uint32OfBytes, UInt8.toNat_ofNat', UInt32.toNat_ofNat']
  omega

theorem WalRecord.ofBytes_bytes (r : WalRecord) (rest : Bytes) :
    WalRecord.ofBytes (r.bytes ++ rest) = some (r, rest) := by
  simp only [WalRecord.bytes, uint32Bytes, List.cons_append, List.nil_append, WalRecord.ofBytes,
    uint32OfBytes_bytes]

@[simp] theorem WalRecord.bytes_length (r : WalRecord) : r.bytes.length = 8 := rfl

theorem WalRecord.ofBytes_length {bs rest : Bytes} {r : WalRecord} (h : WalRecord.ofBytes bs = some (r, rest)) :
    bs.length = 8 + rest.length := by
  unfold WalRecord.ofBytes at h
  split at h
  · obtain ⟨-, rfl⟩ := Prod.mk.inj (Option.some.inj h)
    simp only [List.length_cons]
    omega
  · cases h

@[simp] theorem setWalRecordLen_type (r : WalRecord) (len : Nat) : (setWalRecordLen r len).type = r.type := rfl

@[simp] theorem setWalRecordLen_crc (r : WalRecord) (len : Nat) : (setWalRecordLen r len).crc = r.crc := rfl

@[simp] theorem walRecordLen_set (r : WalRecord) (len : Nat) :
    walRecordLen (setWalRecordLen r len) = min (len % 2 ^ 32) maxWalRecordLen := by
  have hle : min (len % 2 ^ 32) maxWalRecordLen ≤ 0x00FFFFFF := Nat.min_le_right _ _
  simp only [walRecordLen, setWalRecordLen, UInt8.toNat_ofNat']
  omega

/-! ### Files -/

/-- `WAL_File`: the file opened for appending, and what waits to be written. -/
structure WalFile where
  content : Bytes
  dataBuffer : Bytes := []
  seq : Nat := 0
  fileSize : Nat := 0

namespace WalFile

/-- The constructor. Where `ftell` stands in a file just opened for appending is up to the C
library, so the size it reports is an argument. -/
def open_ (content : Bytes) (seq ftell : Nat) : WalFile := { content := content, seq := seq, fileSize := ftell }

def truncate (f : WalFile) (offset : Nat) : WalFile :=
  { f with content := f.content.take offset, fileSize := offset, dataBuffer := [] }

/-- The bytes that `append` adds to the buffer. -/
def recordBytes (crc : Bytes → UInt32) (type : WalType) (data : Bytes) : Bytes :=
  (setWalRecordLen { type := type, len0 := 0, len1 := 0, len2 := 0, crc := crc data } data.length).bytes ++ data

def append (crc : Bytes → UInt32) (f : WalFile) (type : WalType) (data : Bytes) : WalFile :=
  { f with dataBuffer := f.dataBuffer ++ recordBytes crc type data }

def sync (f : WalFile) : WalFile :=
  if f.dataBuffer = [] then f
  else { f with content := f.content ++ f.dataBuffer, fileSize := f.fileSize + f.dataBuffer.length, dataBuffer := [] }

/-- Several records, one after the other. -/
def appendAll (crc : Bytes → UInt32) (f : WalFile) (rs : List (WalType × Bytes)) : WalFile :=
  rs.foldl (fun f r => f.append crc r.1 r.2) f

end WalFile

/-! ### The loop of `read_all` -/

/-- How the loop ends before the end of the data. -/
inductive Leave where
  | shortRecord
  | invalidType
  | shortData
  | badCrc
  deriving DecidableEq, Repr

/-- Every way out but the invalid type cuts the file in front of the record. -/
def Leave.truncates : Leave → Bool
  | .invalidType => false
  | _ => true

/-- One round of the loop on what is left of the data: the record it hands on with its size. -/
def readRecord (crc : Bytes → UInt32) (left : Bytes) : Head (WalType × Bytes) Leave :=
  match WalRecord.ofBytes left with
  | none => .stop .shortRecord
  | some (record, rest) =>
      if record.type = walInvalidType then .stop .invalidType
      else if rest.length < walRecordLen record then .stop .shortData
      else if record.crc ≠ 0 ∧ crc (rest.take (walRecordLen record)) ≠ record.crc then .stop .badCrc
      else .record (record.type, rest.take (walRecordLen record)) (8 + walRecordLen record)

/-- The rounds from an offset on. A record is handled as soon as it is read, so a fatal one ends
the process before the rest of the file is looked at. -/
def readRounds {σ : Type} (crc : Bytes → UInt32) (handle : WalType → Bytes → σ → Result σ) :
    Nat → Nat → Bytes → WalFile → σ → Result (WalFile × σ)
  | _, _, [], file, s => .ok (file, s)
  | 0, _, _ :: _, file, s => .ok (file, s)
  | fuel + 1, offset, b :: bs, file, s =>
      match readRecord crc (b :: bs) with
      | .stop why => .ok (if why.truncates then file.truncate offset else file, s)
      | .record (type, data) n => do
          let s ← handle type data s
          readRounds crc handle fuel (offset + n) ((b :: bs).drop n) file s

/-- What `read_all` gathers. A slot of `ents` without an entry is a null pointer. -/
structure WalReading where
  hs : HardState := {}
  ents : List (Option Entry) := []
  enti : Nat := 0
  matchsnap : Bool := false

/-- `std::vector::resize` of a vector of pointers. -/
def resizePtrs {α : Type*} (n : Nat) (ents : List (Option α)) : List (Option α) :=
  ents.take n ++ List.replicate (n - ents.length) none

/-- `WAL`; `start_` is where reading begins. -/
structure Wal where
  state : HardState := {}
  start : WalSnapshot := {}
  enti : Nat := 0
  files : List WalFile := []

namespace Wal

/-- The file that `create` leaves: one snapshot record at the start of the log. -/
def create (mp : Msgpack) (crc : Bytes → UInt32) : Bytes :=
  ((WalFile.open_ [] 0 0).append crc walSnapshotType (mp.pack (WalSnapshot.toObj {}))).sync.content

def open_ (files : List WalFile) (snap : WalSnapshot) : Wal := { start := snap, files := files }

/-- An exception of msgpack is not caught. -/
def unpacked {α : Type} (a : Option α) : Result α :=
  match a with
  | none => .error "msgpack::type_error"
  | some a => .ok a

/-- An entry above the snapshot takes its place, and everything behind that place goes. -/
def placeEntry (start : WalSnapshot) (ents : List (Option Entry)) (entry : Entry) : List (Option Entry) :=
  if entry.index > start.index then resizePtrs (entry.index - start.index - 1) ents ++ [some entry] else ents

def handleEntryRecord (start : WalSnapshot) (entry : Entry) (st : WalReading) : WalReading :=
  { st with ents := placeEntry start st.ents entry, enti := entry.index }

def handleSnapshotRecord (start snap : WalSnapshot) (st : WalReading) : Result WalReading :=
  if snap.index = start.index then
    if snap.term ≠ start.term then .error "wal: snapshot mismatch" else .ok { st with matchsnap := true }
  else .ok st

/-- `handle_record_wal_record`. -/
def handleRecordWalRecord (mp : Msgpack) (start : WalSnapshot) (type : WalType) (data : Bytes) (st : WalReading) :
    Result WalReading :=
  if type = walEntryType then do
    let entry ← unpacked ((mp.unpack data).bind (Entry.convert {}))
    .ok (handleEntryRecord start entry st)
  else if type = walStateType then do
    let hs ← unpacked ((mp.unpack data).bind st.hs.convert)
    .ok { st with hs := hs }
  else if type = walSnapshotType then do
    let snap ← unpacked ((mp.unpack data).bind (WalSnapshot.convert {}))
    handleSnapshotRecord start snap st
  else if type = walCrcType then .error "wal crc type"
  else .error "invalid record type %d"

/-- The body of the loop for a record, with the assignment behind the call. -/
def handleRecord (mp : Msgpack) (start : WalSnapshot) (type : WalType) (data : Bytes) (st : WalReading) :
    Result WalReading := do
  let st ← handleRecordWalRecord mp start type data st
  .ok (if type = walSnapshotType then { st with matchsnap := true } else st)

/-- One file of `read_all`. -/
def readFile (mp : Msgpack) (crc : Bytes → UInt32) (start : WalSnapshot) (file : WalFile) (st : WalReading) :
    Result (WalFile × WalReading) := do
  let data := file.content
  let (file, st) ← readRounds crc (handleRecord mp start) data.length 0 data file { st with matchsnap := false }
  if st.matchsnap then .ok (file, st) else .error "wal: snapshot not found"

def readFiles (mp : Msgpack) (crc : Bytes → UInt32) (start : WalSnapshot) :
    List WalFile → WalReading → Result (List WalFile × WalReading)
  | [], st => .ok ([], st)
  | file :: files, st => do
      let (file, st) ← readFile mp crc start file st
      let (files, st) ← readFiles mp crc start files st
      .ok (file :: files, st)

/-- Returns the log ready for appending with the hard state and the entries it read. -/
def readAll (mp : Msgpack) (crc : Bytes → UInt32) (w : Wal) : Result (Wal × HardState × List (Option Entry)) := do
  let (files, st) ← readFiles mp crc w.start w.files { enti := w.enti }
  .ok ({ w with files := files, enti := st.enti }, st.hs, st.ents)

/-! ### Saving -/

/-- A change of `files_.back()`; there always is one. -/
def modifyBack (w : Wal) (f : WalFile → WalFile) : Wal :=
  match w.files.getLast? with
  | none => w
  | some file => { w with files := w.files.dropLast ++ [f file] }

def backSize (w : Wal) : Nat := (w.files.getLast?.map WalFile.fileSize).getD 0

def saveEntry (mp : Msgpack) (crc : Bytes → UInt32) (w : Wal) (entry : Entry) : Wal :=
  { w.modifyBack (fun f => f.append crc walEntryType (mp.pack entry.toObj)) with enti := entry.index }

def saveHardState (mp : Msgpack) (crc : Bytes → UInt32) (w : Wal) (hs : HardState) : Wal :=
  if hs.isEmptyState then w
  else { w.modifyBack (fun f => f.append crc walStateType (mp.pack hs.toObj)) with state := hs }

def cut (w : Wal) : Wal := w.modifyBack WalFile.sync

def save (mp : Msgpack) (crc : Bytes → UInt32) (w : Wal) (hs : HardState) (ents : List Entry) : Wal :=
  if hs.isEmptyState && ents.isEmpty then w
  else
    let mustSync := isMustSync hs w.state ents.length
    let w := ents.foldl (saveEntry mp crc) w
    let w := w.saveHardState mp crc hs
    if w.backSize < segmentSizeBytes then
      if mustSync then w.modifyBack WalFile.sync else w
    else w.cut

def saveSnapshot (mp : Msgpack) (crc : Bytes → UInt32) (w : Wal) (snap : WalSnapshot) : Wal :=
  let w := w.modifyBack fun f => f.append crc walSnapshotType (mp.pack snap.toObj)
  let w := if w.enti < snap.index then { w with enti := snap.index } else w
  w.modifyBack WalFile.sync

end Wal

end RaftEtcd
