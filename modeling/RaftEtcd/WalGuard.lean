import RaftEtcd.WalReplay

/-! What stands between the bytes of a write-ahead log and the node that starts from them: the
checksum of each record, and the snapshot record that the reading must come by. A record counts as
processed once the loop hands it on, also if nothing comes of the reading. -/
namespace RaftEtcd

open Framing (scan)

deriving instance DecidableEq for Framing.Head

/-! ### The records that are handed on -/

section Loop
variable {σ : Type} {crc : Bytes → UInt32} {handle : WalType → Bytes → σ → Result σ}
variable {left : Bytes} {s : σ} {r : WalType × Bytes} {offset k : Nat}

/-- The loop that stands at an offset comes to another one and hands on the record there. -/
inductive HandsOn (crc : Bytes → UInt32) (handle : WalType → Bytes → σ → Result σ) :
    Nat → Bytes → σ → Nat → WalType × Bytes → Prop where
  | here {offset n : Nat} {left : Bytes} {s : σ} {r : WalType × Bytes} (read : readRecord crc left = .record r n) :
      HandsOn crc handle offset left s offset r
  | later {offset n k : Nat} {left : Bytes} {s s' : σ} {q r : WalType × Bytes}
      (read : readRecord crc left = .record q n) (handled : handle q.1 q.2 s = .ok s')
      (rest : HandsOn crc handle (offset + n) (left.drop n) s' k r) : HandsOn crc handle offset left s k r

/-- What is handed on was accepted where it stands. -/
theorem HandsOn.read (h : HandsOn crc handle offset left s k r) :
    offset ≤ k ∧ ∃ n, readRecord crc (left.drop (k - offset)) = .record r n := by
  induction h with
  | @here offset n left s r read =>
      refine ⟨Nat.le_refl _, n, ?_⟩
      rw [Nat.sub_self, List.drop_zero]
      exact read
  | @later offset n k left s s' q r read handled rest ih =>
      obtain ⟨hle, m, hread⟩ := ih
      rw [List.drop_drop, show n + (k - (offset + n)) = k - offset by omega] at hread
      exact ⟨by omega, m, hread⟩

/-- The records of the scan are handed on until one of them fails. -/
theorem handsOn_iff : (∃ k, HandsOn crc handle offset left s k r) ↔
    ∃ front back s', (scan (walReader crc) left).records = front ++ r :: back ∧
      handleAll handle front s = .ok s' := by
  induction left using Framing.scan_induction (R := walReader crc) generalizing offset s with
  | nil =>
      constructor
      · rintro ⟨k, h⟩
        cases h with
        | here read => cases read
        | later read handled rest => cases read
      · rintro ⟨front, back, s', hsplit, -⟩
        exact absurd hsplit.symm (by simp)
  | stop left why hne hhead =>
      rw [Framing.scan_stop hne hhead]
      constructor
      · rintro ⟨k, h⟩
        cases h with
        | here read => exact absurd (hhead.symm.trans read) (by simp)
        | later read handled rest => exact absurd (hhead.symm.trans read) (by simp)
      · rintro ⟨front, back, s', hsplit, -⟩
        exact absurd hsplit.symm (by simp)
  | record left q n hhead ih =>
      rw [Framing.scan_record hhead]
      constructor
      · rintro ⟨k, h⟩
        cases h with
        | here read =>
            obtain ⟨rfl, -⟩ : q = r ∧ _ := by simpa using hhead.symm.trans read
            exact ⟨[], _, s, rfl, rfl⟩
        | @later _ m _ _ _ s₁ q' _ read handled rest =>
            obtain ⟨rfl, rfl⟩ : q = q' ∧ n = m := by simpa using hhead.symm.trans read
            obtain ⟨front, back, s', hsplit, hall⟩ := ih.mp ⟨k, rest⟩
            refine ⟨q :: front, back, s', congrArg (q :: ·) hsplit, ?_⟩
            rw [handleAll, List.foldlM_cons, handled]
            exact hall
      · rintro ⟨front, back, s', hsplit, hall⟩
        cases front with
        | nil =>
            obtain ⟨rfl, -⟩ := List.cons.inj hsplit
            exact ⟨offset, .here hhead⟩
        | cons q' front =>
            obtain ⟨rfl, hrecords⟩ := List.cons.inj hsplit
            rw [handleAll, List.foldlM_cons] at hall
            obtain ⟨s₁, handled, hall⟩ := bind_ok hall
            obtain ⟨k, hrest⟩ := ih.mpr ⟨front, back, s', hrecords, hall⟩
            exact ⟨k, .later hhead handled hrest⟩

end Loop

section Reading
variable {mp : Msgpack} {crc : Bytes → UInt32} {start : WalSnapshot} {file : WalFile} {files : List WalFile}
variable {st : WalReading} {r : WalType × Bytes} {k : Nat}

/-- `read_all`, before these files and with what it has gathered, hands on the record at an offset of one. -/
inductive Wal.Handles (mp : Msgpack) (crc : Bytes → UInt32) (start : WalSnapshot) :
    List WalFile → WalReading → WalFile → Nat → WalType × Bytes → Prop where
  | here {file : WalFile} {files : List WalFile} {st : WalReading} {k : Nat} {r : WalType × Bytes}
      (loop : HandsOn crc (Wal.handleRecord mp start) 0 file.content { st with matchsnap := false } k r) :
      Handles mp crc start (file :: files) st file k r
  | later {file file' other : WalFile} {files : List WalFile} {st st' : WalReading} {k : Nat} {r : WalType × Bytes}
      (read : Wal.readFile mp crc start file st = .ok (file', st'))
      (rest : Handles mp crc start files st' other k r) : Handles mp crc start (file :: files) st other k r

/-- `read_all` processes the record at an offset of a file. -/
def Wal.Processes (mp : Msgpack) (crc : Bytes → UInt32) (w : Wal) (file : WalFile) (k : Nat)
    (r : WalType × Bytes) : Prop :=
  Wal.Handles mp crc w.start w.files { enti := w.enti } file k r

/-- The record is complete in the bytes from the offset on, with this header. -/
structure StandsAt (content : Bytes) (k : Nat) (r : WalType × Bytes) (record : WalRecord) : Prop where
  header : (WalRecord.ofBytes (content.drop k)).map Prod.fst = some record
  type : record.type = r.1
  complete : 8 + walRecordLen record ≤ (content.drop k).length
  data : r.2 = (content.drop (k + 8)).take (walRecordLen record)

theorem Wal.Handles.read (h : Wal.Handles mp crc start files st file k r) :
    file ∈ files ∧ ∃ n, readRecord crc (file.content.drop k) = .record r n := by
  induction h with
  | here loop => exact ⟨List.mem_cons_self, loop.read.2⟩
  | later read rest ih => exact ⟨List.mem_cons_of_mem _ ih.1, ih.2⟩

theorem WalRecord.ofBytes_drop {bs rest : Bytes} {record : WalRecord} (h : WalRecord.ofBytes bs = some (record, rest)) :
    rest = bs.drop 8 := by
  unfold WalRecord.ofBytes at h
  split at h
  · exact (Prod.mk.inj (Option.some.inj h)).2.symm
  · cases h

/-- Every record that `read_all` processes, of whatever type, stands complete in one of the files, and the
checksum in its header is that of its data, or 0, which stands for no checksum. -/
theorem processed_record_checked {w : Wal} (h : w.Processes mp crc file k r) :
    file ∈ w.files ∧ ∃ record, StandsAt file.content k r record ∧ (record.crc = 0 ∨ record.crc = crc r.2) := by
  obtain ⟨hmem, n, hread⟩ := Wal.Handles.read h
  refine ⟨hmem, ?_⟩
  obtain ⟨type, data⟩ := r
  obtain ⟨record, rest, hbytes, htype, -, hlen, hdata, hcrc, -⟩ := readRecord_record hread
  have hdrop := WalRecord.ofBytes_drop hbytes
  rw [List.drop_drop] at hdrop
  refine ⟨record, ⟨by rw [hbytes]; rfl, htype, ?_, hdrop ▸ hdata⟩, hcrc.imp_right Eq.symm⟩
  have := WalRecord.ofBytes_length hbytes
  omega

/-- The record at the start of a fresh log. -/
theorem processed_record_checked_fresh : ∃ record,
    StandsAt freshLog 0 (walSnapshotType, messagePack.pack (WalSnapshot.toObj {})) record ∧
      (record.crc = 0 ∨ record.crc = crc32 (messagePack.pack (WalSnapshot.toObj {}))) := by
  have hread : readRecord crc32 freshLog = .record (walSnapshotType, messagePack.pack (WalSnapshot.toObj {})) 11 := by
    decide +kernel
  have hproc : (Wal.open_ [WalFile.open_ freshLog 0 0] {}).Processes messagePack crc32 (WalFile.open_ freshLog 0 0) 0
      (walSnapshotType, messagePack.pack (WalSnapshot.toObj {})) := .here (.here hread)
  exact (processed_record_checked hproc).2

/-- A fresh log, and a hard state behind it whose header has 0 for a checksum. -/
def uncheckedLog : WalFile :=
  WalFile.open_ (freshLog ++ WalRecord.bytes { type := walStateType, len0 := 4, len1 := 0, len2 := 0, crc := 0 } ++
    messagePack.pack (HardState.toObj { term := 1 })) 0 0

/-- The hard state is handed out, and its data has another checksum than 0. -/
theorem unchecked_state_processed :
    (∃ w, (Wal.open_ [uncheckedLog] {}).readAll messagePack crc32 = .ok (w, { term := 1 }, [])) ∧
      (Wal.open_ [uncheckedLog] {}).Processes messagePack crc32 uncheckedLog 11
        (walStateType, messagePack.pack (HardState.toObj { term := 1 })) ∧
      ¬ ∃ record,
        StandsAt uncheckedLog.content 11 (walStateType, messagePack.pack (HardState.toObj { term := 1 })) record ∧
          record.crc = crc32 (messagePack.pack (HardState.toObj { term := 1 })) := by
  refine ⟨?_, ?_, ?_⟩
  · obtain ⟨⟨w, hs, ents⟩, hread, heq⟩ : ∃ out, (Wal.open_ [uncheckedLog] {}).readAll messagePack crc32 = .ok out ∧
        decide (out.2 = ({ term := 1 }, [])) = true := exists_ok_of_any (by decide +kernel)
    obtain ⟨rfl, rfl⟩ := Prod.mk.inj (of_decide_eq_true heq)
    exact ⟨w, hread⟩
  · have hfirst : readRecord crc32 uncheckedLog.content =
        .record (walSnapshotType, messagePack.pack (WalSnapshot.toObj {})) 11 := by decide +kernel
    have hsecond : readRecord crc32 (uncheckedLog.content.drop 11) =
        .record (walStateType, messagePack.pack (HardState.toObj { term := 1 })) 12 := by decide +kernel
    obtain ⟨st, hst, -⟩ : ∃ st, Wal.handleRecord messagePack {} walSnapshotType
        (messagePack.pack (WalSnapshot.toObj {})) {} = .ok st ∧ true = true := exists_ok_of_any (by decide +kernel)
    exact .here (.later hfirst hst (.here hsecond))
  · rintro ⟨record, hstands, hcrc⟩
    have hzero : record.crc = 0 := by
      have hbytes : ((WalRecord.ofBytes (uncheckedLog.content.drop 11)).map Prod.fst).map WalRecord.crc = some 0 := by
        decide +kernel
      rw [hstands.header] at hbytes
      exact Option.some.inj hbytes
    rw [hzero] at hcrc
    revert hcrc
    decide +kernel

end Reading

/-! ### The snapshot that the reading comes by -/

section Guard
variable {mp : Msgpack} {crc : Bytes → UInt32} {start : WalSnapshot} {file : WalFile} {files : List WalFile}
variable {r : WalType × Bytes} {rs : List (WalType × Bytes)} {st : WalReading} {k : Nat}

/-- The handler knows the type and can decode the data. -/
def Decodes (mp : Msgpack) (r : WalType × Bytes) : Prop :=
  if r.1 = walEntryType then ((mp.unpack r.2).bind (Entry.convert {})).isSome = true
  else if r.1 = walStateType then ((mp.unpack r.2).bind (HardState.convert {})).isSome = true
  else if r.1 = walSnapshotType then ((mp.unpack r.2).bind (WalSnapshot.convert {})).isSome = true
  else False

/-- The snapshot of a snapshot record. -/
def recordedSnapshot (mp : Msgpack) (r : WalType × Bytes) : Option WalSnapshot :=
  if r.1 = walSnapshotType then (mp.unpack r.2).bind (WalSnapshot.convert {}) else none

/-- `read_all` processes a record of the snapshot that it starts from. -/
def Wal.Matched (mp : Msgpack) (crc : Bytes → UInt32) (w : Wal) : Prop :=
  ∃ file k r, w.Processes mp crc file k r ∧ recordedSnapshot mp r = some w.start

/-- A snapshot record of the index stands among the records, and what stands in front of it can be decoded. -/
def MeetsIndex (mp : Msgpack) (index : Nat) (rs : List (WalType × Bytes)) : Prop :=
  ∃ front r back snap, rs = front ++ r :: back ∧ (∀ q ∈ front, Decodes mp q) ∧
    recordedSnapshot mp r = some snap ∧ snap.index = index

/-- From file to file, the records come to a snapshot record of the index or to the end of a file without
any snapshot record, and everything before that can be decoded. -/
def MeetsGuard (mp : Msgpack) (index : Nat) : List (List (WalType × Bytes)) → Prop
  | [] => False
  | rs :: files => MeetsIndex mp index rs ∨
      (∀ r ∈ rs, Decodes mp r) ∧ ((∀ r ∈ rs, r.1 ≠ walSnapshotType) ∨ MeetsGuard mp index files)

theorem member_isSome {α : Type} (os : List MessagePack.Obj) (i : Nat) (convert : MessagePack.Obj → Option α)
    (old old' : α) : (member os i convert old).isSome = (member os i convert old').isSome := by
  unfold member
  cases os[i]? <;> rfl

/-- Whether a hard state can be read does not depend on the one before it. -/
theorem unpack_state_isSome (mp : Msgpack) (data : Bytes) (old old' : HardState) :
    ((mp.unpack data).bind old.convert).isSome = ((mp.unpack data).bind old'.convert).isSome := by
  have hsome : ∀ (x : HardState) (os : List MessagePack.Obj), (x.convert (.array os)).isSome =
      ((member os 0 toUint x.term).isSome && (member os 1 toUint x.vote).isSome &&
        (member os 2 toUint x.commit).isSome) := by
    intro x os
    cases hterm : member os 0 toUint x.term <;> cases hvote : member os 1 toUint x.vote <;>
      cases hcommit : member os 2 toUint x.commit <;> simp [HardState.convert, hterm, hvote, hcommit]
  cases mp.unpack data with
  | none => rfl
  | some o =>
      rw [Option.bind_some, Option.bind_some]
      cases o with
      | array os => rw [hsome, hsome, member_isSome os 0 _ _ old'.term, member_isSome os 1 _ _ old'.vote,
          member_isSome os 2 _ _ old'.commit]
      | _ => rfl

theorem unpacked_none {α : Type} {a : Option α} (h : ¬ a.isSome) : Wal.unpacked a = .error "msgpack::type_error" := by
  rw [Option.not_isSome_iff_eq_none.mp h]
  rfl

/-- Where the handler cannot take a record apart, the failure is not one of those about the snapshot. -/
theorem handleRecord_undecoded (start : WalSnapshot) (st : WalReading) (h : ¬ Decodes mp r) :
    ∃ text, Wal.handleRecord mp start r.1 r.2 st = .error text ∧
      text ≠ "wal: snapshot not found" ∧ text ≠ "wal: snapshot mismatch" := by
  unfold Decodes at h
  unfold Wal.handleRecord Wal.handleRecordWalRecord
  by_cases hentry : r.1 = walEntryType
  · rw [if_pos hentry] at h
    simp only [if_pos hentry, unpacked_none h]
    exact ⟨_, rfl, by decide, by decide⟩
  · rw [if_neg hentry] at h
    simp only [if_neg hentry]
    by_cases hstate : r.1 = walStateType
    · rw [if_pos hstate] at h
      rw [unpack_state_isSome mp r.2 {} st.hs] at h
      simp only [if_pos hstate, unpacked_none h]
      exact ⟨_, rfl, by decide, by decide⟩
    · rw [if_neg hstate] at h
      simp only [if_neg hstate]
      by_cases hsnapshot : r.1 = walSnapshotType
      · rw [if_pos hsnapshot] at h
        simp only [if_pos hsnapshot, unpacked_none h]
        exact ⟨_, rfl, by decide, by decide⟩
      · simp only [if_neg hsnapshot]
        split
        · exact ⟨_, rfl, by decide, by decide⟩
        · exact ⟨_, rfl, by decide, by decide⟩

/-- A record that can be decoded is handled, unless its snapshot has the index of the start. -/
theorem handleRecord_decodes (st : WalReading) (h : Decodes mp r)
    (hother : ∀ snap, recordedSnapshot mp r = some snap → snap.index ≠ start.index) :
    ∃ st', Wal.handleRecord mp start r.1 r.2 st = .ok st' ∧
      st'.matchsnap = (st.matchsnap || r.1 == walSnapshotType) := by
  unfold Decodes at h
  unfold recordedSnapshot at hother
  unfold Wal.handleRecord Wal.handleRecordWalRecord
  by_cases hentry : r.1 = walEntryType
  · rw [if_pos hentry] at h
    obtain ⟨e, he⟩ := Option.isSome_iff_exists.mp h
    have htype : r.1 ≠ walSnapshotType := by rw [hentry]; decide
    simp only [if_pos hentry, he, if_neg htype]
    exact ⟨_, rfl, by simp [Wal.handleEntryRecord, htype]⟩
  · rw [if_neg hentry] at h
    simp only [if_neg hentry]
    by_cases hstate : r.1 = walStateType
    · rw [if_pos hstate] at h
      rw [unpack_state_isSome mp r.2 {} st.hs] at h
      obtain ⟨hs, hhs⟩ := Option.isSome_iff_exists.mp h
      have htype : r.1 ≠ walSnapshotType := by rw [hstate]; decide
      simp only [if_pos hstate, hhs, if_neg htype]
      exact ⟨_, rfl, by simp [htype]⟩
    · rw [if_neg hstate] at h
      simp only [if_neg hstate]
      by_cases hsnapshot : r.1 = walSnapshotType
      · rw [if_pos hsnapshot] at h hother
        obtain ⟨snap, hsnap⟩ := Option.isSome_iff_exists.mp h
        simp only [if_pos hsnapshot, hsnap, Wal.unpacked, Wal.handleSnapshotRecord, if_neg (hother snap hsnap), bind,
          Except.bind]
        exact ⟨_, rfl, by simp [hsnapshot]⟩
      · rw [if_neg hsnapshot] at h
        exact h.elim

theorem handleRecord_mismatch {snap : WalSnapshot} (h : recordedSnapshot mp r = some snap)
    (hindex : snap.index = start.index) (hterm : snap.term ≠ start.term) :
    Wal.handleRecord mp start r.1 r.2 st = .error "wal: snapshot mismatch" := by
  obtain ⟨type, data⟩ := r
  unfold recordedSnapshot at h
  split_ifs at h with htype
  obtain rfl : type = walSnapshotType := htype
  have hentry : walSnapshotType ≠ walEntryType := by decide
  have hstate : walSnapshotType ≠ walStateType := by decide
  simp only [Wal.handleRecord, Wal.handleRecordWalRecord, if_neg hentry, if_neg hstate, if_true, h, Wal.unpacked,
    Wal.handleSnapshotRecord, if_pos hindex, if_pos hterm, bind, Except.bind]

theorem meetsIndex_cons {index : Nat} : MeetsIndex mp index (r :: rs) ↔
    (∃ snap, recordedSnapshot mp r = some snap ∧ snap.index = index) ∨ Decodes mp r ∧ MeetsIndex mp index rs := by
  constructor
  · rintro ⟨front, q, back, snap, hsplit, hfront, hsnap, hindex⟩
    cases front with
    | nil =>
        obtain ⟨rfl, -⟩ := List.cons.inj hsplit
        exact Or.inl ⟨snap, hsnap, hindex⟩
    | cons p front =>
        obtain ⟨rfl, hrest⟩ := List.cons.inj hsplit
        rw [List.forall_mem_cons] at hfront
        exact Or.inr ⟨hfront.1, front, q, back, snap, hrest, hfront.2, hsnap, hindex⟩
  · rintro (⟨snap, hsnap, hindex⟩ | ⟨hdec, front, q, back, snap, rfl, hfront, hsnap, hindex⟩)
    · exact ⟨[], r, rs, snap, rfl, by simp, hsnap, hindex⟩
    · exact ⟨r :: front, q, back, snap, rfl, List.forall_mem_cons.mpr ⟨hdec, hfront⟩, hsnap, hindex⟩

theorem handleAll_decodes {st' : WalReading} (h : handleAll (Wal.handleRecord mp start) rs st = .ok st') :
    ∀ r ∈ rs, Decodes mp r := by
  induction rs generalizing st with
  | nil => simp
  | cons r rs ih =>
      rw [handleAll, List.foldlM_cons] at h
      obtain ⟨st₁, hone, hrest⟩ := bind_ok h
      refine List.forall_mem_cons.mpr ⟨?_, ih hrest⟩
      by_contra hnot
      obtain ⟨text, herror, -⟩ := handleRecord_undecoded start st hnot
      rw [herror] at hone
      cases hone

/-- Records that meet the index come to the snapshot of the start, or to the mismatch. -/
theorem handleAll_meets (st : WalReading) (h : MeetsIndex mp start.index rs) :
    handleAll (Wal.handleRecord mp start) rs st = .error "wal: snapshot mismatch" ∨
      ∃ front r back st', rs = front ++ r :: back ∧ handleAll (Wal.handleRecord mp start) front st = .ok st' ∧
        recordedSnapshot mp r = some start := by
  induction rs generalizing st with
  | nil =>
      obtain ⟨front, r, back, snap, hsplit, -⟩ := h
      exact absurd hsplit.symm (by simp)
  | cons r rs ih =>
      rw [handleAll, List.foldlM_cons]
      by_cases hmet : ∃ snap, recordedSnapshot mp r = some snap ∧ snap.index = start.index
      · obtain ⟨snap, hsnap, hindex⟩ := hmet
        by_cases hterm : snap.term = start.term
        · obtain rfl : snap = start := by
            cases snap
            cases start
            simp_all
          exact Or.inr ⟨[], r, rs, st, rfl, rfl, hsnap⟩
        · left
          rw [handleRecord_mismatch hsnap hindex hterm]
          rfl
      · obtain ⟨hdec, hrest⟩ := (meetsIndex_cons.mp h).resolve_left hmet
        obtain ⟨st₁, hone, -⟩ :=
          handleRecord_decodes st hdec fun snap hsnap hindex => hmet ⟨snap, hsnap, hindex⟩
        rw [hone]
        rcases ih st₁ hrest with herror | ⟨front, q, back, st', hsplit, hall, hsnap⟩
        · exact Or.inl herror
        · refine Or.inr ⟨r :: front, q, back, st', congrArg (r :: ·) hsplit, ?_, hsnap⟩
          rw [handleAll, List.foldlM_cons, hone]
          exact hall

/-- Records that do not meet the index are all handled, or one of them cannot be decoded. -/
theorem handleAll_misses (st : WalReading) (h : ¬ MeetsIndex mp start.index rs) :
    ((∃ r ∈ rs, ¬ Decodes mp r) ∧ ∃ text, handleAll (Wal.handleRecord mp start) rs st = .error text ∧
      text ≠ "wal: snapshot not found" ∧ text ≠ "wal: snapshot mismatch") ∨
    (∀ r ∈ rs, Decodes mp r) ∧ ∃ st', handleAll (Wal.handleRecord mp start) rs st = .ok st' ∧
      st'.matchsnap = (st.matchsnap || rs.any fun r => r.1 == walSnapshotType) := by
  induction rs generalizing st with
  | nil => exact Or.inr ⟨by simp, st, rfl, by simp⟩
  | cons r rs ih =>
      rw [meetsIndex_cons, not_or, not_and] at h
      rw [handleAll, List.foldlM_cons]
      by_cases hdec : Decodes mp r
      · obtain ⟨st₁, hone, hmatch⟩ :=
          handleRecord_decodes st hdec fun snap hsnap hindex => h.1 ⟨snap, hsnap, hindex⟩
        rw [hone]
        rcases ih st₁ (h.2 hdec) with ⟨⟨q, hq, hbad⟩, herror⟩ | ⟨hrest, st', hall, hmatch'⟩
        · exact Or.inl ⟨⟨q, List.mem_cons_of_mem _ hq, hbad⟩, herror⟩
        · refine Or.inr ⟨List.forall_mem_cons.mpr ⟨hdec, hrest⟩, st', hall, ?_⟩
          rw [hmatch', hmatch, List.any_cons, Bool.or_assoc]
      · obtain ⟨text, herror, htext⟩ := handleRecord_undecoded start st hdec
        refine Or.inl ⟨⟨r, List.mem_cons_self, hdec⟩, text, ?_, htext⟩
        rw [herror]
        rfl

/-- Reading these files processes a record of the start, or ends with one of the failures about the snapshot. -/
def Wal.Guarded (mp : Msgpack) (crc : Bytes → UInt32) (start : WalSnapshot) (files : List WalFile)
    (st : WalReading) : Prop :=
  (∃ file k r, Wal.Handles mp crc start files st file k r ∧ recordedSnapshot mp r = some start) ∨
    Wal.readFiles mp crc start files st = .error "wal: snapshot not found" ∨
    Wal.readFiles mp crc start files st = .error "wal: snapshot mismatch"

theorem handsOn_meets (h : HandsOn crc (Wal.handleRecord mp start) 0 file.content st k r)
    (hsnap : recordedSnapshot mp r = some start) : MeetsIndex mp start.index (processed crc file.content) := by
  obtain ⟨front, back, st', hsplit, hall⟩ := handsOn_iff.mp ⟨k, h⟩
  exact ⟨front, r, back, start, hsplit, handleAll_decodes hall, hsnap, rfl⟩

theorem readFiles_error {text : String} (h : Wal.readFile mp crc start file st = .error text) :
    Wal.readFiles mp crc start (file :: files) st = .error text := by
  rw [Wal.readFiles, h]
  rfl

theorem guarded_of_meets (h : MeetsIndex mp start.index (processed crc file.content)) :
    Wal.Guarded mp crc start (file :: files) st := by
  rcases handleAll_meets { st with matchsnap := false } h with herror | ⟨front, r, back, st', hsplit, hall, hsnap⟩
  · refine Or.inr (Or.inr (readFiles_error ?_))
    rw [readFile_processed, herror]
    rfl
  · obtain ⟨k, hands⟩ := handsOn_iff.mpr ⟨front, back, st', hsplit, hall⟩
    exact Or.inl ⟨file, k, r, .here hands, hsnap⟩

/-- A file whose records do not meet the index: the reading fails for another reason, or for the lack of a
snapshot record, or goes on. -/
theorem readFile_misses (st : WalReading) (h : ¬ MeetsIndex mp start.index (processed crc file.content)) :
    ((∃ r ∈ processed crc file.content, ¬ Decodes mp r) ∧ ∃ text, Wal.readFile mp crc start file st = .error text ∧
      text ≠ "wal: snapshot not found" ∧ text ≠ "wal: snapshot mismatch") ∨
    (∀ r ∈ processed crc file.content, Decodes mp r) ∧
      ((∀ r ∈ processed crc file.content, r.1 ≠ walSnapshotType) ∧
          Wal.readFile mp crc start file st = .error "wal: snapshot not found" ∨
        ¬ (∀ r ∈ processed crc file.content, r.1 ≠ walSnapshotType) ∧
          ∃ file' st', Wal.readFile mp crc start file st = .ok (file', st')) := by
  rw [readFile_processed]
  rcases handleAll_misses { st with matchsnap := false } h with ⟨hbad, text, herror, htext⟩ | ⟨hdec, st', hall, hmatch⟩
  · refine Or.inl ⟨hbad, text, ?_, htext⟩
    rw [herror]
    rfl
  · refine Or.inr ⟨hdec, ?_⟩
    rw [hall]
    by_cases hnone : ∀ r ∈ processed crc file.content, r.1 ≠ walSnapshotType
    · have hfalse : st'.matchsnap = false := by
        rw [hmatch, Bool.false_or, List.any_eq_false]
        intro r hr
        simp [hnone r hr]
      exact Or.inl ⟨hnone, by simp [Except.bind, hfalse]⟩
    · have htrue : st'.matchsnap = true := by
        have hsome := hnone
        push Not at hsome
        obtain ⟨r, hr, htype⟩ := hsome
        rw [hmatch, Bool.false_or, List.any_eq_true]
        exact ⟨r, hr, by simp [htype]⟩
      exact Or.inr ⟨hnone, file.afterRead crc, st', by simp [Except.bind, htrue]⟩

/-- Behind a file that was read without meeting the index, it is up to the other files. -/
theorem guarded_later {file' : WalFile} {st' : WalReading}
    (h : ¬ MeetsIndex mp start.index (processed crc file.content))
    (hread : Wal.readFile mp crc start file st = .ok (file', st')) :
    Wal.Guarded mp crc start (file :: files) st ↔ Wal.Guarded mp crc start files st' := by
  have hfails : ∀ text, Wal.readFiles mp crc start (file :: files) st = .error text ↔
      Wal.readFiles mp crc start files st' = .error text := by
    intro text
    rw [Wal.readFiles, hread]
    cases hrest : Wal.readFiles mp crc start files st' <;> simp [bind, Except.bind, hrest]
  rw [Wal.Guarded, Wal.Guarded, hfails, hfails]
  refine or_congr_left ?_
  constructor
  · rintro ⟨other, k, r, hhandles, hsnap⟩
    cases hhandles with
    | here loop => exact absurd (handsOn_meets loop hsnap) h
    | later read rest =>
        obtain ⟨-, rfl⟩ := Prod.mk.inj (Except.ok.inj (hread.symm.trans read))
        exact ⟨other, k, r, rest, hsnap⟩
  · rintro ⟨other, k, r, hhandles, hsnap⟩
    exact ⟨other, k, r, .later hread hhandles, hsnap⟩

theorem not_guarded_of_error {text : String} (h : ¬ MeetsIndex mp start.index (processed crc file.content))
    (herror : Wal.readFile mp crc start file st = .error text) (hfound : text ≠ "wal: snapshot not found")
    (hmismatch : text ≠ "wal: snapshot mismatch") : ¬ Wal.Guarded mp crc start (file :: files) st := by
  have hread : Wal.readFiles mp crc start (file :: files) st = .error text := readFiles_error herror
  rintro (⟨other, k, r, hhandles, hsnap⟩ | hfails | hfails)
  · cases hhandles with
    | here loop => exact h (handsOn_meets loop hsnap)
    | later read rest => cases herror.symm.trans read
  · exact hfound (Except.error.inj (hread.symm.trans hfails))
  · exact hmismatch (Except.error.inj (hread.symm.trans hfails))

/-- From any files on, and with whatever was gathered before them. -/
theorem guarded_iff (files : List WalFile) (st : WalReading) :
    Wal.Guarded mp crc start files st ↔
      MeetsGuard mp start.index (files.map fun file => processed crc file.content) := by
  induction files generalizing st with
  | nil =>
      constructor
      · rintro (⟨file, k, r, hhandles, -⟩ | hread | hread)
        · cases hhandles
        · cases hread
        · cases hread
      · exact False.elim
  | cons file files ih =>
      rw [List.map_cons, MeetsGuard]
      by_cases hmeets : MeetsIndex mp start.index (processed crc file.content)
      · exact iff_of_true (guarded_of_meets hmeets) (Or.inl hmeets)
      · rw [or_iff_right hmeets]
        rcases readFile_misses st hmeets with
          ⟨⟨q, hq, hbad⟩, text, herror, hfound, hmismatch⟩ | ⟨hdec, ⟨hnone, herror⟩ | ⟨hsome, file', st', hread⟩⟩
        · exact iff_of_false (not_guarded_of_error hmeets herror hfound hmismatch) fun h => hbad (h.1 q hq)
        · exact iff_of_true (Or.inr (Or.inl (readFiles_error herror))) ⟨hdec, Or.inl hnone⟩
        · rw [guarded_later hmeets hread, and_iff_right hdec, or_iff_right hsome]
          exact ih st'

/-- Whatever the files of the log contain and wherever the reading starts: it succeeds only if a record
of the snapshot it starts from was processed, and otherwise ends with one of the two failures, exactly if
the records come to a snapshot record of that index, or to the end of a file without any. -/
theorem read_all_requires_snapshot_iff (mp : Msgpack) (crc : Bytes → UInt32) (w : Wal) :
    ((∀ out, w.readAll mp crc = .ok out → w.Matched mp crc) ∧
      (¬ w.Matched mp crc → w.readAll mp crc = .error "wal: snapshot not found" ∨
        w.readAll mp crc = .error "wal: snapshot mismatch")) ↔
      MeetsGuard mp w.start.index (w.files.map fun file => processed crc file.content) := by
  have herror : ∀ text, w.readAll mp crc = .error text ↔
      Wal.readFiles mp crc w.start w.files { enti := w.enti } = .error text := by
    intro text
    rw [Wal.readAll]
    cases Wal.readFiles mp crc w.start w.files { enti := w.enti } <;> simp [bind, Except.bind]
  rw [← guarded_iff w.files { enti := w.enti }, Wal.Guarded, ← herror, ← herror]
  constructor
  · intro h
    by_cases hmatched : w.Matched mp crc
    · exact Or.inl hmatched
    · exact Or.inr (h.2 hmatched)
  · intro h
    refine ⟨fun out hout => ?_, fun hnot => h.resolve_left hnot⟩
    rcases h with hmatched | hnone | hnone
    · exact hmatched
    · cases hout.symm.trans hnone
    · cases hout.symm.trans hnone

/-- The fresh log, which records the empty snapshot only, is accepted as a continuation of snapshot 5. -/
theorem unrecorded_snapshot_accepted :
    (∃ out, (Wal.open_ [WalFile.open_ freshLog 0 0] { index := 5, term := 1 }).readAll messagePack crc32 = .ok out) ∧
      ¬ (Wal.open_ [WalFile.open_ freshLog 0 0] { index := 5, term := 1 }).Matched messagePack crc32 := by
  constructor
  · obtain ⟨out, hread, -⟩ : ∃ out, (Wal.open_ [WalFile.open_ freshLog 0 0] { index := 5, term := 1 }).readAll
        messagePack crc32 = .ok out ∧ true = true := exists_ok_of_any (by decide +kernel)
    exact ⟨out, hread⟩
  · rintro ⟨file, k, r, hproc, hsnap⟩
    cases hproc with
    | later read rest => cases rest
    | here loop =>
        obtain ⟨front, q, back, snap, hsplit, -, hq, hindex⟩ := handsOn_meets loop hsnap
        have hone : processed crc32 freshLog = [(walSnapshotType, messagePack.pack (WalSnapshot.toObj {}))] := by
          decide +kernel
        have hmem : q ∈ processed crc32 freshLog := by
          change processed crc32 freshLog = _ at hsplit
          rw [hsplit]
          simp
        rw [hone, List.mem_singleton] at hmem
        have hzero : recordedSnapshot messagePack q = some {} := by
          rw [hmem]
          decide +kernel
        obtain rfl := Option.some.inj (hzero.symm.trans hq)
        cases hindex

end Guard

end RaftEtcd
