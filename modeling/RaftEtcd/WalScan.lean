import RaftEtcd.Wal

/-! The bytes of a write-ahead log: what the loop of `read_all` finds in a file that was written
record by record, and what a log that is appended to after reading looks like to the next
reader. -/
namespace RaftEtcd

open Framing (Head Reader Scan Reads scan)

/-! ### The loop as a reader of framed records -/

theorem readRecord_record {crc : Bytes → UInt32} {left data : Bytes} {type : WalType} {n : Nat}
    (h : readRecord crc left = .record (type, data) n) :
    ∃ record rest, WalRecord.ofBytes left = some (record, rest) ∧ record.type = type ∧ type ≠ walInvalidType ∧
      walRecordLen record ≤ rest.length ∧ data = rest.take (walRecordLen record) ∧
      (record.crc = 0 ∨ crc data = record.crc) ∧ n = 8 + walRecordLen record := by
  unfold readRecord at h
  split at h
  · cases h
  · rename_i record rest hbytes
    split_ifs at h with htype hlen hcrc
    cases h
    refine ⟨record, rest, hbytes, rfl, htype, by omega, rfl, ?_, rfl⟩
    by_contra hbad
    rw [not_or] at hbad
    exact hcrc hbad

theorem readRecord_of_bytes {crc : Bytes → UInt32} {left rest : Bytes} {record : WalRecord}
    (hbytes : WalRecord.ofBytes left = some (record, rest)) (htype : record.type ≠ walInvalidType)
    (hlen : walRecordLen record ≤ rest.length)
    (hcrc : record.crc = 0 ∨ crc (rest.take (walRecordLen record)) = record.crc) :
    readRecord crc left = .record (record.type, rest.take (walRecordLen record)) (8 + walRecordLen record) := by
  have hgood : ¬ (record.crc ≠ 0 ∧ crc (rest.take (walRecordLen record)) ≠ record.crc) := by tauto
  simp only [readRecord, hbytes, if_neg htype, if_neg (Nat.not_lt.mpr hlen), if_neg hgood]

theorem readRecord_fits {crc : Bytes → UInt32} {left : Bytes} {r : WalType × Bytes} {n : Nat}
    (h : readRecord crc left = .record r n) : 0 < n ∧ n ≤ left.length := by
  obtain ⟨type, data⟩ := r
  obtain ⟨record, rest, hbytes, -, -, hlen, -, -, rfl⟩ := readRecord_record h
  have := WalRecord.ofBytes_length hbytes
  omega

/-- The decision of a round rests on the header and on the bytes that its length covers. -/
theorem readRecord_decided {crc : Bytes → UInt32} {left : Bytes} {r : WalType × Bytes} {n : Nat} (more : Bytes)
    (h : readRecord crc left = .record r n) : readRecord crc (left.take n ++ more) = .record r n := by
  obtain ⟨type, data⟩ := r
  obtain ⟨record, rest, hbytes, rfl, htype, hlen, rfl, hcrc, rfl⟩ := readRecord_record h
  have hcut : WalRecord.ofBytes (left.take (8 + walRecordLen record) ++ more) =
      some (record, rest.take (walRecordLen record) ++ more) := by
    unfold WalRecord.ofBytes at hbytes
    split at hbytes
    · obtain ⟨rfl, rfl⟩ := Prod.mk.inj (Option.some.inj hbytes)
      simp only [Nat.add_comm 8, List.take_succ_cons, List.cons_append, WalRecord.ofBytes]
    · cases hbytes
  have htake : (rest.take (walRecordLen record) ++ more).take (walRecordLen record) =
      rest.take (walRecordLen record) := by
    rw [List.take_append_of_le_length (by rw [List.length_take]; omega), List.take_take, Nat.min_self]
  rw [readRecord_of_bytes hcut htype (by rw [List.length_append, List.length_take]; omega) (by rwa [htake]), htake]

def walReader (crc : Bytes → UInt32) : Reader UInt8 (WalType × Bytes) Leave where
  head := readRecord crc
  fits h := readRecord_fits h
  decided more h := readRecord_decided more h

theorem walReader_head (crc : Bytes → UInt32) : (walReader crc).head = readRecord crc := rfl

/-- The file as the loop leaves it when it stops at an offset. -/
def leaveFile (file : WalFile) (offset : Nat) : Option Leave → WalFile
  | some why => if why.truncates then file.truncate offset else file
  | none => file

/-- The file after the whole loop. -/
def WalFile.afterRead (crc : Bytes → UInt32) (file : WalFile) : WalFile :=
  leaveFile file (file.content.length - (scan (walReader crc) file.content).rest.length)
    (scan (walReader crc) file.content).stop

/-- The records in order, each handled before the next one is read. -/
def handleAll {σ : Type} (handle : WalType → Bytes → σ → Result σ) (rs : List (WalType × Bytes)) (s : σ) : Result σ :=
  rs.foldlM (fun s r => handle r.1 r.2 s) s

/-- The loop handles the records of the scan and leaves the file where the scan stops. -/
theorem readRounds_scan {σ : Type} (crc : Bytes → UInt32) (handle : WalType → Bytes → σ → Result σ)
    (fuel offset : Nat) (left : Bytes) (file : WalFile) (s : σ) (hfuel : left.length ≤ fuel) :
    readRounds crc handle fuel offset left file s =
      (handleAll handle (scan (walReader crc) left).records s).map fun s =>
        (leaveFile file (offset + (left.length - (scan (walReader crc) left).rest.length))
          (scan (walReader crc) left).stop, s) := by
  induction left using Framing.scan_induction (R := walReader crc) generalizing fuel offset s with
  | nil => cases fuel <;> rfl
  | stop left why hne hhead =>
      obtain ⟨b, bs, rfl⟩ := List.exists_cons_of_ne_nil hne
      obtain ⟨fuel, rfl⟩ : ∃ f, fuel = f + 1 := ⟨fuel - 1, by simp only [List.length_cons] at hfuel; omega⟩
      have hread : readRecord crc (b :: bs) = .stop why := hhead
      rw [Framing.scan_stop hne hhead]
      simp only [readRounds, hread, Nat.sub_self, Nat.add_zero]
      rfl
  | record left r n hhead ih =>
      obtain ⟨b, bs, rfl⟩ := List.exists_cons_of_ne_nil (Reader.record_ne_nil hhead)
      obtain ⟨fuel, rfl⟩ : ∃ f, fuel = f + 1 := ⟨fuel - 1, by simp only [List.length_cons] at hfuel; omega⟩
      have hread : readRecord crc (b :: bs) = .record (r.1, r.2) n := hhead
      have hfits := (walReader crc).fits hhead
      have hdrop : ((b :: bs).drop n).length = (b :: bs).length - n := List.length_drop
      obtain ⟨front, hfront, -⟩ := (Framing.scan_reads (R := walReader crc) ((b :: bs).drop n)).front
      have hrest : (scan (walReader crc) ((b :: bs).drop n)).rest.length ≤ ((b :: bs).drop n).length := by
        have := congrArg List.length hfront
        rw [List.length_append] at this
        omega
      rw [Framing.scan_record hhead]
      simp only [readRounds, hread, handleAll, Scan.cons, List.foldlM_cons]
      cases hone : handle r.1 r.2 s with
      | error e => rfl
      | ok s' =>
          have hgo := ih fuel (offset + n) s' (by rw [hdrop]; omega)
          show readRounds crc handle fuel (offset + n) ((b :: bs).drop n) file s' = _
          rw [hgo]
          have hoff : offset + n + (((b :: bs).drop n).length - (scan (walReader crc) ((b :: bs).drop n)).rest.length) =
              offset + ((b :: bs).length - (scan (walReader crc) ((b :: bs).drop n)).rest.length) := by
            omega
          rw [hoff]
          rfl

/-! ### What was written -/

@[simp] theorem WalFile.sync_content (f : WalFile) : f.sync.content = f.content ++ f.dataBuffer := by
  unfold WalFile.sync
  split_ifs with h
  · rw [h, List.append_nil]
  · rfl

theorem WalFile.appendAll_content (crc : Bytes → UInt32) (f : WalFile) (rs : List (WalType × Bytes)) :
    (f.appendAll crc rs).content = f.content ∧
      (f.appendAll crc rs).dataBuffer = f.dataBuffer ++ rs.flatMap fun r => WalFile.recordBytes crc r.1 r.2 := by
  induction rs generalizing f with
  | nil => exact ⟨rfl, (List.append_nil _).symm⟩
  | cons r rs ih =>
      obtain ⟨hcontent, hbuffer⟩ := ih (f.append crc r.1 r.2)
      refine ⟨hcontent, hbuffer.trans ?_⟩
      simp only [WalFile.append, List.flatMap_cons, List.append_assoc]

theorem WalFile.appendAll_sync_content (crc : Bytes → UInt32) (f : WalFile) (rs : List (WalType × Bytes)) :
    (f.appendAll crc rs).sync.content =
      f.content ++ f.dataBuffer ++ rs.flatMap fun r => WalFile.recordBytes crc r.1 r.2 := by
  obtain ⟨hcontent, hbuffer⟩ := f.appendAll_content crc rs
  rw [WalFile.sync_content, hcontent, hbuffer, List.append_assoc]

/-- A record whose type ends no loop and whose length its header can hold. -/
def ShortRecord (r : WalType × Bytes) : Prop := r.1 ≠ walInvalidType ∧ r.2.length ≤ maxWalRecordLen

instance (r : WalType × Bytes) : Decidable (ShortRecord r) := inferInstanceAs (Decidable (_ ∧ _))

/-- The header that `append` writes and the data behind it. -/
theorem ofBytes_recordBytes (crc : Bytes → UInt32) (type : WalType) (data more : Bytes) :
    ∃ record, WalRecord.ofBytes (WalFile.recordBytes crc type data ++ more) = some (record, data ++ more) ∧
      record.type = type ∧ record.crc = crc data ∧
      walRecordLen record = min (data.length % 2 ^ 32) maxWalRecordLen := by
  refine ⟨setWalRecordLen { type := type, len0 := 0, len1 := 0, len2 := 0, crc := crc data } data.length, ?_,
    rfl, rfl, walRecordLen_set _ _⟩
  rw [WalFile.recordBytes, List.append_assoc]
  exact WalRecord.ofBytes_bytes _ _

theorem ShortRecord.len {r : WalType × Bytes} (h : ShortRecord r) :
    min (r.2.length % 2 ^ 32) maxWalRecordLen = r.2.length := by
  have hle : r.2.length ≤ 0x00FFFFFF := h.2
  unfold maxWalRecordLen
  omega

theorem ShortRecord.read {crc : Bytes → UInt32} {r : WalType × Bytes} (h : ShortRecord r) (more : Bytes) :
    (walReader crc).head (WalFile.recordBytes crc r.1 r.2 ++ more) =
      .record r (WalFile.recordBytes crc r.1 r.2).length := by
  obtain ⟨record, hbytes, htype, hcrc, hlen⟩ := ofBytes_recordBytes crc r.1 r.2 more
  rw [h.len] at hlen
  have htake : (r.2 ++ more).take (walRecordLen record) = r.2 := by rw [hlen, List.take_left]
  rw [walReader_head, readRecord_of_bytes hbytes (htype ▸ h.1) (by rw [hlen, List.length_append]; omega)
    (.inr (by rw [htake, hcrc])), htake, htype, hlen, WalFile.recordBytes, List.length_append,
    WalRecord.bytes_length]

/-- Whatever the loop makes of a record that is too long, it is not that record. -/
theorem long_record_misread {crc : Bytes → UInt32} {r : WalType × Bytes} (h : ¬ ShortRecord r) (more : Bytes) (n : Nat) :
    (walReader crc).head (WalFile.recordBytes crc r.1 r.2 ++ more) ≠ .record r n := by
  intro hread
  obtain ⟨record, hbytes, htype, -, hlen⟩ := ofBytes_recordBytes crc r.1 r.2 more
  rw [walReader_head] at hread
  obtain ⟨record', rest, hbytes', -, hvalid, hle, hdata, -, -⟩ := readRecord_record hread
  rw [hbytes] at hbytes'
  obtain ⟨rfl, rfl⟩ := Prod.mk.inj (Option.some.inj hbytes')
  refine h ⟨hvalid, ?_⟩
  have hlength := congrArg List.length hdata
  rw [List.length_take, hlen] at hlength
  omega

theorem scan_written_iff (crc : Bytes → UInt32) (rs : List (WalType × Bytes)) :
    (scan (walReader crc) (rs.flatMap fun r => WalFile.recordBytes crc r.1 r.2)).records = rs ↔
      ∀ r ∈ rs, ShortRecord r := by
  induction rs with
  | nil => simp
  | cons r rs ih =>
      rw [List.flatMap_cons, List.forall_mem_cons]
      by_cases hshort : ShortRecord r
      · rw [Framing.scan_record (hshort.read _), List.drop_left]
        simp only [Scan.cons, List.cons.injEq, true_and, hshort, ih]
      · refine ⟨fun hread => absurd ?_ hshort, fun h => absurd h.1 hshort⟩
        cases hhead : (walReader crc).head (WalFile.recordBytes crc r.1 r.2 ++
            rs.flatMap fun r => WalFile.recordBytes crc r.1 r.2) with
        | stop why =>
            rw [Framing.scan_stop (by simp [WalFile.recordBytes, WalRecord.bytes]) hhead] at hread
            cases hread
        | record r' n =>
            rw [Framing.scan_record hhead] at hread
            obtain ⟨rfl, -⟩ := List.cons.inj hread
            exact absurd hhead (long_record_misread hshort _ _)

/-! ### Reading back -/

/-- The loop of `read_all` on a file, with nothing but the records kept. -/
def readBack (crc : Bytes → UInt32) (file : WalFile) : Result (WalFile × List (WalType × Bytes)) :=
  readRounds crc (fun type data rs => .ok (rs ++ [(type, data)])) file.content.length 0 file.content file []

theorem handleAll_collect (rs acc : List (WalType × Bytes)) :
    handleAll (fun type data rs => .ok (rs ++ [(type, data)])) rs acc = .ok (acc ++ rs) := by
  induction rs generalizing acc with
  | nil => exact congrArg Except.ok (List.append_nil acc).symm
  | cons r rs ih =>
      have htail := ih (acc ++ [r])
      rw [List.append_assoc] at htail
      exact htail

theorem readBack_scan (crc : Bytes → UInt32) (file : WalFile) :
    readBack crc file = .ok (file.afterRead crc, (scan (walReader crc) file.content).records) := by
  rw [readBack, readRounds_scan _ _ _ _ _ _ _ (Nat.le_refl _), handleAll_collect, Nat.zero_add]
  rfl

/-- Records that all fit are found again, and the loop runs to the end of the file. -/
theorem scan_short_records (crc : Bytes → UInt32) (rs : List (WalType × Bytes)) (h : ∀ r ∈ rs, ShortRecord r) :
    scan (walReader crc) (rs.flatMap fun r => WalFile.recordBytes crc r.1 r.2) = ⟨rs, [], none⟩ := by
  have hreads := Framing.reads_written (R := walReader crc) [] fun r hr more => (h r hr).read more
  rw [List.append_nil] at hreads
  rw [hreads.scan_eq, Framing.scan_nil]
  simp only [Scan.after, List.append_nil]

theorem readBack_written_iff (crc : Bytes → UInt32) (seq ftell : Nat) (rs : List (WalType × Bytes)) :
    readBack crc ((WalFile.open_ [] seq ftell).appendAll crc rs).sync =
        .ok (((WalFile.open_ [] seq ftell).appendAll crc rs).sync, rs) ↔
      ∀ r ∈ rs, ShortRecord r := by
  have hcontent : ((WalFile.open_ [] seq ftell).appendAll crc rs).sync.content =
      rs.flatMap fun r => WalFile.recordBytes crc r.1 r.2 :=
    WalFile.appendAll_sync_content crc (WalFile.open_ [] seq ftell) rs
  rw [readBack_scan, WalFile.afterRead, hcontent]
  constructor
  · intro hread
    exact (scan_written_iff crc rs).mp (Prod.mk.inj (Except.ok.inj hread)).2
  · intro hshort
    rw [scan_short_records crc rs hshort]
    rfl

/-- Reading the synced bytes back yields the appended records and leaves the file alone exactly
when no payload is longer than its header can say; a record of type 0 would end the loop, but
nothing appends one. -/
theorem synced_records_read_back (crc : Bytes → UInt32) (seq ftell : Nat) (rs : List (WalType × Bytes)) :
    readBack crc ((WalFile.open_ [] seq ftell).appendAll crc rs).sync =
        .ok (((WalFile.open_ [] seq ftell).appendAll crc rs).sync, rs) ↔
      ∀ r ∈ rs, r.1 ≠ walInvalidType ∧ r.2.length ≤ maxWalRecordLen :=
  readBack_written_iff crc seq ftell rs

/-- An entry one byte longer than the header can say, with a hard state behind it. -/
def longThenState : List (WalType × Bytes) :=
  [(walEntryType, List.replicate 0x01000000 0), (walStateType, messagePack.pack (HardState.toObj { term := 1 }))]

theorem long_entry_not_read_back :
    readBack crc32 ((WalFile.open_ [] 0 0).appendAll crc32 longThenState).sync ≠
      .ok (((WalFile.open_ [] 0 0).appendAll crc32 longThenState).sync, longThenState) := by
  intro hread
  have hshort := (readBack_written_iff crc32 0 0 longThenState).mp hread _ List.mem_cons_self
  have hlen : (List.replicate 0x01000000 (0 : UInt8)).length ≤ maxWalRecordLen := hshort.2
  rw [List.length_replicate] at hlen
  exact absurd hlen (by decide)

/-! ### Appending after reading -/

/-- The records of a file that the loop hands to `handle_record_wal_record`. -/
def processed (crc : Bytes → UInt32) (content : Bytes) : List (WalType × Bytes) :=
  (scan (walReader crc) content).records

/-- Records that pass every check stand in front of a header whose type byte is 0. -/
def ZeroHeader (crc : Bytes → UInt32) (content : Bytes) : Prop :=
  ∃ rs rest, Reads (walReader crc) content rs rest ∧ 8 ≤ rest.length ∧ rest.head? = some walInvalidType

/-- What `read_all` does to one file: its records are handled in order, and the file is cut where
the loop left. -/
theorem readFile_processed (mp : Msgpack) (crc : Bytes → UInt32) (start : WalSnapshot) (file : WalFile)
    (st : WalReading) :
    Wal.readFile mp crc start file st =
      (handleAll (Wal.handleRecord mp start) (processed crc file.content) { st with matchsnap := false }).bind
        fun st => if st.matchsnap then .ok (file.afterRead crc, st) else .error "wal: snapshot not found" := by
  unfold Wal.readFile processed
  simp only [readRounds_scan _ _ _ _ _ _ _ (Nat.le_refl _), Nat.zero_add]
  cases handleAll (Wal.handleRecord mp start) (scan (walReader crc) file.content).records
      { st with matchsnap := false } with
  | error e => rfl
  | ok st' => rfl

theorem readAll_single {mp : Msgpack} {crc : Bytes → UInt32} {file : WalFile} {start : WalSnapshot} {w : Wal}
    {hs : HardState} {ents : List (Option Entry)}
    (h : (Wal.open_ [file] start).readAll mp crc = .ok (w, hs, ents)) :
    w.files = [file.afterRead crc] := by
  simp only [Wal.readAll, Wal.open_, Wal.readFiles, readFile_processed, bind, Except.bind] at h
  cases hall : handleAll (Wal.handleRecord mp start) (processed crc file.content) { enti := 0 } with
  | error e => rw [hall] at h; cases h
  | ok st =>
      rw [hall] at h
      dsimp only at h
      split_ifs at h
      · obtain ⟨rfl, -⟩ := Prod.mk.inj (Except.ok.inj h)
        rfl

theorem readRecord_invalidType {crc : Bytes → UInt32} {left : Bytes}
    (h : 8 ≤ left.length ∧ left.head? = some walInvalidType) : readRecord crc left = .stop .invalidType := by
  obtain ⟨hlen, hhead⟩ := h
  match left, hlen, hhead with
  | t :: l0 :: l1 :: l2 :: c0 :: c1 :: c2 :: c3 :: rest, _, hhead =>
      obtain rfl : t = walInvalidType := Option.some.inj hhead
      simp [readRecord, WalRecord.ofBytes]

theorem readRecord_stop_invalidType {crc : Bytes → UInt32} {left : Bytes}
    (h : readRecord crc left = .stop .invalidType) : 8 ≤ left.length ∧ left.head? = some walInvalidType := by
  unfold readRecord at h
  split at h
  · cases h
  · rename_i record rest hbytes
    split_ifs at h with htype
    · unfold WalRecord.ofBytes at hbytes
      split at hbytes
      · obtain ⟨rfl, rfl⟩ := Prod.mk.inj (Option.some.inj hbytes)
        refine ⟨by simp only [List.length_cons]; omega, ?_⟩
        exact congrArg some htype
      · cases hbytes
    all_goals cases h

theorem zeroHeader_iff (crc : Bytes → UInt32) (content : Bytes) :
    ZeroHeader crc content ↔ (scan (walReader crc) content).stop = some .invalidType := by
  constructor
  · rintro ⟨rs, rest, hreads, hzero⟩
    have hstop : readRecord crc rest = .stop .invalidType := readRecord_invalidType hzero
    have hne : rest ≠ [] := by
      rintro rfl
      cases hzero.2
    rw [hreads.scan_eq, Framing.scan_stop hne hstop]
    rfl
  · intro hstop
    rcases Framing.scan_ends (R := walReader crc) content with ⟨-, hnone⟩ | ⟨why, -, hhead, hwhy⟩
    · rw [hnone] at hstop
      cases hstop
    · rw [hwhy] at hstop
      obtain rfl := Option.some.inj hstop
      exact ⟨_, _, Framing.scan_reads content, readRecord_stop_invalidType hhead⟩

/-- Unless the loop met an invalid type, it leaves exactly the records it read, and records that
are appended are found behind them. -/
theorem processed_appended {crc : Bytes → UInt32} (file : WalFile) {rs : List (WalType × Bytes)}
    (hbuffer : file.dataBuffer = []) (hzero : ¬ ZeroHeader crc file.content) (hrs : ∀ r ∈ rs, ShortRecord r) :
    processed crc ((file.afterRead crc).appendAll crc rs).sync.content = processed crc file.content ++ rs := by
  obtain ⟨front, hfront, hreads⟩ := (Framing.scan_reads (R := walReader crc) file.content).front
  have hlen := congrArg List.length hfront
  rw [List.length_append] at hlen
  have hleft : (file.afterRead crc).content = front ∧ (file.afterRead crc).dataBuffer = [] := by
    unfold WalFile.afterRead
    rcases Framing.scan_ends (R := walReader crc) file.content with ⟨hrest, hstop⟩ | ⟨why, -, hhead, hstop⟩
    · rw [hstop]
      rw [hrest, List.append_nil] at hfront
      exact ⟨hfront, hbuffer⟩
    · rw [hstop]
      have htrunc : why.truncates = true := by
        cases why with
        | invalidType => exact absurd ((zeroHeader_iff crc file.content).mpr hstop) hzero
        | shortRecord | shortData | badCrc => rfl
      simp only [leaveFile, htrunc, if_true, WalFile.truncate, and_true]
      rw [show file.content.length - (scan (walReader crc) file.content).rest.length = front.length by omega]
      conv_lhs => rw [hfront]
      exact List.take_left
  have hwritten := hreads (rs.flatMap fun r => WalFile.recordBytes crc r.1 r.2)
  rw [processed, WalFile.appendAll_sync_content, hleft.1, hleft.2, List.append_nil, hwritten.scan_eq,
    scan_short_records crc rs hrs]
  rfl

/-- After a header with type 0 the next reader sees nothing of what was appended. -/
theorem processed_behind_zero {crc : Bytes → UInt32} (file : WalFile) (rs : List (WalType × Bytes))
    (hbuffer : file.dataBuffer = []) (hzero : ZeroHeader crc file.content) :
    processed crc ((file.afterRead crc).appendAll crc rs).sync.content = processed crc file.content := by
  have hstop := (zeroHeader_iff crc file.content).mp hzero
  obtain ⟨rs', rest, hreads, hlen, hhead⟩ := hzero
  have hmore : 8 ≤ (rest ++ rs.flatMap fun r => WalFile.recordBytes crc r.1 r.2).length ∧
      (rest ++ rs.flatMap fun r => WalFile.recordBytes crc r.1 r.2).head? = some walInvalidType := by
    refine ⟨by rw [List.length_append]; omega, ?_⟩
    rw [List.head?_append, hhead]
    rfl
  have hne : ∀ more, 8 ≤ (rest ++ more).length → rest ++ more ≠ [] := by
    intro more hle hnil
    rw [hnil] at hle
    cases hle
  have hbefore : scan (walReader crc) file.content = ⟨rs' ++ [], rest, some .invalidType⟩ := by
    rw [hreads.scan_eq, Framing.scan_stop (List.append_nil rest ▸ hne [] (by rwa [List.append_nil]))
      (readRecord_invalidType ⟨hlen, hhead⟩)]
    rfl
  have hafter := (hreads.append (rs.flatMap fun r => WalFile.recordBytes crc r.1 r.2)).scan_eq
  rw [Framing.scan_stop (hne _ hmore.1) (readRecord_invalidType hmore)] at hafter
  have hsame : file.afterRead crc = file := by
    rw [WalFile.afterRead, hstop]
    rfl
  rw [hsame, processed, WalFile.appendAll_sync_content, hbuffer, List.append_nil, hafter, processed, hbefore]
  rfl

/-- The content of `files_.back()`. -/
def Wal.backContent (w : Wal) : Bytes := (w.files.getLast?.map WalFile.content).getD []

/-- The records that are appended and synced after `read_all` returned reach the next reader
exactly when the first one did not leave its loop at a header of type 0. -/
theorem appended_after_read_all (mp : Msgpack) (crc : Bytes → UInt32) (content : Bytes) (seq ftell : Nat)
    (start : WalSnapshot) (w : Wal) (hs : HardState) (ents : List (Option Entry))
    (hread : (Wal.open_ [WalFile.open_ content seq ftell] start).readAll mp crc = .ok (w, hs, ents))
    (rs : List (WalType × Bytes)) (hrs : ∀ r ∈ rs, r.1 ≠ walInvalidType ∧ r.2.length ≤ maxWalRecordLen) :
    processed crc (w.modifyBack fun f => (f.appendAll crc rs).sync).backContent = processed crc content ++ rs ↔
      rs = [] ∨ ¬ ZeroHeader crc content := by
  have hfiles := readAll_single hread
  have hback : (w.modifyBack fun f => (f.appendAll crc rs).sync).backContent =
      (((WalFile.open_ content seq ftell).afterRead crc).appendAll crc rs).sync.content := by
    simp only [Wal.backContent, Wal.modifyBack, hfiles, List.getLast?_singleton, List.dropLast_singleton,
      List.nil_append, Option.map, Option.getD]
  rw [hback]
  by_cases hzero : ZeroHeader crc content
  · have hseen := processed_behind_zero (WalFile.open_ content seq ftell) rs rfl hzero
    rw [hseen]
    simp [hzero, WalFile.open_]
  · have hseen := processed_appended (WalFile.open_ content seq ftell) rfl hzero hrs
    rw [hseen]
    simp [hzero, WalFile.open_]

/-- A fresh log, and one entry to append to it. -/
def freshLog : Bytes := Wal.create messagePack crc32

def oneEntry : List (WalType × Bytes) := [(walEntryType, messagePack.pack (Entry.toObj { term := 1, index := 1 }))]

theorem readAll_of_isOk (mp : Msgpack) (crc : Bytes → UInt32) (w : Wal) (h : (w.readAll mp crc).isOk = true) :
    ∃ w' hs ents, w.readAll mp crc = .ok (w', hs, ents) := by
  cases hread : w.readAll mp crc with
  | error e => rw [hread] at h; cases h
  | ok r => exact ⟨r.1, r.2.1, r.2.2, rfl⟩

/-- A torn header behind the first record is cut off, and the entry is found. -/
theorem appended_after_torn_header :
    ∃ w hs ents, (Wal.open_ [WalFile.open_ (freshLog ++ [1, 7]) 0 0] {}).readAll messagePack crc32 = .ok (w, hs, ents) ∧
      (∀ r ∈ oneEntry, r.1 ≠ walInvalidType ∧ r.2.length ≤ maxWalRecordLen) ∧
      (processed crc32 (w.modifyBack fun f => (f.appendAll crc32 oneEntry).sync).backContent =
          processed crc32 (freshLog ++ [1, 7]) ++ oneEntry ↔
        oneEntry = [] ∨ ¬ ZeroHeader crc32 (freshLog ++ [1, 7])) := by
  obtain ⟨w, hs, ents, hread⟩ := readAll_of_isOk messagePack crc32
    (Wal.open_ [WalFile.open_ (freshLog ++ [1, 7]) 0 0] {}) (by decide +kernel)
  have hshort : ∀ r ∈ oneEntry, r.1 ≠ walInvalidType ∧ r.2.length ≤ maxWalRecordLen := by decide +kernel
  exact ⟨w, hs, ents, hread, hshort, appended_after_read_all _ _ _ _ _ _ _ _ _ hread _ hshort⟩

/-- Eight zero bytes behind the first record stay in the file, and hide the entry for good. -/
theorem appended_behind_zeros_lost :
    ∃ w hs ents,
      (Wal.open_ [WalFile.open_ (freshLog ++ List.replicate 8 0) 0 0] {}).readAll messagePack crc32 =
        .ok (w, hs, ents) ∧
      processed crc32 (w.modifyBack fun f => (f.appendAll crc32 oneEntry).sync).backContent ≠
        processed crc32 (freshLog ++ List.replicate 8 0) ++ oneEntry := by
  obtain ⟨w, hs, ents, hread⟩ := readAll_of_isOk messagePack crc32
    (Wal.open_ [WalFile.open_ (freshLog ++ List.replicate 8 0) 0 0] {}) (by decide +kernel)
  refine ⟨w, hs, ents, hread, ?_⟩
  simp only [Wal.backContent, Wal.modifyBack, readAll_single hread, List.getLast?_singleton,
    List.dropLast_singleton, List.nil_append, Option.map, Option.getD]
  decide +kernel

end RaftEtcd
