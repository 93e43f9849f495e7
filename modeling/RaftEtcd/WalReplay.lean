import Mathlib.Data.List.DropRight
import RaftEtcd.Refine.Log
import RaftEtcd.WalScan

/-! What a write-ahead log gives back. A history of `save` and `save_snapshot` calls leaves a
sequence of records; replaying them from a snapshot is compared with the log that the saved
entries describe when each of them discards everything at or above its own index. -/
namespace RaftEtcd

open MessagePack (Obj)
open Framing (scan)

/-! ### The log that saved entries describe -/

/-- An entry replaces the tail of the log from its index on. -/
def putEntry (log : List Entry) (e : Entry) : List Entry := log.filter (·.index < e.index) ++ [e]

def logOf (es : List Entry) : List Entry := es.foldl putEntry []

/-- The part of a log behind a snapshot. -/
def above (s : Nat) (log : List Entry) : List Entry := log.filter (s < ·.index)

/-- Each entry stands at most one past the one that was saved before it. -/
def Follows : Nat → List Entry → Prop
  | _, [] => True
  | last, e :: es => 1 ≤ e.index ∧ e.index ≤ last + 1 ∧ Follows e.index es

/-- The index of the last saved entry. -/
def lastSaved (last : Nat) (es : List Entry) : Nat := (es.getLast?.map Entry.index).getD last

theorem follows_append {last : Nat} {es es' : List Entry} :
    Follows last (es ++ es') ↔ Follows last es ∧ Follows (lastSaved last es) es' := by
  induction es generalizing last with
  | nil => simp [Follows, lastSaved]
  | cons e es ih =>
      have hlast : lastSaved e.index es = lastSaved last (e :: es) := by
        cases es <;> simp [lastSaved, List.getLast?_cons]
      simp only [List.cons_append, Follows, ih, hlast, and_assoc]

theorem IndexedFrom.above {l : List Entry} (h : IndexedFrom 1 l) (s : Nat) : above s l = l.drop s :=
  h.filter_gt s

theorem logOf_concat (es : List Entry) (e : Entry) : logOf (es ++ [e]) = putEntry (logOf es) e := by
  rw [logOf, List.foldl_append]
  rfl

@[simp] theorem lastSaved_concat (last : Nat) (es : List Entry) (e : Entry) : lastSaved last (es ++ [e]) = e.index := by
  simp [lastSaved]

/-- Saved entries that follow each other describe a log without gaps that ends with the last one. -/
theorem logOf_numbered (es : List Entry) (h : Follows 0 es) :
    IndexedFrom 1 (logOf es) ∧ (logOf es).length = lastSaved 0 es := by
  induction es using List.reverseRecOn with
  | nil => exact ⟨IndexedFrom.nil 1, rfl⟩
  | append_singleton es e ih =>
      obtain ⟨hes, hpos, hle, -⟩ := follows_append.mp h
      obtain ⟨hnum, hlen⟩ := ih hes
      have htake : ((logOf es).take (e.index - 1)).length = e.index - 1 := by
        rw [List.length_take]
        omega
      rw [logOf_concat, putEntry, hnum.filter_lt, lastSaved_concat]
      refine ⟨(hnum.take _).append ?_, by rw [List.length_append, htake, List.length_singleton]; omega⟩
      intro k e' hk
      rw [List.getElem?_singleton] at hk
      split at hk
      · obtain rfl := Option.some.inj hk
        omega
      · cases hk

/-! ### Replaying the entries -/

/-- The entries of the records, in the order in which they were written. -/
def replayEntries (start : WalSnapshot) (es : List Entry) : List (Option Entry) :=
  es.foldl (Wal.placeEntry start) []

/-- The saved entries without a last run of them at or below the snapshot. -/
def upToAbove (s : Nat) (es : List Entry) : List Entry := es.rdropWhile (·.index ≤ s)

theorem upToAbove_concat (s : Nat) (es : List Entry) (e : Entry) :
    upToAbove s (es ++ [e]) = if s < e.index then es ++ [e] else upToAbove s es := by
  rw [upToAbove, List.rdropWhile_concat]
  by_cases h : s < e.index
  · rw [if_neg (by simpa using h), if_pos h]
  · rw [if_pos (by simpa using h), if_neg h]
    rfl

theorem upToAbove_of_last {s : Nat} {es : List Entry} (h : s < lastSaved 0 es) : upToAbove s es = es := by
  induction es using List.reverseRecOn with
  | nil => rfl
  | append_singleton es e ih =>
      rw [lastSaved_concat] at h
      rw [upToAbove_concat, if_pos h]

/-- The slots are filled without a gap, and an entry at or below the snapshot leaves them alone. -/
theorem replayEntries_eq (start : WalSnapshot) (es : List Entry) (h : Follows 0 es) :
    replayEntries start es = (above start.index (logOf (upToAbove start.index es))).map some := by
  induction es using List.reverseRecOn with
  | nil => rfl
  | append_singleton es e ih =>
      obtain ⟨hes, hpos, hle, -⟩ := follows_append.mp h
      obtain ⟨hnum, hlen⟩ := logOf_numbered es hes
      have hreplay : replayEntries start (es ++ [e]) = Wal.placeEntry start (replayEntries start es) e := by
        rw [replayEntries, List.foldl_append]
        rfl
      rw [hreplay, upToAbove_concat]
      by_cases hgt : start.index < e.index
      · rw [if_pos hgt, (logOf_numbered _ h).1.above, logOf_concat, putEntry, hnum.filter_lt,
          Wal.placeEntry, if_pos hgt, ih hes]
        by_cases hlast : start.index < lastSaved 0 es
        · -- the slots up to the entry are those of the log
          rw [upToAbove_of_last hlast, hnum.above, resizePtrs, ← List.map_take, List.length_map, List.length_drop,
            show e.index - start.index - 1 - ((logOf es).length - start.index) = 0 by omega,
            List.replicate_zero, List.append_nil, List.drop_append_of_le_length (by rw [List.length_take]; omega),
            List.map_append, List.take_drop]
          congr 4
          omega
        · -- the log had shrunk to the snapshot, so the entry is the first one behind it
          have hnext : e.index = start.index + 1 := by omega
          rw [hnext, Nat.add_sub_cancel_left, Nat.sub_self, Nat.add_sub_cancel, resizePtrs, List.take_zero,
            Nat.zero_sub, List.replicate_zero, List.append_nil, List.nil_append,
            List.take_of_length_le (by omega), List.drop_append, List.drop_of_length_le (by omega)]
          rw [show start.index - (logOf es).length = 0 by omega]
          rfl
      · rw [if_neg hgt, Wal.placeEntry, if_neg hgt, ih hes]

/-! ### Histories of calls -/

inductive WalOp where
  | save (hs : HardState) (ents : List Entry)
  | saveSnapshot (snap : WalSnapshot)

namespace WalOp

def entries : WalOp → List Entry
  | save _ ents => ents
  | saveSnapshot _ => []

/-- The hard state, if one is written. -/
def states : WalOp → List HardState
  | save hs _ => if hs.isEmptyState then [] else [hs]
  | saveSnapshot _ => []

/-- The values that a call writes, with the types of their records. -/
def values : WalOp → List (WalType × Obj)
  | save hs ents =>
      ents.map (fun e => (walEntryType, e.toObj)) ++
        if hs.isEmptyState then [] else [(walStateType, hs.toObj)]
  | saveSnapshot snap => [(walSnapshotType, snap.toObj)]

/-- A call that writes at most a new commit index: `save` need not bring it to the disk. -/
def Quiet (st : HardState) (op : WalOp) : Prop :=
  ∃ hs, op = .save hs [] ∧ (hs.isEmptyState = true ∨ (hs.term = st.term ∧ hs.vote = st.vote))

end WalOp

def savedEntries (ops : List WalOp) : List Entry := ops.flatMap WalOp.entries

/-- The last hard state that is not empty. -/
def lastState (ops : List WalOp) : HardState := (ops.flatMap WalOp.states).getLast?.getD {}

/-- Everything that the file of a log holds, the record that `create` wrote first. -/
def savedValues (ops : List WalOp) : List (WalType × Obj) :=
  (walSnapshotType, WalSnapshot.toObj {}) :: ops.flatMap WalOp.values

/-- The entries of each call are contiguous and start at most one past the last saved index, and
snapshots are recorded at indexes that the log then contains. -/
def Contiguous : Nat → List WalOp → Prop
  | _, [] => True
  | last, .save _ ents :: ops =>
      (∀ e ∈ ents.head?, 1 ≤ e.index ∧ e.index ≤ last + 1) ∧
        ents.IsChain (fun a b => b.index = a.index + 1) ∧ Contiguous (lastSaved last ents) ops
  | last, .saveSnapshot snap :: ops => snap.index ≤ last ∧ Contiguous last ops

/-- What can be read back: its payload fits a record, and msgpack restores it. -/
def Readable (mp : Msgpack) (p : WalType × Obj) : Prop :=
  mp.Restores p.2 ∧ (mp.pack p.2).length ≤ maxWalRecordLen

namespace Wal

def apply (mp : Msgpack) (crc : Bytes → UInt32) (w : Wal) : WalOp → Wal
  | .save hs ents => w.save mp crc hs ents
  | .saveSnapshot snap => w.saveSnapshot mp crc snap

/-- A log that was created and opened, and to which nothing was written yet. -/
def fresh (mp : Msgpack) (crc : Bytes → UInt32) (ftell : Nat) : Wal :=
  open_ [WalFile.open_ (create mp crc) 0 ftell] {}

def afterCalls (mp : Msgpack) (crc : Bytes → UInt32) (ftell : Nat) (ops : List WalOp) : Wal :=
  ops.foldl (apply mp crc) (fresh mp crc ftell)

end Wal

theorem follows_of_chain {last : Nat} {ents : List Entry} (hhead : ∀ e ∈ ents.head?, 1 ≤ e.index ∧ e.index ≤ last + 1)
    (hchain : ents.IsChain (fun a b => b.index = a.index + 1)) : Follows last ents := by
  induction ents generalizing last with
  | nil => trivial
  | cons e es ih =>
      obtain ⟨hpos, hle⟩ := hhead e rfl
      refine ⟨hpos, hle, ?_⟩
      cases es with
      | nil => trivial
      | cons e' es =>
          obtain ⟨hnext, htail⟩ := List.isChain_cons_cons.mp hchain
          refine ih (fun e'' he'' => ?_) htail
          obtain rfl := Option.some.inj he''
          omega

theorem Contiguous.follows {last : Nat} {ops : List WalOp} (h : Contiguous last ops) :
    Follows last (savedEntries ops) := by
  induction ops generalizing last with
  | nil => trivial
  | cons op ops ih =>
      cases op with
      | save hs ents =>
          obtain ⟨hhead, hchain, hrest⟩ := h
          exact follows_append.mpr ⟨follows_of_chain hhead hchain, ih hrest⟩
      | saveSnapshot snap => exact ih h.2

theorem lastState_append (ops ops' : List WalOp) :
    lastState (ops ++ ops') = (ops'.flatMap WalOp.states).getLast?.getD (lastState ops) := by
  rw [lastState, List.flatMap_append, List.getLast?_append]
  cases (ops'.flatMap WalOp.states).getLast? <;> rfl

/-- Quiet calls keep the term and the vote. -/
theorem quiet_state {pre post : List WalOp} (h : ∀ op ∈ post, op.Quiet (lastState pre)) :
    (lastState (pre ++ post)).term = (lastState pre).term ∧ (lastState (pre ++ post)).vote = (lastState pre).vote := by
  induction post using List.reverseRecOn with
  | nil => rw [List.append_nil]; exact ⟨rfl, rfl⟩
  | append_singleton post op ih =>
      have hpost := ih fun op' hop' => h op' (List.mem_append_left _ hop')
      obtain ⟨hs, rfl, hquiet⟩ := h op (by simp)
      rw [← List.append_assoc, lastState_append]
      by_cases hempty : hs.isEmptyState
      · simpa [WalOp.states, hempty] using hpost
      · simpa [WalOp.states, hempty] using hquiet

/-- Quiet calls save no entries. -/
theorem savedEntries_quiet {pre post : List WalOp} (h : ∀ op ∈ post, op.Quiet (lastState pre)) :
    savedEntries (pre ++ post) = savedEntries pre := by
  have hnone : post.flatMap WalOp.entries = [] := by
    rw [List.flatMap_eq_nil_iff]
    intro op hop
    obtain ⟨hs, rfl, -⟩ := h op hop
    rfl
  rw [savedEntries, List.flatMap_append, hnone, List.append_nil]
  rfl

/-! ### What the calls leave in the file -/

/-- The bytes of the records for some values. -/
def valueBytes (mp : Msgpack) (crc : Bytes → UInt32) (vs : List (WalType × Obj)) : Bytes :=
  vs.flatMap fun v => WalFile.recordBytes crc v.1 (mp.pack v.2)

theorem valueBytes_append (mp : Msgpack) (crc : Bytes → UInt32) (vs vs' : List (WalType × Obj)) :
    valueBytes mp crc (vs ++ vs') = valueBytes mp crc vs ++ valueBytes mp crc vs' :=
  List.flatMap_append

theorem Wal.modifyBack_single {w : Wal} {f : WalFile} (h : w.files = [f]) (g : WalFile → WalFile) :
    w.modifyBack g = { w with files := [g f] } := by
  simp [Wal.modifyBack, h]

/-- The log has one file, with these bytes in it and those waiting. -/
structure Stored (w : Wal) (content buffer : Bytes) : Prop where
  file : ∃ f, w.files = [f] ∧ f.content = content ∧ f.dataBuffer = buffer

theorem Stored.sync {w : Wal} {content buffer : Bytes} (h : Stored w content buffer) :
    Stored (w.modifyBack WalFile.sync) (content ++ buffer) [] := by
  obtain ⟨f, hfile, rfl, rfl⟩ := h.file
  rw [Wal.modifyBack_single hfile]
  refine ⟨f.sync, rfl, f.sync_content, ?_⟩
  unfold WalFile.sync
  split_ifs with hempty
  · exact hempty
  · rfl

theorem Stored.append {w : Wal} {content buffer : Bytes} (h : Stored w content buffer) (mp : Msgpack)
    (crc : Bytes → UInt32) (v : WalType × Obj) :
    Stored (w.modifyBack fun f => f.append crc v.1 (mp.pack v.2)) content (buffer ++ valueBytes mp crc [v]) := by
  obtain ⟨f, hfile, rfl, rfl⟩ := h.file
  rw [Wal.modifyBack_single hfile]
  exact ⟨_, rfl, rfl, by simp [WalFile.append, valueBytes]⟩

theorem Wal.modifyBack_state (w : Wal) (g : WalFile → WalFile) : (w.modifyBack g).state = w.state := by
  unfold Wal.modifyBack
  split <;> rfl

theorem Stored.saveEntries {w : Wal} {content buffer : Bytes} (h : Stored w content buffer) (mp : Msgpack)
    (crc : Bytes → UInt32) (ents : List Entry) :
    Stored (ents.foldl (Wal.saveEntry mp crc) w) content
        (buffer ++ valueBytes mp crc (ents.map fun e => (walEntryType, e.toObj))) ∧
      (ents.foldl (Wal.saveEntry mp crc) w).state = w.state := by
  induction ents generalizing w buffer with
  | nil => exact ⟨by simpa [valueBytes] using h, rfl⟩
  | cons e ents ih =>
      obtain ⟨f, hfile⟩ := (h.append mp crc (walEntryType, e.toObj)).file
      have hone : Stored (w.saveEntry mp crc e) content (buffer ++ valueBytes mp crc [(walEntryType, e.toObj)]) :=
        ⟨f, hfile⟩
      obtain ⟨hstored, hstate⟩ := ih hone
      refine ⟨?_, hstate.trans (Wal.modifyBack_state _ _)⟩
      rw [List.append_assoc, ← valueBytes_append] at hstored
      exact hstored

theorem Stored.saveHardState {w : Wal} {content buffer : Bytes} (h : Stored w content buffer) (mp : Msgpack)
    (crc : Bytes → UInt32) (hs : HardState) :
    Stored (w.saveHardState mp crc hs) content
        (buffer ++ valueBytes mp crc (if hs.isEmptyState then [] else [(walStateType, hs.toObj)])) ∧
      (w.saveHardState mp crc hs).state = if hs.isEmptyState then w.state else hs := by
  unfold Wal.saveHardState
  split_ifs with hempty
  · exact ⟨by simpa [valueBytes] using h, rfl⟩
  · obtain ⟨f, hfile⟩ := (h.append mp crc (walStateType, hs.toObj)).file
    exact ⟨⟨f, hfile⟩, rfl⟩

/-- The calls up to the last sync are in the file; those behind it are quiet and wait. -/
structure Written (mp : Msgpack) (crc : Bytes → UInt32) (pre post : List WalOp) (w : Wal) : Prop where
  stored : Stored w (valueBytes mp crc (savedValues pre)) (valueBytes mp crc (post.flatMap WalOp.values))
  state : w.state = lastState (pre ++ post)
  quiet : ∀ op ∈ post, op.Quiet (lastState pre)

theorem savedValues_append (ops ops' : List WalOp) :
    savedValues (ops ++ ops') = savedValues ops ++ ops'.flatMap WalOp.values := by
  simp [savedValues]

/-- A call that syncs brings everything to the file. -/
theorem written_synced {mp : Msgpack} {crc : Bytes → UInt32} {pre post : List WalOp} {w' : Wal} {op : WalOp}
    (hstored : Stored w' (valueBytes mp crc (savedValues pre))
      (valueBytes mp crc (post.flatMap WalOp.values) ++ valueBytes mp crc op.values))
    (hstate : w'.state = lastState (pre ++ post ++ [op])) :
    Written mp crc (pre ++ post ++ [op]) [] (w'.modifyBack WalFile.sync) := by
  refine ⟨?_, by rw [Wal.modifyBack_state, List.append_nil]; exact hstate, by simp⟩
  have hsync := hstored.sync
  rw [← valueBytes_append, ← valueBytes_append, ← List.append_assoc, ← savedValues_append] at hsync
  simpa [savedValues_append, valueBytes] using hsync

/-- A quiet call may stay in the buffer. -/
theorem Written.waits {mp : Msgpack} {crc : Bytes → UInt32} {pre post : List WalOp} {w w' : Wal} {op : WalOp}
    (h : Written mp crc pre post w)
    (hstored : Stored w' (valueBytes mp crc (savedValues pre))
      (valueBytes mp crc (post.flatMap WalOp.values) ++ valueBytes mp crc op.values))
    (hstate : w'.state = lastState (pre ++ post ++ [op])) (hquiet : op.Quiet (lastState pre)) :
    Written mp crc pre (post ++ [op]) w' := by
  refine ⟨?_, by rw [← List.append_assoc]; exact hstate, ?_⟩
  · rw [← valueBytes_append] at hstored
    simpa using hstored
  · intro op' hop'
    rcases List.mem_append.mp hop' with hpost | hone
    · exact h.quiet op' hpost
    · rw [List.mem_singleton.mp hone]
      exact hquiet

theorem lastState_save (ops : List WalOp) (hs : HardState) (ents : List Entry) :
    lastState (ops ++ [.save hs ents]) = if hs.isEmptyState then lastState ops else hs := by
  rw [lastState_append]
  by_cases hempty : hs.isEmptyState <;> simp [WalOp.states, hempty]

theorem lastState_saveSnapshot (ops : List WalOp) (snap : WalSnapshot) :
    lastState (ops ++ [.saveSnapshot snap]) = lastState ops := by
  rw [lastState_append]
  rfl

/-- A call that `is_must_sync` lets wait is quiet. -/
theorem Written.quiet_of_not_mustSync {mp : Msgpack} {crc : Bytes → UInt32} {pre post : List WalOp} {w : Wal}
    (h : Written mp crc pre post w) {hs : HardState} {ents : List Entry}
    (hsync : isMustSync hs w.state ents.length = false) : (WalOp.save hs ents).Quiet (lastState pre) := by
  simp only [isMustSync, Bool.or_eq_false_iff, bne_eq_false_iff_eq] at hsync
  obtain ⟨⟨hlen, hvote⟩, hterm⟩ := hsync
  obtain rfl := List.length_eq_zero_iff.mp hlen
  obtain ⟨hterm', hvote'⟩ := quiet_state h.quiet
  rw [h.state] at hvote hterm
  exact ⟨hs, rfl, .inr ⟨hterm.trans hterm', hvote.trans hvote'⟩⟩

theorem Written.save {mp : Msgpack} {crc : Bytes → UInt32} {pre post : List WalOp} {w : Wal}
    (h : Written mp crc pre post w) (hs : HardState) (ents : List Entry) :
    ∃ pre' post', pre' ++ post' = pre ++ post ++ [.save hs ents] ∧ Written mp crc pre' post' (w.save mp crc hs ents) := by
  obtain ⟨hents, hentsState⟩ := h.stored.saveEntries mp crc ents
  obtain ⟨hall, hallState⟩ := hents.saveHardState mp crc hs
  rw [List.append_assoc, ← valueBytes_append] at hall
  change Stored _ _ (_ ++ valueBytes mp crc (WalOp.save hs ents).values) at hall
  rw [hentsState, h.state, ← lastState_save (pre ++ post) hs ents] at hallState
  unfold Wal.save
  dsimp only
  split_ifs with hnone hsize hsync
  · -- nothing to write, and nothing is synced
    rw [Bool.and_eq_true, List.isEmpty_iff] at hnone
    obtain ⟨hempty, rfl⟩ := hnone
    refine ⟨pre, post ++ [.save hs []], (List.append_assoc _ _ _).symm, h.waits ?_ ?_ ⟨hs, rfl, .inl hempty⟩⟩
    · simpa [WalOp.values, hempty, valueBytes] using h.stored
    · rw [lastState_save, if_pos hempty, h.state]
  · exact ⟨_, [], List.append_nil _, written_synced hall hallState⟩
  · exact ⟨pre, post ++ [.save hs ents], (List.append_assoc _ _ _).symm,
      h.waits hall hallState (h.quiet_of_not_mustSync (Bool.not_eq_true _ ▸ hsync))⟩
  · exact ⟨_, [], List.append_nil _, written_synced hall hallState⟩

theorem Written.saveSnapshot {mp : Msgpack} {crc : Bytes → UInt32} {pre post : List WalOp} {w : Wal}
    (h : Written mp crc pre post w) (snap : WalSnapshot) :
    Written mp crc (pre ++ post ++ [.saveSnapshot snap]) [] (w.saveSnapshot mp crc snap) := by
  obtain ⟨f, hfile⟩ := (h.stored.append mp crc (walSnapshotType, snap.toObj)).file
  have hstate : (w.modifyBack fun f => f.append crc walSnapshotType (mp.pack snap.toObj)).state =
      lastState (pre ++ post ++ [.saveSnapshot snap]) := by
    rw [Wal.modifyBack_state, h.state, lastState_saveSnapshot]
  unfold Wal.saveSnapshot
  dsimp only
  split_ifs
  · exact written_synced ⟨f, hfile⟩ hstate
  · exact written_synced ⟨f, hfile⟩ hstate

theorem Written.apply {mp : Msgpack} {crc : Bytes → UInt32} {pre post : List WalOp} {w : Wal}
    (h : Written mp crc pre post w) (op : WalOp) :
    ∃ pre' post', pre' ++ post' = pre ++ post ++ [op] ∧ Written mp crc pre' post' (w.apply mp crc op) := by
  cases op with
  | save hs ents => exact h.save hs ents
  | saveSnapshot snap => exact ⟨_, [], List.append_nil _, h.saveSnapshot snap⟩

theorem written_fresh (mp : Msgpack) (crc : Bytes → UInt32) (ftell : Nat) :
    Written mp crc [] [] (Wal.fresh mp crc ftell) := by
  refine ⟨⟨_, rfl, ?_, rfl⟩, rfl, by simp⟩
  show Wal.create mp crc = _
  rw [Wal.create, WalFile.sync_content]
  simp [WalFile.append, WalFile.open_, valueBytes, savedValues]

/-- After any history of calls the file holds the records of the calls up to the last sync. -/
theorem afterCalls_written (mp : Msgpack) (crc : Bytes → UInt32) (ftell : Nat) (ops : List WalOp) :
    ∃ pre post, ops = pre ++ post ∧ Written mp crc pre post (Wal.afterCalls mp crc ftell ops) := by
  induction ops using List.reverseRecOn with
  | nil => exact ⟨[], [], rfl, written_fresh mp crc ftell⟩
  | append_singleton ops op ih =>
      obtain ⟨pre, post, hops, hwritten⟩ := ih
      obtain ⟨pre', post', hops', hwritten'⟩ := hwritten.apply op
      refine ⟨pre', post', by rw [hops', hops], ?_⟩
      rw [Wal.afterCalls, List.foldl_append]
      exact hwritten'

/-! ### Reading it again -/

/-- The records for some values. -/
def valueRecords (mp : Msgpack) (vs : List (WalType × Obj)) : List (WalType × Bytes) :=
  vs.map fun v => (v.1, mp.pack v.2)

theorem valueRecords_append (mp : Msgpack) (vs vs' : List (WalType × Obj)) :
    valueRecords mp (vs ++ vs') = valueRecords mp vs ++ valueRecords mp vs' :=
  List.map_append

/-- Snapshots that are recorded at the index of the one to start from carry its term. -/
def Agrees (start : WalSnapshot) (ops : List WalOp) : Prop :=
  ∀ snap, .saveSnapshot snap ∈ ops → snap.index = start.index → snap.term = start.term

theorem handleAll_append {σ : Type} (handle : WalType → Bytes → σ → Result σ) (rs rs' : List (WalType × Bytes)) (s : σ) :
    handleAll handle (rs ++ rs') s = (handleAll handle rs s).bind (handleAll handle rs') := by
  rw [handleAll, List.foldlM_append]
  rfl

section Handling
variable {mp : Msgpack} {start : WalSnapshot}

theorem handleRecord_entry {e : Entry} (h : mp.Restores e.toObj) (st : WalReading) :
    Wal.handleRecord mp start walEntryType (mp.pack e.toObj) st = .ok (Wal.handleEntryRecord start e st) := by
  have hback : (mp.unpack (mp.pack e.toObj)).bind (Entry.convert {}) = some e := by
    rw [h, Option.bind_some, Entry.convert_toObj]
  simp only [Wal.handleRecord, Wal.handleRecordWalRecord, if_true, hback, Wal.unpacked, bind, Except.bind]
  rfl

theorem handleRecord_state {hs : HardState} (h : mp.Restores hs.toObj) (st : WalReading) :
    Wal.handleRecord mp start walStateType (mp.pack hs.toObj) st = .ok { st with hs := hs } := by
  have hback : (mp.unpack (mp.pack hs.toObj)).bind st.hs.convert = some hs := by
    rw [h, Option.bind_some, HardState.convert_toObj]
  have hne : walStateType ≠ walEntryType := by decide
  simp only [Wal.handleRecord, Wal.handleRecordWalRecord, if_neg hne, if_true, hback, Wal.unpacked, bind, Except.bind]
  rfl

theorem handleRecord_snapshot {snap : WalSnapshot} (h : mp.Restores snap.toObj)
    (hterm : snap.index = start.index → snap.term = start.term) (st : WalReading) :
    Wal.handleRecord mp start walSnapshotType (mp.pack snap.toObj) st = .ok { st with matchsnap := true } := by
  have hback : (mp.unpack (mp.pack snap.toObj)).bind (WalSnapshot.convert {}) = some snap := by
    rw [h, Option.bind_some, WalSnapshot.convert_toObj]
  have hentry : walSnapshotType ≠ walEntryType := by decide
  have hstate : walSnapshotType ≠ walStateType := by decide
  have hsnap : (Wal.handleSnapshotRecord start snap st).map (fun st => { st with matchsnap := true }) =
      .ok { st with matchsnap := true } := by
    unfold Wal.handleSnapshotRecord
    split_ifs with hindex hbad
    · exact absurd (hterm hindex) hbad
    · rfl
    · rfl
  simp only [Wal.handleRecord, Wal.handleRecordWalRecord, if_neg hentry, if_neg hstate, if_true, hback, Wal.unpacked,
    bind, Except.bind]
  exact hsnap

theorem handleAll_entries (start : WalSnapshot) (ents : List Entry) (h : ∀ e ∈ ents, mp.Restores e.toObj) (st : WalReading) :
    ∃ enti, handleAll (Wal.handleRecord mp start)
        (valueRecords mp (ents.map fun e => (walEntryType, e.toObj))) st =
      .ok { st with ents := ents.foldl (Wal.placeEntry start) st.ents, enti := enti } := by
  induction ents generalizing st with
  | nil => exact ⟨st.enti, rfl⟩
  | cons e ents ih =>
      obtain ⟨enti, htail⟩ := ih (fun e' he' => h e' (List.mem_cons_of_mem _ he')) (Wal.handleEntryRecord start e st)
      refine ⟨enti, ?_⟩
      rw [valueRecords, List.map_cons, List.map_cons, handleAll, List.foldlM_cons,
        handleRecord_entry (h e List.mem_cons_self)]
      exact htail

theorem handleAll_op (op : WalOp) (h : ∀ v ∈ op.values, mp.Restores v.2) (hagree : Agrees start [op])
    (st : WalReading) :
    ∃ st', handleAll (Wal.handleRecord mp start) (valueRecords mp op.values) st = .ok st' ∧
      st'.hs = op.states.getLast?.getD st.hs ∧ st'.ents = op.entries.foldl (Wal.placeEntry start) st.ents ∧
      (st.matchsnap = true → st'.matchsnap = true) := by
  cases op with
  | save hs ents =>
      have hrestore : ∀ e ∈ ents, mp.Restores e.toObj := fun e he =>
        h (walEntryType, e.toObj) (List.mem_append_left _ (List.mem_map.mpr ⟨e, he, rfl⟩))
      obtain ⟨enti, hents⟩ := handleAll_entries start ents hrestore st
      by_cases hempty : hs.isEmptyState
      · refine ⟨{ st with ents := ents.foldl (Wal.placeEntry start) st.ents, enti := enti }, ?_,
          by simp [WalOp.states, hempty], rfl, id⟩
        simpa [WalOp.values, hempty] using hents
      · have hstate := h (walStateType, hs.toObj) (List.mem_append_right _ (by simp [hempty]))
        refine ⟨{ st with ents := ents.foldl (Wal.placeEntry start) st.ents, enti := enti, hs := hs }, ?_,
          by simp [WalOp.states, hempty], rfl, id⟩
        rw [WalOp.values, if_neg hempty, valueRecords_append, handleAll_append, hents]
        simp only [Except.bind, valueRecords, List.map_cons, List.map_nil, handleAll, List.foldlM_cons,
          List.foldlM_nil, handleRecord_state hstate, bind]
        rfl
  | saveSnapshot snap =>
      refine ⟨{ st with matchsnap := true }, ?_, rfl, rfl, fun _ => rfl⟩
      have hone := handleRecord_snapshot (h (walSnapshotType, snap.toObj) List.mem_cons_self)
        (hagree snap List.mem_cons_self) st
      simp only [WalOp.values, valueRecords, List.map_cons, List.map_nil, handleAll, List.foldlM_cons, List.foldlM_nil,
        hone, bind, Except.bind]
      rfl

theorem handleAll_ops (ops : List WalOp) (h : ∀ v ∈ ops.flatMap WalOp.values, mp.Restores v.2)
    (hagree : Agrees start ops) (st : WalReading) :
    ∃ st', handleAll (Wal.handleRecord mp start) (valueRecords mp (ops.flatMap WalOp.values)) st = .ok st' ∧
      st'.hs = (ops.flatMap WalOp.states).getLast?.getD st.hs ∧
      st'.ents = (savedEntries ops).foldl (Wal.placeEntry start) st.ents ∧
      (st.matchsnap = true → st'.matchsnap = true) := by
  induction ops generalizing st with
  | nil => exact ⟨st, rfl, rfl, rfl, id⟩
  | cons op ops ih =>
      obtain ⟨st1, hone, hhs, hents, hmatch⟩ := handleAll_op op
        (fun v hv => h v (List.mem_flatMap.mpr ⟨op, List.mem_cons_self, hv⟩))
        (fun snap hsnap => hagree snap (List.mem_singleton.mp hsnap ▸ List.mem_cons_self)) st
      obtain ⟨st2, hrest, hhs', hents', hmatch'⟩ := ih
        (fun v hv => h v (by rw [List.flatMap_cons]; exact List.mem_append_right _ hv))
        (fun snap hsnap => hagree snap (List.mem_cons_of_mem _ hsnap)) st1
      refine ⟨st2, ?_, ?_, ?_, fun hm => hmatch' (hmatch hm)⟩
      · rw [List.flatMap_cons, valueRecords_append, handleAll_append, hone]
        exact hrest
      · rw [hhs', hhs, List.flatMap_cons, List.getLast?_append]
        cases (ops.flatMap WalOp.states).getLast? <;> rfl
      · rw [hents', hents, savedEntries, savedEntries, List.flatMap_cons, List.foldl_append]

end Handling

theorem savedValues_type {ops : List WalOp} {v : WalType × Obj} (h : v ∈ savedValues ops) : v.1 ≠ walInvalidType := by
  rcases List.mem_cons.mp h with rfl | hmem
  · decide
  · obtain ⟨op, -, hv⟩ := List.mem_flatMap.mp hmem
    cases op with
    | save hs ents =>
        rcases List.mem_append.mp hv with he | hs'
        · obtain ⟨e, -, rfl⟩ := List.mem_map.mp he
          exact (by decide : walEntryType ≠ walInvalidType)
        · split_ifs at hs'
          · cases hs'
          · rw [List.mem_singleton.mp hs']
            exact (by decide : walStateType ≠ walInvalidType)
    | saveSnapshot snap =>
        rw [List.mem_singleton.mp hv]
        exact (by decide : walSnapshotType ≠ walInvalidType)

/-- Every record of the file is handed on. -/
theorem processed_values {mp : Msgpack} {crc : Bytes → UInt32} {ops : List WalOp}
    (h : ∀ v ∈ savedValues ops, Readable mp v) :
    processed crc (valueBytes mp crc (savedValues ops)) = valueRecords mp (savedValues ops) := by
  have hbytes : valueBytes mp crc (savedValues ops) =
      (valueRecords mp (savedValues ops)).flatMap fun r => WalFile.recordBytes crc r.1 r.2 := by
    rw [valueRecords, List.flatMap_map]
    rfl
  have hshort : ∀ r ∈ valueRecords mp (savedValues ops), ShortRecord r := by
    intro r hr
    obtain ⟨v, hv, rfl⟩ := List.mem_map.mp hr
    exact ⟨savedValues_type hv, (h v hv).2⟩
  rw [processed, hbytes, scan_short_records crc _ hshort]

/-- The next reader gets the last hard state and the entries of what the file holds. -/
theorem Written.readAll {mp : Msgpack} {crc : Bytes → UInt32} {pre post : List WalOp} {w : Wal}
    (h : Written mp crc pre post w) (hread : ∀ v ∈ savedValues pre, Readable mp v) {start : WalSnapshot}
    (hagree : Agrees start pre) (hzero : start.index = 0 → start.term = 0) (ftell : Nat) :
    ∃ w', (Wal.open_ [WalFile.open_ w.backContent 0 ftell] start).readAll mp crc =
      .ok (w', lastState pre, replayEntries start (savedEntries pre)) := by
  obtain ⟨f, hfiles, hcontent, -⟩ := h.stored.file
  have hback : w.backContent = valueBytes mp crc (savedValues pre) := by
    simp only [Wal.backContent, hfiles, List.getLast?_singleton, Option.map, Option.getD, hcontent]
  have hcreated : Wal.handleRecord mp start walSnapshotType (mp.pack (WalSnapshot.toObj {})) { enti := 0 } =
      .ok { enti := 0, matchsnap := true } :=
    handleRecord_snapshot (hread _ List.mem_cons_self).1 (fun hindex => (hzero hindex.symm).symm) _
  obtain ⟨st, hall, hhs, hents, hmatch⟩ := handleAll_ops pre
    (fun v hv => (hread v (List.mem_cons_of_mem _ hv)).1) hagree { enti := 0, matchsnap := true }
  have hhandled : handleAll (Wal.handleRecord mp start) (valueRecords mp (savedValues pre)) { enti := 0 } = .ok st := by
    rw [savedValues, valueRecords, List.map_cons, handleAll, List.foldlM_cons, hcreated]
    exact hall
  refine ⟨{ Wal.open_ [WalFile.open_ w.backContent 0 ftell] start with
    files := [(WalFile.open_ w.backContent 0 ftell).afterRead crc], enti := st.enti }, ?_⟩
  have hprocessed : processed crc (WalFile.open_ w.backContent 0 ftell).content = valueRecords mp (savedValues pre) := by
    rw [WalFile.open_, hback]
    exact processed_values hread
  simp only [Wal.readAll, Wal.open_, Wal.readFiles, readFile_processed, hprocessed, hhandled, hmatch rfl, if_true, bind,
    Except.bind, hhs, hents]
  rfl

/-- A run of saved entries that ends above the snapshot, or that never rises above it, is replayed
as the log it describes. -/
theorem above_upToAbove {s : Nat} {es : List Entry} (hes : Follows 0 es)
    (h : s < lastSaved 0 es ∨ ∀ e ∈ es, e.index ≤ s) :
    above s (logOf (upToAbove s es)) = above s (logOf es) := by
  rcases h with hlast | hbelow
  · rw [upToAbove_of_last hlast]
  · have hlast : lastSaved 0 es ≤ s := by
      cases hl : es.getLast? with
      | none => simp [lastSaved, hl]
      | some e => simpa [lastSaved, hl] using hbelow e (List.mem_of_getLast? hl)
    obtain ⟨hnum, hlen⟩ := logOf_numbered es hes
    have hnil : upToAbove s es = [] := List.rdropWhile_eq_nil_iff.mpr (by simpa using hbelow)
    rw [hnil, hnum.above, List.drop_of_length_le (by omega)]
    rfl

/-- Replay returns the last hard state that was synced, which has the last saved term and vote,
and entries without a gap. These are the log behind the snapshot whenever the last saved entry lies
above the snapshot, or none does. -/
theorem wal_replay (mp : Msgpack) (crc : Bytes → UInt32) (ftell ftell' : Nat) (ops : List WalOp)
    (start : WalSnapshot) (hcontiguous : Contiguous 0 ops) (hreadable : ∀ v ∈ savedValues ops, Readable mp v)
    (hagree : Agrees start ops) (hzero : start.index = 0 → start.term = 0) :
    ∃ w' pre post ents, ops = pre ++ post ∧ (∀ op ∈ post, op.Quiet (lastState pre)) ∧
      (Wal.open_ [WalFile.open_ (Wal.afterCalls mp crc ftell ops).backContent 0 ftell'] start).readAll mp crc =
        .ok (w', lastState pre, ents.map some) ∧
      (lastState pre).term = (lastState ops).term ∧ (lastState pre).vote = (lastState ops).vote ∧
      ((start.index < lastSaved 0 (savedEntries ops) ∨ ∀ e ∈ savedEntries ops, e.index ≤ start.index) →
        ents = above start.index (logOf (savedEntries ops))) := by
  obtain ⟨pre, post, rfl, hwritten⟩ := afterCalls_written mp crc ftell ops
  have hpre : ∀ v ∈ savedValues pre, Readable mp v := by
    intro v hv
    refine hreadable v ?_
    rw [savedValues_append]
    exact List.mem_append_left _ hv
  obtain ⟨w', hread⟩ := hwritten.readAll hpre (fun snap hsnap => hagree snap (List.mem_append_left _ hsnap)) hzero ftell'
  have hsaved := savedEntries_quiet hwritten.quiet
  have hfollows := hcontiguous.follows
  obtain ⟨hterm, hvote⟩ := quiet_state hwritten.quiet
  rw [hsaved] at hfollows ⊢
  rw [replayEntries_eq start _ hfollows] at hread
  exact ⟨w', pre, post, _, rfl, hwritten.quiet, hread, hterm.symm, hvote.symm, above_upToAbove hfollows⟩

/-- Three entries, a snapshot at the second, and the third overwritten in a later term; the last
commit index is saved without a sync. -/
def overwrittenTail : List WalOp :=
  [.save { term := 1, vote := 1 } [{ term := 1, index := 1 }, { term := 1, index := 2 }, { term := 1, index := 3 }],
    .saveSnapshot { index := 2, term := 1 },
    .save { term := 2, vote := 2, commit := 2 } [{ term := 2, index := 3 }],
    .save { term := 2, vote := 2, commit := 3 } []]

/-- The overwrite reaches the index at which the snapshot is then taken. -/
def overwrittenSnapshot : List WalOp :=
  [.save { term := 1, vote := 1 } [{ term := 1, index := 1 }, { term := 1, index := 2 }, { term := 1, index := 3 }],
    .save { term := 2, vote := 2, commit := 2 } [{ term := 2, index := 2 }],
    .saveSnapshot { index := 2, term := 2 }]

theorem overwrittenTail_readable : ∀ v ∈ savedValues overwrittenTail, Readable messagePack v := by
  intro v hv
  change v ∈ [_, _, _, _, _, _, _, _, _] at hv
  simp only [List.mem_cons, List.not_mem_nil, or_false] at hv
  rcases hv with rfl | rfl | rfl | rfl | rfl | rfl | rfl | rfl | rfl <;> exact ⟨rfl, by decide +kernel⟩

theorem overwrittenTail_contiguous : Contiguous 0 overwrittenTail := by
  simp [Contiguous, overwrittenTail, lastSaved]

theorem wal_replay_overwritten_tail :
    Contiguous 0 overwrittenTail ∧ (.saveSnapshot { index := 2, term := 1 }) ∈ overwrittenTail ∧
      ∃ w' pre post ents, overwrittenTail = pre ++ post ∧ (∀ op ∈ post, op.Quiet (lastState pre)) ∧
        (Wal.open_ [WalFile.open_ (Wal.afterCalls messagePack crc32 0 overwrittenTail).backContent 0 0]
            { index := 2, term := 1 }).readAll messagePack crc32 = .ok (w', lastState pre, ents.map some) ∧
        (lastState pre).term = (lastState overwrittenTail).term ∧
        (lastState pre).vote = (lastState overwrittenTail).vote ∧
        ((2 < lastSaved 0 (savedEntries overwrittenTail) ∨ ∀ e ∈ savedEntries overwrittenTail, e.index ≤ 2) →
          ents = above 2 (logOf (savedEntries overwrittenTail))) := by
  have hagree : Agrees { index := 2, term := 1 } overwrittenTail := by
    intro snap hsnap _
    simp only [overwrittenTail, List.mem_cons, List.not_mem_nil, or_false, reduceCtorEq, false_or] at hsnap
    obtain rfl := WalOp.saveSnapshot.inj hsnap
    rfl
  exact ⟨overwrittenTail_contiguous, by simp [overwrittenTail],
    wal_replay messagePack crc32 0 0 overwrittenTail { index := 2, term := 1 } overwrittenTail_contiguous
      overwrittenTail_readable hagree (by simp)⟩

/-- The hard state and the entries that the next reader gets. -/
def replayed (start : WalSnapshot) (ops : List WalOp) : Option (HardState × List (Option Entry)) :=
  ((Wal.open_ [WalFile.open_ (Wal.afterCalls messagePack crc32 0 ops).backContent 0 0] start).readAll messagePack
    crc32).toOption.map Prod.snd

/-- A commit index that changed alone waits in the buffer and is lost; and entries that were
discarded by an overwrite at the index of the snapshot come back. -/
theorem last_write_lost :
    (Contiguous 0 overwrittenTail ∧
      (replayed { index := 2, term := 1 } overwrittenTail).map Prod.fst ≠ some (lastState overwrittenTail)) ∧
    Contiguous 0 overwrittenSnapshot ∧
      (replayed { index := 2, term := 2 } overwrittenSnapshot).map Prod.snd =
        some [some { term := 1, index := 3 }] ∧
      above 2 (logOf (savedEntries overwrittenSnapshot)) = [] := by
  refine ⟨⟨overwrittenTail_contiguous, by decide +kernel⟩, ?_, by decide +kernel, by decide⟩
  simp [Contiguous, overwrittenSnapshot, lastSaved]

end RaftEtcd
