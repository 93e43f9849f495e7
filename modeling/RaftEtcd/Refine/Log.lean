import RaftEtcd.Lib.Consensus.Basic
import RaftEtcd.RaftLog

/-! The operations of `RaftLog` as operations on one list, for a log that was never compacted. -/
namespace RaftEtcd
open Consensus

/-- The entries carry consecutive indexes from `start` on. -/
def IndexedFrom (start : Nat) (l : List Entry) : Prop := ∀ k e, l[k]? = some e → e.index = start + k

theorem IndexedFrom.nil (start : Nat) : IndexedFrom start [] := by
  intro k e h
  simp at h

theorem IndexedFrom.cons {start : Nat} {e : Entry} {l : List Entry} (h : IndexedFrom start (e :: l)) :
    e.index = start ∧ IndexedFrom (start + 1) l := by
  refine ⟨h 0 e rfl, ?_⟩
  intro k e' hk
  have := h (k + 1) e' hk
  omega

theorem IndexedFrom.take {start : Nat} {l : List Entry} (h : IndexedFrom start l) (n : Nat) :
    IndexedFrom start (l.take n) := by
  intro k e hk
  rw [List.getElem?_take] at hk
  split at hk
  · exact h k e hk
  · cases hk

theorem IndexedFrom.drop {start : Nat} {l : List Entry} (h : IndexedFrom start l) (n : Nat) :
    IndexedFrom (start + n) (l.drop n) := by
  intro k e hk
  rw [List.getElem?_drop] at hk
  have := h _ e hk
  omega

theorem IndexedFrom.append {start : Nat} {l l' : List Entry} (h : IndexedFrom start l)
    (h' : IndexedFrom (start + l.length) l') : IndexedFrom start (l ++ l') := by
  intro k e hk
  by_cases hlt : k < l.length
  · rw [List.getElem?_append_left hlt] at hk
    exact h k e hk
  · rw [List.getElem?_append_right (by omega)] at hk
    have := h' _ e hk
    omega

theorem IndexedFrom.of_initial {start : Nat} {l l' : List Entry} (h : IndexedFrom start l') (hp : l <+: l') :
    IndexedFrom start l := by
  rw [List.prefix_iff_eq_take.mp hp]
  exact h.take _

theorem IndexedFrom.filter_lt {start : Nat} {l : List Entry} (h : IndexedFrom start l) (i : Nat) :
    l.filter (·.index < i) = l.take (i - start) := by
  induction l generalizing start with
  | nil => simp
  | cons e l ih =>
      have he : e.index = start := h 0 e rfl
      have htail := ih h.cons.2
      by_cases hi : start < i
      · obtain ⟨k, hk⟩ : ∃ k, i - start = k + 1 := ⟨i - start - 1, by omega⟩
        rw [List.filter_cons_of_pos (by simpa [he] using hi), htail, hk, List.take_succ_cons]
        congr 2
        omega
      · rw [List.filter_cons_of_neg (by simpa [he] using hi), htail]
        rw [show i - start = 0 by omega, show i - (start + 1) = 0 by omega]
        rfl

theorem IndexedFrom.filter_gt {start : Nat} {l : List Entry} (h : IndexedFrom start l) (s : Nat) :
    l.filter (s < ·.index) = l.drop (s + 1 - start) := by
  induction l generalizing start with
  | nil => simp
  | cons e l ih =>
      have he : e.index = start := h 0 e rfl
      have htail := ih h.cons.2
      by_cases hs : s < start
      · rw [List.filter_cons_of_pos (by simpa [he] using hs), htail, show s + 1 - start = 0 by omega,
          show s + 1 - (start + 1) = 0 by omega]
        rfl
      · obtain ⟨k, hk⟩ : ∃ k, s + 1 - start = k + 1 := ⟨s - start, by omega⟩
        rw [List.filter_cons_of_neg (by simpa [he] using hs), htail, hk, List.drop_succ_cons]
        congr 1
        omega

theorem Unstable.slice_cases {u : Unstable} {low high : Nat} {es : List Entry} (h : u.slice low high = .ok es) :
    low < high ∧ u.offset ≤ low ∧ high ≤ u.offset + u.entries.length ∧
      es = (u.entries.drop (low - u.offset)).take (high - low) := by
  unfold Unstable.slice at h
  split at h
  · cases h
  split at h
  · cases h
  · exact ⟨by omega, by omega, by omega, (Except.ok.inj h).symm⟩

namespace RaftLog

/-- A log that was never compacted, with the unstable entries at the right place. -/
structure Whole (l : RaftLog) : Prop where
  dummy_index : l.storage.dummy.index = 0
  dummy_term : l.storage.dummy.term = 0
  stored_snapshot : l.storage.snapshot = {}
  no_snapshot : l.unstable.snapshot = none
  offset_pos : 1 ≤ l.unstable.offset
  offset_le : l.unstable.offset ≤ l.storage.ents.length + 1
  offset_eq : l.unstable.entries = [] → l.unstable.offset = l.storage.ents.length + 1
  stored : IndexedFrom 1 l.storage.ents
  indexed : IndexedFrom 1 l.log
  committed_le : l.committed ≤ l.log.length

variable {l l' : RaftLog}

theorem Whole.log_eq (h : l.Whole) :
    l.log = l.storage.ents.take (l.unstable.offset - 1) ++ l.unstable.entries := by
  rw [log, MemoryStorage.firstIndex, h.dummy_index]

theorem Whole.length_log (h : l.Whole) : l.log.length = l.unstable.offset - 1 + l.unstable.entries.length := by
  have := h.offset_le
  rw [h.log_eq, List.length_append, List.length_take]
  omega

theorem Whole.firstIndex_eq (h : l.Whole) : l.firstIndex = 1 := by
  rw [firstIndex, Unstable.maybeFirstIndex, h.no_snapshot]
  simp only [Option.map_none, MemoryStorage.firstIndex, h.dummy_index]

theorem Whole.lastIndex_eq (h : l.Whole) : l.lastIndex = l.log.length := by
  have h1 := h.offset_pos
  rw [h.length_log, lastIndex, Unstable.maybeLastIndex]
  by_cases he : l.unstable.entries = []
  · rw [if_neg (by simpa using he), h.no_snapshot]
    have h2 := h.offset_eq he
    simp only [Option.map_none, MemoryStorage.lastIndex, h.dummy_index, he, List.length_nil]
    omega
  · rw [if_pos he]
    simp only
    omega

/-- Positions below the offset are read from the storage. -/
theorem Whole.get_stored (h : l.Whole) {i : Nat} (hi : i + 1 < l.unstable.offset) :
    l.log[i]? = l.storage.ents[i]? := by
  have := h.offset_le
  rw [h.log_eq, List.getElem?_append_left (by rw [List.length_take]; omega), List.getElem?_take_of_lt (by omega)]

/-- The others from the unstable entries. -/
theorem Whole.get_unstable (h : l.Whole) {i : Nat} (hi : l.unstable.offset ≤ i + 1) :
    l.log[i]? = l.unstable.entries[i + 1 - l.unstable.offset]? := by
  have h1 := h.offset_pos
  have h2 := h.offset_le
  have hlen : (l.storage.ents.take (l.unstable.offset - 1)).length = l.unstable.offset - 1 := by
    rw [List.length_take]
    omega
  rw [h.log_eq, List.getElem?_append_right (by omega), hlen]
  congr 1
  omega

theorem Whole.term_eq (h : l.Whole) (i : Nat) : l.term i = .ok (termAt Entry.term l.log i) := by
  rw [term, h.firstIndex_eq, h.lastIndex_eq]
  split
  · rename_i hout
    rw [termAt_eq_zero (by omega)]
  rename_i hin
  have hi : i ≤ l.log.length := by omega
  by_cases hlt : i < l.unstable.offset
  · have hnone : l.unstable.maybeTerm i = none := by
      rw [Unstable.maybeTerm, if_pos hlt, h.no_snapshot]
    rw [hnone, MemoryStorage.term, h.dummy_index, if_neg (Nat.not_lt_zero _), MemoryStorage.all]
    cases i with
    | zero => simp [h.dummy_term]
    | succ k =>
        have hk : k < l.storage.ents.length := by
          have := h.offset_le
          omega
        rw [termAt_succ, h.get_stored hlt, Nat.sub_zero, List.getElem?_cons_succ,
          List.getElem?_eq_getElem hk]
        rfl
  · obtain ⟨k, rfl⟩ : ∃ k, i = k + 1 := ⟨i - 1, by have := h.offset_pos; omega⟩
    have hlen := h.length_log
    have hpos := h.offset_pos
    have hk : k + 1 - l.unstable.offset < l.unstable.entries.length := by omega
    have hlast : l.unstable.maybeLastIndex = some (l.unstable.offset + l.unstable.entries.length - 1) := by
      rw [Unstable.maybeLastIndex, if_pos (List.ne_nil_of_length_pos (by omega))]
    have hterm : l.unstable.maybeTerm (k + 1) =
        some (l.unstable.entries[k + 1 - l.unstable.offset].term) := by
      rw [Unstable.maybeTerm, if_neg hlt, hlast]
      simp only
      rw [if_neg (by omega), List.getElem?_eq_getElem hk]
      rfl
    rw [hterm, termAt_succ, h.get_unstable (by omega), List.getElem?_eq_getElem hk]
    rfl

theorem Whole.matchTerm_iff (h : l.Whole) (i t : Nat) :
    l.matchTerm i t = true ↔ t = termAt Entry.term l.log i := by
  rw [matchTerm, h.term_eq]
  exact beq_iff_eq

theorem Whole.lastTerm_eq (h : l.Whole) : l.lastTerm = .ok (Consensus.lastTerm Entry.term l.log) := by
  rw [RaftLog.lastTerm, h.term_eq, h.lastIndex_eq]
  rfl

/-- The unstable half of `slice` adds a piece of the log and may then cut the whole. -/
theorem Whole.sliceUnstable_spec (h : l.Whole) {low high maxSize : Nat} {out : List Entry}
    (hlow : 1 ≤ low) (hlt : low < high) (hhigh : high ≤ l.log.length + 1)
    (hout : out = (l.log.drop (low - 1)).take (min high l.unstable.offset - low)) :
    ∃ es, l.sliceUnstable low high maxSize out = .ok (.ok, es) ∧ es <+: l.log.drop (low - 1) := by
  have hlen := h.length_log
  have hpos := h.offset_pos
  have hle := h.offset_le
  rw [sliceUnstable]
  by_cases hgt : high > l.unstable.offset
  · have hslice : l.unstable.slice (max low l.unstable.offset) high =
        .ok ((l.unstable.entries.drop (max low l.unstable.offset - l.unstable.offset)).take
          (high - max low l.unstable.offset)) := by
      rw [Unstable.slice, if_neg (by omega), if_neg (by omega)]
    rw [if_pos hgt, hslice]
    refine ⟨_, rfl, (entryLimitSize_initial _ _).trans ?_⟩
    have hun : l.unstable.entries = l.log.drop (l.unstable.offset - 1) := by
      rw [h.log_eq, List.drop_append_of_le_length (by rw [List.length_take]; omega), List.drop_eq_nil_of_le
        (by rw [List.length_take]; omega), List.nil_append]
    rw [hout, hun, List.drop_drop]
    rcases le_total low l.unstable.offset with hlo | hlo
    · have h1 : min high l.unstable.offset - low = l.unstable.offset - low := by omega
      have h2 : l.unstable.offset - 1 + (max low l.unstable.offset - l.unstable.offset) =
          low - 1 + (l.unstable.offset - low) := by omega
      rw [h1, h2, ← List.drop_drop, ← List.take_add]
      exact List.take_prefix _ _
    · have h1 : min high l.unstable.offset - low = 0 := by omega
      have h2 : l.unstable.offset - 1 + (max low l.unstable.offset - l.unstable.offset) = low - 1 := by omega
      rw [h1, h2, List.take_zero, List.nil_append]
      exact List.take_prefix _ _
  · rw [if_neg hgt]
    refine ⟨_, rfl, (entryLimitSize_initial _ _).trans ?_⟩
    rw [hout]
    exact List.take_prefix _ _

/-- A slice inside the log never fails and is a piece of it, cut by the size limit only. -/
theorem Whole.slice_spec (h : l.Whole) {low high : Nat} (maxSize : Nat) (hlow : 1 ≤ low) (hle : low ≤ high)
    (hhigh : high ≤ l.log.length + 1) :
    ∃ es, l.slice low high maxSize [] = .ok (.ok, es) ∧ es <+: l.log.drop (low - 1) := by
  have hcheck : l.mustCheckOutOfBounds low high = .ok .ok := by
    rw [mustCheckOutOfBounds, h.firstIndex_eq, h.lastIndex_eq, if_neg (by omega), if_neg (by omega),
      if_neg (by omega)]
  have hoff := h.offset_le
  rw [slice, hcheck]
  simp only [bind, Except.bind, Status.isOk, Bool.not_true, Bool.false_eq_true, if_false]
  rcases Nat.eq_or_lt_of_le hle with rfl | hlt
  · rw [if_pos rfl]
    exact ⟨[], rfl, List.nil_prefix⟩
  rw [if_neg (by omega)]
  by_cases hst : low < l.unstable.offset
  · have hne : l.storage.ents ≠ [] := by
      intro he
      rw [he, List.length_nil] at hoff
      omega
    have hstored : (l.storage.all.drop low).take (min high l.unstable.offset - low) =
        (l.log.drop (low - 1)).take (min high l.unstable.offset - low) := by
      obtain ⟨k, rfl⟩ : ∃ k, low = k + 1 := ⟨low - 1, by omega⟩
      rw [MemoryStorage.all, List.drop_succ_cons, h.log_eq, Nat.add_sub_cancel,
        List.drop_append_of_le_length (by rw [List.length_take]; omega), List.take_append_of_le_length
        (by rw [List.length_drop, List.length_take]; omega), List.drop_take, List.take_take]
      congr 1
      omega
    have hent : l.storage.entries low (min high l.unstable.offset) maxSize [] =
        .ok (.ok, entryLimitSize maxSize
          ((l.log.drop (low - 1)).take (min high l.unstable.offset - low))) := by
      rw [MemoryStorage.entries, if_neg (by omega), h.dummy_index, if_neg (Nat.not_lt_zero _),
        MemoryStorage.lastIndex, h.dummy_index, if_neg (by omega), if_neg hne]
      simp only [Nat.sub_zero, List.nil_append, hstored]
    rw [if_pos hst, hent]
    simp only [Bool.not_true, Bool.false_eq_true, if_false]
    have hpre := entryLimitSize_initial maxSize ((l.log.drop (low - 1)).take (min high l.unstable.offset - low))
    split
    · exact ⟨_, rfl, hpre.trans (List.take_prefix _ _)⟩
    · rename_i hfull
      have hall := hpre.eq_of_length (le_antisymm hpre.length_le
        ((List.length_take_le _ _).trans (Nat.not_lt.mp hfull)))
      exact h.sliceUnstable_spec hlow hlt hhigh hall
  · rw [if_neg hst]
    refine h.sliceUnstable_spec hlow hlt hhigh ?_
    rw [show min high l.unstable.offset - low = 0 by omega, List.take_zero]

theorem Whole.entries_spec (h : l.Whole) {index : Nat} (maxSize : Nat) (hi : 1 ≤ index) :
    ∃ es, l.entries index maxSize [] = .ok (.ok, es) ∧ es <+: l.log.drop (index - 1) := by
  rw [entries, h.lastIndex_eq]
  split
  · exact ⟨[], rfl, List.nil_prefix⟩
  · exact h.slice_spec maxSize hi (by omega) le_rfl

/-- An append replaces everything from the index of its first entry on. -/
theorem Whole.append_spec (h : l.Whole) {s : Nat} {ents : List Entry} (hs : 1 ≤ s) (hne : ents ≠ [])
    (hidx : IndexedFrom s ents) (ha : l.append ents = .ok l') :
    l'.Whole ∧ l'.log = l.log.take (s - 1) ++ ents ∧ s - 1 ≤ l.log.length ∧ l.committed ≤ s - 1 ∧
      l'.committed = l.committed ∧ l'.storage = l.storage := by
  obtain ⟨e, es, rfl⟩ := List.exists_cons_of_ne_nil hne
  have hes : e.index = s := hidx.cons.1
  have hpos := h.offset_pos
  have hle := h.offset_le
  have hlen := h.length_log
  rw [append] at ha
  simp only [hes] at ha
  split at ha
  · cases ha
  rename_i hcom
  -- the three ways of `truncateAndAppend`: at the end, below the unstable entries, among them
  obtain ⟨u, hu, hl'⟩ : ∃ u, l.unstable.truncateAndAppend (e :: es) = .ok u ∧ l' = { l with unstable := u } := by
    cases hu : l.unstable.truncateAndAppend (e :: es) with
    | error x =>
        rw [hu] at ha
        cases ha
    | ok u =>
        rw [hu] at ha
        exact ⟨u, rfl, (Except.ok.inj ha).symm⟩
  have hshape : u.snapshot = none ∧ u.entries ≠ [] ∧ 1 ≤ u.offset ∧ u.offset ≤ l.storage.ents.length + 1 ∧
      l.storage.ents.take (u.offset - 1) ++ u.entries = l.log.take (s - 1) ++ (e :: es) ∧
      s - 1 ≤ l.log.length := by
    rw [Unstable.truncateAndAppend] at hu
    simp only [hes] at hu
    split at hu
    · rename_i hend
      obtain rfl := Except.ok.inj hu
      refine ⟨h.no_snapshot, by simp, hpos, hle, ?_, by omega⟩
      rw [← List.append_assoc, ← h.log_eq, List.take_of_length_le (by omega)]
    · split at hu
      · obtain rfl := Except.ok.inj hu
        refine ⟨h.no_snapshot, by simp, hs, (by omega : s ≤ l.storage.ents.length + 1), ?_, by omega⟩
        rw [h.log_eq, List.take_append_of_le_length (by rw [List.length_take]; omega), List.take_take,
          Nat.min_eq_left (by omega)]
      · obtain ⟨kept, hkept, hu⟩ := bind_ok hu
        obtain ⟨-, -, hin, rfl⟩ := Unstable.slice_cases hkept
        obtain rfl := Except.ok.inj hu
        refine ⟨h.no_snapshot, by simp, hpos, hle, ?_, by omega⟩
        have hsplit : s - 1 = l.unstable.offset - 1 + (s - l.unstable.offset) := by omega
        rw [h.log_eq, Nat.sub_self, List.drop_zero, ← List.append_assoc, hsplit, List.take_append]
        simp only [List.length_take, List.take_take]
        congr 2
        · congr 1
          omega
        · congr 1
          omega
  obtain ⟨hsnap, hue, huo, hul, hlog, hsl⟩ := hshape
  have hlog' : l'.log = l.log.take (s - 1) ++ (e :: es) := by
    rw [log, hl', ← hlog, MemoryStorage.firstIndex, h.dummy_index]
  have htake : (l.log.take (s - 1)).length = s - 1 := by
    rw [List.length_take]
    omega
  subst hl'
  refine ⟨⟨h.dummy_index, h.dummy_term, h.stored_snapshot, hsnap, huo, hul, fun he => absurd he hue, h.stored,
    ?_, ?_⟩, hlog', hsl, by omega, rfl, rfl⟩
  · rw [hlog']
    refine (h.indexed.take _).append ?_
    rwa [htake, show 1 + (s - 1) = s by omega]
  · rw [hlog', List.length_append, htake]
    simp only
    omega

/-- The scan for a conflict stops at the first entry that the log does not hold. -/
theorem Whole.findConflict_spec (h : l.Whole) (prev : Nat) (ents : List Entry)
    (hidx : IndexedFrom (prev + 1) ents) :
    (l.findConflict ents = 0 ∧
        ∀ j, 1 ≤ j → j ≤ ents.length → termAt Entry.term l.log (prev + j) = termAt Entry.term ents j) ∨
      ∃ k, k < ents.length ∧ l.findConflict ents = prev + k + 1 ∧
        (∀ j, 1 ≤ j → j ≤ k → termAt Entry.term l.log (prev + j) = termAt Entry.term ents j) ∧
        termAt Entry.term l.log (prev + k + 1) ≠ termAt Entry.term ents (k + 1) := by
  induction ents generalizing prev with
  | nil =>
      refine Or.inl ⟨rfl, ?_⟩
      intro j h1 h2
      simp only [List.length_nil] at h2
      omega
  | cons e es ih =>
      obtain ⟨he, hes⟩ := hidx.cons
      have hfirst : termAt Entry.term (e :: es) 1 = e.term := rfl
      have hnext : ∀ j, 1 ≤ j → termAt Entry.term (e :: es) (j + 1) = termAt Entry.term es j := by
        intro j h1
        obtain ⟨i, rfl⟩ : ∃ i, j = i + 1 := ⟨j - 1, by omega⟩
        rw [termAt_succ, termAt_succ, List.getElem?_cons_succ]
      rw [findConflict, he]
      by_cases hm : e.term = termAt Entry.term l.log (prev + 1)
      · rw [(h.matchTerm_iff _ _).mpr hm]
        simp only [Bool.not_true, Bool.false_eq_true, if_false]
        -- the matches of the tail, moved by one
        have hshift : ∀ n, (∀ j, 1 ≤ j → j ≤ n →
            termAt Entry.term l.log (prev + 1 + j) = termAt Entry.term es j) →
            ∀ j, 1 ≤ j → j ≤ n + 1 → termAt Entry.term l.log (prev + j) = termAt Entry.term (e :: es) j := by
          intro n htail j h1 h2
          rcases Nat.eq_or_lt_of_le h1 with rfl | hgt
          · rw [hfirst, hm]
          · obtain ⟨i, rfl⟩ : ∃ i, j = i + 1 := ⟨j - 1, by omega⟩
            rw [hnext i (by omega), ← htail i (by omega) (by omega)]
            congr 1
            omega
        rcases ih (prev + 1) hes with ⟨h0, hall⟩ | ⟨k, hk, hc, hall, hne⟩
        · exact Or.inl ⟨h0, hshift _ hall⟩
        · refine Or.inr ⟨k + 1, by simp only [List.length_cons]; omega, by omega, hshift k hall, ?_⟩
          rw [hnext (k + 1) (by omega), show prev + (k + 1) + 1 = prev + 1 + k + 1 by omega]
          exact hne
      · have hfalse : l.matchTerm (prev + 1) e.term = false :=
          Bool.eq_false_iff.mpr fun ht => hm ((h.matchTerm_iff _ _).mp ht)
        rw [hfalse]
        simp only [Bool.not_false, if_true]
        refine Or.inr ⟨0, by simp, rfl, ?_, ?_⟩
        · intro j h1 h2
          omega
        · rw [hfirst]
          exact fun heq => hm heq.symm

theorem commitTo_spec (h : l.Whole) {c : Nat} (hc : l.commitTo c = .ok l') :
    l' = { l with committed := max l.committed c } ∧ max l.committed c ≤ l.log.length := by
  have hle := h.committed_le
  rw [commitTo, h.lastIndex_eq] at hc
  split at hc
  · split at hc
    · cases hc
    · obtain rfl := Except.ok.inj hc
      rw [max_eq_right (by omega)]
      exact ⟨rfl, by omega⟩
  · obtain rfl := Except.ok.inj hc
    rw [max_eq_left (by omega)]
    exact ⟨rfl, by omega⟩

theorem Whole.withCommitted (h : l.Whole) {c : Nat} (hc : c ≤ l.log.length) :
    ({ l with committed := c } : RaftLog).Whole :=
  ⟨h.dummy_index, h.dummy_term, h.stored_snapshot, h.no_snapshot, h.offset_pos, h.offset_le, h.offset_eq,
    h.stored, h.indexed, hc⟩

/-- Accepted entries are merged into the log; rejected ones leave it alone. -/
theorem Whole.maybeAppend_spec (h : l.Whole) {index logTerm committed : Nat} {ents : List Entry} {ok : Option Nat}
    (hidx : IndexedFrom (index + 1) ents)
    (hm : l.maybeAppend index logTerm committed ents = .ok (l', ok)) :
    (ok = none ∧ l' = l) ∨
      (ok = some (index + ents.length) ∧ l'.Whole ∧ l'.storage = l.storage ∧
        termAt Entry.term l.log index = logTerm ∧ Merge Entry.term l.log index ents l.committed l'.log ∧
        l'.committed = max l.committed (min committed (index + ents.length)) ∧
        min committed (index + ents.length) ≤ l'.log.length) := by
  rw [maybeAppend] at hm
  by_cases hmatch : l.matchTerm index logTerm = true
  · rw [if_pos hmatch] at hm
    -- the log after the entries have been taken over, before the commit index moves
    obtain ⟨l₁, h₁, hrest⟩ : ∃ l₁ : RaftLog, (l₁.Whole ∧ l₁.storage = l.storage ∧ l₁.committed = l.committed ∧
        Merge Entry.term l.log index ents l.committed l₁.log) ∧
        (do let l ← l₁.commitTo (min committed (index + ents.length))
            .ok (l, some (index + ents.length)) : Result (RaftLog × Option Nat)) = .ok (l', ok) := by
      rcases h.findConflict_spec index ents hidx with ⟨h0, hall⟩ | ⟨k, hk, hc, hall, hne⟩
      · rw [h0] at hm
        exact ⟨l, ⟨h, rfl, rfl, .same hall⟩, hm⟩
      · rw [hc] at hm
        simp only [Nat.add_eq_zero_iff, Nat.one_ne_zero, and_false, if_false] at hm
        by_cases hcom : index + k + 1 ≤ l.committed
        · rw [if_pos hcom] at hm
          cases hm
        · rw [if_neg hcom] at hm
          have hdrop : index + k + 1 - (index + 1) = k := by omega
          rw [hdrop] at hm
          cases ha : l.append (ents.drop k) with
          | error x =>
              rw [ha] at hm
              cases hm
          | ok l₁ =>
              rw [ha] at hm
              have hidx' : IndexedFrom (index + k + 1) (ents.drop k) := by
                have := hidx.drop k
                rwa [show index + 1 + k = index + k + 1 by omega] at this
              obtain ⟨hw, hlog, -, hcm, hceq, hst⟩ := h.append_spec (by omega)
                (by rw [Ne, List.drop_eq_nil_iff]; omega) hidx' ha
              refine ⟨l₁, ⟨hw, hst, hceq, ?_⟩, hm⟩
              rw [hlog]
              exact .graft k hk hall hne hcm
    obtain ⟨hw, hst, hceq, hmerge⟩ := h₁
    cases hcm : l₁.commitTo (min committed (index + ents.length)) with
    | error x =>
        rw [hcm] at hrest
        cases hrest
    | ok l₂ =>
        rw [hcm] at hrest
        obtain ⟨rfl, rfl⟩ := Prod.mk.inj (Except.ok.inj hrest)
        obtain ⟨rfl, hb⟩ := commitTo_spec hw hcm
        refine Or.inr ⟨rfl, hw.withCommitted hb, hst, ((h.matchTerm_iff _ _).mp hmatch).symm, hmerge, ?_, ?_⟩
        · simp only [hceq]
        · exact le_trans (le_max_right _ _) hb
  · rw [if_neg hmatch] at hm
    obtain ⟨rfl, rfl⟩ := Prod.mk.inj (Except.ok.inj hm)
    exact Or.inl ⟨rfl, rfl⟩

end RaftLog

end RaftEtcd
