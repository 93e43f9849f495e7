import RaftEtcd.Lib.Limit
import RaftEtcd.MaybeAppend

/-! A slice of a log is the same wherever its entries are kept: the limit on its size, which is applied to what
comes out of the storage and once more to the whole, acts as if the log were one list. -/
namespace RaftEtcd
open Limit

section Limits
variable {maxSize size : Nat} {es es' : List Entry}

theorem entryLimitSizeFrom_fits (hsize : size ≤ maxSize) :
    size + total Entry.serializeSize (entryLimitSizeFrom maxSize size es) ≤ maxSize := by
  induction es generalizing size with
  | nil => exact hsize
  | cons e es ih =>
      rw [entryLimitSizeFrom]
      split
      · exact hsize
      · rename_i hle
        have hrest := ih (Nat.not_lt.mp hle)
        rw [total_cons]
        omega

theorem entryLimitSizeFrom_longest {p : List Entry} (hp : p <+: es)
    (hfits : size + total Entry.serializeSize p ≤ maxSize) : p.length ≤ (entryLimitSizeFrom maxSize size es).length := by
  induction es generalizing size p with
  | nil =>
      rw [List.prefix_nil.mp hp]
      exact Nat.zero_le _
  | cons e es ih =>
      cases p with
      | nil => exact Nat.zero_le _
      | cons e' p =>
          obtain ⟨rfl, htail⟩ := List.cons_prefix_cons.mp hp
          rw [total_cons] at hfits
          rw [entryLimitSizeFrom, if_neg (by omega), List.length_cons, List.length_cons]
          exact Nat.succ_le_succ (ih htail (by omega))

theorem entryLimitSize_longest (maxSize : Nat) (es : List Entry) :
    Longest Entry.serializeSize maxSize es (entryLimitSize maxSize es) where
  initial := entryLimitSize_initial _ _
  nonempty h := by
    cases es with
    | nil => exact absurd rfl h
    | cons e es => exact List.cons_ne_nil _ _
  fits := by
    cases es with
    | nil => exact Or.inr (Nat.zero_le _)
    | cons e es =>
        by_cases hfirst : e.serializeSize ≤ maxSize
        · refine Or.inl ?_
          rw [entryLimitSize, total_cons]
          exact entryLimitSizeFrom_fits hfirst
        · -- nothing is added to a first entry that is too large
          refine Or.inr ?_
          rw [entryLimitSize]
          cases es with
          | nil => exact le_rfl
          | cons e' es =>
              rw [entryLimitSizeFrom, if_pos (by omega)]
              exact le_rfl
  longest p hp hfits := by
    cases es with
    | nil =>
        rw [List.prefix_nil.mp hp]
        exact Nat.zero_le _
    | cons e es =>
        cases p with
        | nil => exact Nat.zero_le _
        | cons e' p =>
            obtain ⟨rfl, htail⟩ := List.cons_prefix_cons.mp hp
            rw [total_cons] at hfits
            exact Nat.succ_le_succ (entryLimitSizeFrom_longest htail hfits)

theorem entryLimitSizeFrom_append (h : (entryLimitSizeFrom maxSize size es).length < es.length) :
    entryLimitSizeFrom maxSize size (es ++ es') = entryLimitSizeFrom maxSize size es := by
  induction es generalizing size with
  | nil => exact absurd h (Nat.not_lt_zero _)
  | cons e es ih =>
      rw [entryLimitSizeFrom] at h
      rw [List.cons_append, entryLimitSizeFrom, entryLimitSizeFrom]
      split
      · rfl
      · rename_i hle
        rw [if_neg hle, List.length_cons, List.length_cons] at h
        rw [ih (Nat.lt_of_succ_lt_succ h)]

/-- What comes behind the limit does not matter. -/
theorem entryLimitSize_append (h : (entryLimitSize maxSize es).length < es.length) :
    entryLimitSize maxSize (es ++ es') = entryLimitSize maxSize es := by
  cases es with
  | nil => exact absurd h (Nat.not_lt_zero _)
  | cons e es =>
      rw [entryLimitSize, List.length_cons, List.length_cons] at h
      rw [List.cons_append, entryLimitSize, entryLimitSize, entryLimitSizeFrom_append (Nat.lt_of_succ_lt_succ h)]

end Limits

/-- The entries from `low` on and below `high`. -/
def LogicalLog.slice (g : LogicalLog) (low high : Nat) : List Entry :=
  (g.entries.drop (low - g.firstIndex)).take (high - low)

namespace RaftLog
variable {l : RaftLog} {low mid high : Nat}

theorem slice_split {g : LogicalLog} (hlow : low ≤ mid) (hhigh : mid ≤ high) (hfirst : g.firstIndex ≤ low) :
    g.slice low high = g.slice low mid ++ g.slice mid high := by
  unfold LogicalLog.slice
  rw [show high - low = mid - low + (high - mid) by omega, List.take_add, List.drop_drop,
    show low - g.firstIndex + (mid - low) = mid - g.firstIndex by omega]

namespace Coupled

theorem slice_get (h : l.Coupled) (hfirst : l.firstIndex ≤ low) {k : Nat} (hk : k < high - low) :
    (l.logical.slice low high)[k]? = l.entryAt (low + k) := by
  rw [firstIndex_eq, LogicalLog.firstIndex] at hfirst
  unfold LogicalLog.slice
  rw [List.getElem?_take_of_lt hk, List.getElem?_drop, h.aligned.entries_get, LogicalLog.firstIndex]
  congr 1
  omega

/-- Below the unstable entries the slice is what the storage holds. -/
theorem slice_stored (h : l.Coupled) (hfirst : l.firstIndex ≤ low) (hhigh : high ≤ l.unstable.offset) :
    (l.storage.all.drop (low - l.storage.dummy.index)).take (high - low) = l.logical.slice low high := by
  have hdummy := h.aligned.dummy_le
  have hlow := hfirst
  rw [firstIndex_eq, LogicalLog.firstIndex] at hlow
  apply List.ext_getElem?
  intro k
  by_cases hk : k < high - low
  · rw [h.slice_get hfirst hk, entryAt, if_pos (by omega), List.getElem?_take_of_lt hk, List.getElem?_drop,
      MemoryStorage.all, show low - l.storage.dummy.index + k = low + k - l.storage.dummy.index - 1 + 1 by omega,
      List.getElem?_cons_succ]
  · rw [List.getElem?_take_eq_none (by omega), LogicalLog.slice, List.getElem?_take_eq_none (by omega)]

/-- From the first unstable entry on it is what is unstable. -/
theorem slice_unstable (h : l.Coupled) (hfirst : l.firstIndex ≤ low) (hlow : l.unstable.offset ≤ low) :
    (l.unstable.entries.drop (low - l.unstable.offset)).take (high - low) = l.logical.slice low high := by
  apply List.ext_getElem?
  intro k
  by_cases hk : k < high - low
  · rw [h.slice_get hfirst hk, entryAt, if_neg (by omega), List.getElem?_take_of_lt hk, List.getElem?_drop]
    congr 1
    omega
  · rw [List.getElem?_take_eq_none (by omega), LogicalLog.slice, List.getElem?_take_eq_none (by omega)]

/-- The unstable half adds the rest of the slice and applies the limit to the whole. -/
theorem sliceUnstable_eq (h : l.Coupled) (hfirst : l.firstIndex ≤ low) (hlt : low < high)
    (hhigh : high ≤ l.lastIndex + 1) (maxSize : Nat) :
    l.sliceUnstable low high maxSize (l.logical.slice low (min high (max low l.unstable.offset))) =
      .ok (.ok, entryLimitSize maxSize (l.logical.slice low high)) := by
  have hlen := h.aligned.length_eq
  rw [h.lastIndex_eq, LogicalLog.lastIndex] at hhigh
  have hfirst' := hfirst
  rw [firstIndex_eq] at hfirst'
  unfold sliceUnstable
  split
  · rename_i hgt
    have hslice : l.unstable.slice (max low l.unstable.offset) high =
        .ok (l.logical.slice (max low l.unstable.offset) high) := by
      unfold Unstable.slice
      rw [if_neg (by omega), if_neg (by omega),
        h.slice_unstable (hfirst.trans (le_max_left _ _)) (le_max_right _ _)]
    rw [hslice, min_eq_right (by omega)]
    simp only [bind, Except.bind]
    rw [← slice_split (le_max_left _ _) (by omega) hfirst']
  · rename_i hle
    rw [min_eq_left (by omega)]
    rfl

/-- The first limit either ends the slice or takes nothing away. -/
theorem slice_eq (h : l.Coupled) (hfirst : l.firstIndex ≤ low) (hle : low ≤ high) (hhigh : high ≤ l.lastIndex + 1)
    (maxSize : Nat) : l.slice low high maxSize [] = .ok (.ok, entryLimitSize maxSize (l.logical.slice low high)) := by
  have hcheck : l.mustCheckOutOfBounds low high = .ok .ok := by
    unfold mustCheckOutOfBounds
    rw [if_neg (by omega), if_neg (by omega), if_neg (by omega)]
  have hdummy := h.aligned.dummy_le
  have hreach := h.aligned.reaches
  have hlen := h.aligned.length_eq
  have hlow := hfirst
  rw [firstIndex_eq, LogicalLog.firstIndex] at hlow
  unfold slice
  rw [hcheck]
  simp only [bind, Except.bind, Status.isOk, Bool.not_true, Bool.false_eq_true, if_false]
  rcases Nat.eq_or_lt_of_le hle with rfl | hlt
  · rw [if_pos rfl, LogicalLog.slice, Nat.sub_self, List.take_zero]
    rfl
  rw [if_neg (by omega)]
  by_cases hoffset : low < l.unstable.offset
  · have hlast : l.unstable.offset ≤ l.storage.lastIndex + 1 := hreach.resolve_left (by omega)
    have hents : l.storage.ents ≠ [] := by
      intro hnil
      rw [MemoryStorage.lastIndex, hnil, List.length_nil] at hlast
      omega
    have hstored : l.storage.entries low (min high l.unstable.offset) maxSize [] =
        .ok (.ok, entryLimitSize maxSize (l.logical.slice low (min high l.unstable.offset))) := by
      have hwidth : min high l.unstable.offset - l.storage.dummy.index - (low - l.storage.dummy.index) =
          min high l.unstable.offset - low := by omega
      unfold MemoryStorage.entries
      rw [if_neg (by omega), if_neg (by omega), if_neg (by omega), if_neg hents, ← h.slice_stored hfirst (min_le_right _ _)]
      simp only [List.nil_append, hwidth]
    rw [if_pos hoffset, hstored]
    simp only [Bool.not_true, Bool.false_eq_true, if_false]
    have hpiece : (l.logical.slice low (min high l.unstable.offset)).length = min high l.unstable.offset - low := by
      rw [h.lastIndex_eq, LogicalLog.lastIndex] at hhigh
      rw [LogicalLog.slice, List.length_take, List.length_drop, LogicalLog.firstIndex]
      omega
    split
    · rename_i hcut
      rw [← hpiece] at hcut
      have hsplit : l.logical.slice low high = l.logical.slice low (min high l.unstable.offset) ++
          l.logical.slice (min high l.unstable.offset) high :=
        slice_split (by omega) (min_le_left _ _) hlow
      rw [hsplit, entryLimitSize_append hcut]
    · rename_i hfull
      have hall : entryLimitSize maxSize (l.logical.slice low (min high l.unstable.offset)) =
          l.logical.slice low (min high l.unstable.offset) := by
        refine (entryLimitSize_initial _ _).eq_of_length ?_
        have hle := (entryLimitSize_initial maxSize (l.logical.slice low (min high l.unstable.offset))).length_le
        omega
      rw [hall]
      have hunstable := h.sliceUnstable_eq hfirst hlt hhigh maxSize
      rwa [max_eq_right hoffset.le] at hunstable
  · rw [if_neg hoffset]
    have hunstable := h.sliceUnstable_eq hfirst hlt hhigh maxSize
    rwa [max_eq_left (Nat.not_lt.mp hoffset), min_eq_right hle, LogicalLog.slice, Nat.sub_self, List.take_zero] at hunstable

end Coupled

end RaftLog

end RaftEtcd
