import Mathlib.Data.List.Basic

/-! A queue in a ring of slots: from a first slot on, wrapping around at the size. -/
namespace Ring
variable {α : Type} {size start m n : Nat} {buffer buffer' : List α}

def next (size i : Nat) : Nat := if i + 1 ≥ size then i + 1 - size else i + 1

/-- The slot that lies some steps behind the first one. -/
def slot (size start k : Nat) : Nat := if start + k ≥ size then start + k - size else start + k

/-- What some slots hold, from the first one on. -/
def held (buffer : List α) (size : Nat) : Nat → Nat → List α
  | _, 0 => []
  | start, n + 1 => buffer[start]?.toList ++ held buffer size (next size start) n

theorem next_lt (h : start < size) : next size start < size := by
  unfold next
  split <;> omega

theorem slot_zero (h : start < size) : slot size start 0 = start := by
  unfold slot
  rw [if_neg (by omega), Nat.add_zero]

theorem slot_lt {k : Nat} (h : start < size) (hk : k < size) : slot size start k < size := by
  unfold slot
  split <;> omega

theorem slot_next {k : Nat} (h : start < size) (hk : k < size) :
    slot size (next size start) k = slot size start (k + 1) := by
  unfold slot next
  by_cases hlast : start + 1 ≥ size
  · rw [if_pos hlast, if_neg (by omega), if_pos (by omega)]
    omega
  · rw [if_neg hlast]
    by_cases hwrap : start + 1 + k ≥ size
    · rw [if_pos hwrap, if_pos (by omega)]
      omega
    · rw [if_neg hwrap, if_neg (by omega)]
      omega

theorem slot_ne {j k : Nat} (hjk : j < k) (hk : k < size) : slot size start j ≠ slot size start k := by
  unfold slot
  split <;> split <;> omega

theorem held_congr (h : start < size) (hn : n ≤ size)
    (hsame : ∀ k < n, buffer'[slot size start k]? = buffer[slot size start k]?) :
    held buffer' size start n = held buffer size start n := by
  induction n generalizing start with
  | zero => rfl
  | succ n ih =>
      have hfirst := hsame 0 (Nat.succ_pos n)
      rw [slot_zero h] at hfirst
      rw [held, held, hfirst, ih (next_lt h) (by omega) fun k hk => ?_]
      rw [slot_next h (by omega)]
      exact hsame (k + 1) (by omega)

theorem held_add (h : start < size) (hn : m + n ≤ size) :
    held buffer size start (m + n) = held buffer size start m ++ held buffer size (slot size start m) n := by
  induction m generalizing start with
  | zero => rw [slot_zero h, Nat.zero_add, held, List.nil_append]
  | succ m ih =>
      rw [show m + 1 + n = m + n + 1 by omega, held, held, ih (next_lt h) (by omega), List.append_assoc]
      cases n with
      | zero => rfl
      | succ n => rw [slot_next h (by omega)]

theorem held_length (h : start < size) (hn : n ≤ size) (hin : ∀ k < n, slot size start k < buffer.length) :
    (held buffer size start n).length = n := by
  induction n generalizing start with
  | zero => rfl
  | succ n ih =>
      have hfirst := hin 0 (Nat.succ_pos n)
      rw [slot_zero h] at hfirst
      rw [held, List.length_append, List.getElem?_eq_getElem hfirst, Option.toList_some, List.length_singleton,
        ih (next_lt h) (by omega) fun k hk => ?_, Nat.add_comm]
      rw [slot_next h (by omega)]
      exact hin (k + 1) (by omega)

/-- The slot behind the last one takes a new value. -/
theorem held_push (h : start < size) (hn : n < size) (hin : slot size start n < buffer.length) (a : α) :
    held (buffer.set (slot size start n) a) size start (n + 1) = held buffer size start n ++ [a] := by
  rw [held_add h (by omega), held, held, List.append_nil, List.getElem?_set_self hin, Option.toList_some]
  congr 1
  refine held_congr h (Nat.le_of_lt hn) fun k hk => ?_
  rw [List.getElem?_set_ne (slot_ne hk hn).symm]

theorem slot_eq_mod {k : Nat} (h : start < size) (hk : k < size) : slot size start k = (start + k) % size := by
  unfold slot
  split
  · rw [Nat.mod_eq_sub_mod (by omega), Nat.mod_eq_of_lt (by omega)]
  · rw [Nat.mod_eq_of_lt (by omega)]

/-- The slots are read one after the other. -/
theorem held_getElem? {k : Nat} (h : start < size) (hn : n ≤ size) (hin : ∀ j < n, slot size start j < buffer.length)
    (hk : k < n) : (held buffer size start n)[k]? = buffer[slot size start k]? := by
  induction n generalizing start k with
  | zero => omega
  | succ n ih =>
      have hfirst := hin 0 (Nat.succ_pos n)
      rw [slot_zero h] at hfirst
      rw [held, List.getElem?_eq_getElem hfirst, Option.toList_some, List.singleton_append]
      cases k with
      | zero => rw [List.getElem?_cons_zero, slot_zero h, List.getElem?_eq_getElem hfirst]
      | succ k =>
          rw [List.getElem?_cons_succ, ih (next_lt h) (by omega) (fun j hj => ?_) (by omega), slot_next h (by omega)]
          rw [slot_next h (by omega)]
          exact hin (j + 1) (by omega)

end Ring
