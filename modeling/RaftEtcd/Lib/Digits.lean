import Mathlib.Algebra.Order.Ring.Nat
import Mathlib.Data.List.Lex

/-! Numbers written with a fixed count of digits, the highest first. Among texts of one length the order of
the texts is the order of the numbers, whatever characters stand for the digits. -/
namespace Digits

/-! ### Digits -/

/-- The `k` lowest digits of a number. -/
def fixed (b k n : Nat) : List Nat := (List.range k).reverse.map fun i => n / b ^ i % b

/-- What the digits stand for. -/
def value (b : Nat) (ds : List Nat) : Nat := ds.foldl (fun v d => v * b + d) 0

section Fixed
variable {b k n : Nat}

@[simp] theorem fixed_length : (fixed b k n).length = k := by simp [fixed]

theorem fixed_succ : fixed b (k + 1) n = n / b ^ k % b :: fixed b k n := by
  simp [fixed, List.range_succ]

theorem fixed_lt (hb : 0 < b) {d : Nat} (hd : d ∈ fixed b k n) : d < b := by
  obtain ⟨i, -, rfl⟩ := List.mem_map.mp hd
  exact Nat.mod_lt _ hb

theorem foldl_fixed (acc : Nat) : (fixed b k n).foldl (fun v d => v * b + d) acc = acc * b ^ k + n % b ^ k := by
  induction k generalizing acc with
  | zero => simp [fixed, Nat.mod_one]
  | succ k ih =>
      have hsplit : n % b ^ (k + 1) = n % b ^ k + b ^ k * (n / b ^ k % b) := Nat.mod_pow_succ
      rw [fixed_succ, List.foldl_cons, ih, hsplit, Nat.pow_succ, Nat.add_mul, Nat.mul_assoc, Nat.mul_comm b,
        Nat.mul_comm (n / b ^ k % b), Nat.add_assoc, Nat.add_comm (n % b ^ k)]

/-- The digits say which number it is. -/
theorem value_fixed (hn : n < b ^ k) : value b (fixed b k n) = n := by
  rw [value, foldl_fixed, Nat.zero_mul, Nat.zero_add, Nat.mod_eq_of_lt hn]

end Fixed

/-! ### The order of texts -/

section Order
variable {α β : Type*} {s s' t t' : List α}

theorem append_lt_append_iff [LT α] [Std.Irrefl fun x y : α => x < y] (h : s.length = s'.length) :
    s ++ t < s' ++ t' ↔ s < s' ∨ s = s' ∧ t < t' := by
  induction s generalizing s' with
  | nil =>
      rw [List.length_eq_zero_iff.mp h.symm]
      simp
  | cons a s ih =>
      cases s' with
      | nil => cases h
      | cons a' s' =>
          rw [List.cons_append, List.cons_append, List.cons_lt_cons_iff, List.cons_lt_cons_iff, ih (Nat.succ.inj h),
            List.cons.injEq]
          tauto

/-- Characters that are ordered as what they stand for leave the order of texts as it is. -/
theorem map_lt_map_iff [LinearOrder α] [LT β] [Std.Asymm fun x y : β => x < y] {f : α → β} {P : α → Prop}
    (hf : ∀ x y, P x → P y → x < y → f x < f y) (hs : ∀ x ∈ s, P x) (hs' : ∀ x ∈ s', P x) :
    s.map f < s'.map f ↔ s < s' := by
  induction s generalizing s' with
  | nil => cases s' <;> simp
  | cons a s ih =>
      cases s' with
      | nil => simp
      | cons a' s' =>
          rw [List.forall_mem_cons] at hs hs'
          rw [List.map_cons, List.map_cons, List.cons_lt_cons_iff, List.cons_lt_cons_iff, ih hs.2 hs'.2]
          rcases lt_trichotomy a a' with hlt | rfl | hgt
          · simp [hlt, hf a a' hs.1 hs'.1 hlt]
          · have hself : ¬ f a < f a := fun h => Std.Asymm.asymm _ _ h h
            simp [hself]
          · have hback := hf a' a hs'.1 hs.1 hgt
            have hnot : ¬ f a < f a' := Std.Asymm.asymm _ _ hback
            have hne : f a ≠ f a' := fun heq => hnot (heq ▸ hback)
            simp [hgt.not_gt, hgt.ne', hnot, hne]

/-- The highest digit decides, and with equal ones what is left. -/
theorem digit_lt_iff {p d e x y : Nat} (hx : x < p) (hy : y < p) : x + p * d < y + p * e ↔ d < e ∨ d = e ∧ x < y := by
  have hstep : ∀ {d e x y : Nat}, x < p → d < e → x + p * d < y + p * e := by
    intro d e x y hx hlt
    have hle := Nat.mul_le_mul_left p (Nat.succ_le_of_lt hlt)
    rw [Nat.mul_succ] at hle
    omega
  rcases lt_trichotomy d e with hlt | rfl | hgt
  · have hall := hstep (y := y) hx hlt
    simp [hlt, hall]
  · simp
  · have hback := hstep (y := x) hy hgt
    have hnot := hgt.not_gt
    have hne := hgt.ne'
    omega

/-- Digits of one count are ordered as their numbers. -/
theorem fixed_lt_fixed_iff {b k n m : Nat} (hb : 0 < b) (hn : n < b ^ k) (hm : m < b ^ k) :
    fixed b k n < fixed b k m ↔ n < m := by
  have hmod : ∀ k, fixed b k n < fixed b k m ↔ n % b ^ k < m % b ^ k := by
    intro k
    induction k with
    | zero => simp [fixed, Nat.mod_one]
    | succ k ih =>
        have hpos := Nat.pow_pos (n := k) hb
        rw [fixed_succ, fixed_succ, List.cons_lt_cons_iff, ih, Nat.mod_pow_succ, Nat.mod_pow_succ,
          digit_lt_iff (Nat.mod_lt n hpos) (Nat.mod_lt m hpos)]
  rw [hmod, Nat.mod_eq_of_lt hn, Nat.mod_eq_of_lt hm]

end Order

end Digits
