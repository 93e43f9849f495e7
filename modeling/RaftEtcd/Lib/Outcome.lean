import Mathlib.Init

/-! Computations that may fail: the failures that a computation does not end in, and the rules by
which this follows from its parts. -/
namespace Outcome
variable {ε α β : Type} {bad : ε → Prop}

/-- The computation returns, or fails with something that is not `bad`. -/
def Avoids (bad : ε → Prop) (x : Except ε α) : Prop := ∀ e, x = .error e → ¬ bad e

namespace Avoids

theorem ok (a : α) : Avoids bad (.ok a : Except ε α) := by
  intro e h
  cases h

theorem error {e : ε} (h : ¬ bad e) : Avoids bad (.error e : Except ε α) := by
  intro e' he
  cases he
  exact h

theorem of_ok {x : Except ε α} {a : α} (h : x = .ok a) : Avoids bad x := by
  rw [h]
  exact .ok a

theorem ite {c : Prop} [Decidable c] {x y : Except ε α} (hx : Avoids bad x) (hy : Avoids bad y) :
    Avoids bad (if c then x else y) := by
  split
  · exact hx
  · exact hy

theorem bind {x : Except ε α} {f : α → Except ε β} (hx : Avoids bad x)
    (hf : ∀ a, x = .ok a → Avoids bad (f a)) : Avoids bad (x >>= f) := by
  cases x with
  | error e =>
      intro e' he
      cases he
      exact hx e rfl
  | ok a => exact hf a rfl

theorem map {x : Except ε α} (hx : Avoids bad x) (f : α → β) : Avoids bad (f <$> x) := by
  cases x with
  | error e =>
      intro e' he
      cases he
      exact hx e rfl
  | ok a => exact .ok _

/-- A loop whose rounds keep an invariant. -/
theorem foldlM {I : β → Prop} {f : β → α → Except ε β} (hf : ∀ b a, I b → Avoids bad (f b a))
    (hkeep : ∀ b a b', I b → f b a = .ok b' → I b') (xs : List α) {b : β} (hb : I b) :
    Avoids bad (xs.foldlM f b) := by
  induction xs generalizing b with
  | nil => exact .ok b
  | cons x xs ih =>
      rw [List.foldlM_cons]
      exact (hf b x hb).bind fun b' hb' => ih (hkeep b x b' hb hb')

end Avoids

/-- What every round of a loop keeps holds at its end. -/
theorem foldlM_keeps {I : β → Prop} {f : β → α → Except ε β} (hf : ∀ b a b', I b → f b a = .ok b' → I b')
    (xs : List α) {b b' : β} (hb : I b) (h : xs.foldlM f b = .ok b') : I b' := by
  induction xs generalizing b with
  | nil =>
      rw [List.foldlM_nil] at h
      rwa [← Except.ok.inj h]
  | cons x xs ih =>
      rw [List.foldlM_cons] at h
      cases hx : f b x with
      | error e =>
          rw [hx] at h
          cases h
      | ok b₁ =>
          rw [hx] at h
          exact ih (hf b x b₁ hb hx) h

end Outcome
