import Mathlib.Data.List.Basic

/-! Patterns with wildcards: what a pattern is when it has been read, and which texts it matches. -/
namespace Glob
variable {α : Type}

/-- What a class lists: a character, or all between two of them, whichever comes first. -/
inductive Item (α : Type)
  | lit (a : α)
  | range (a b : α)

/-- What matches one character. -/
inductive Single (α : Type)
  | any
  | lit (a : α)
  | listed (negated : Bool) (items : List (Item α))

inductive Elem (α : Type)
  | star
  | one (o : Single α)

def Item.Holds [LE α] : Item α → α → Prop
  | lit a, c => a = c
  | range a b, c => a ≤ c ∧ c ≤ b ∨ b ≤ c ∧ c ≤ a

def Single.Takes [LE α] : Single α → α → Prop
  | any, _ => True
  | lit a, c => a = c
  | listed negated items, c => if negated then ∀ i ∈ items, ¬ i.Holds c else ∃ i ∈ items, i.Holds c

/-- A star matches any run of characters, everything else one. -/
def Matches [LE α] : List (Elem α) → List α → Prop
  | [], s => s = []
  | .star :: p, s => ∃ t, t <:+ s ∧ Matches p t
  | .one _ :: _, [] => False
  | .one o :: p, c :: s => o.Takes c ∧ Matches p s

section Matches
variable [LE α] {p : List (Elem α)} {s t : List α} {c : α} {o : Single α}

@[simp] theorem matches_nil_left : Matches [] s ↔ s = [] := Iff.rfl

@[simp] theorem matches_one_cons : Matches (.one o :: p) (c :: s) ↔ o.Takes c ∧ Matches p s := Iff.rfl

@[simp] theorem not_matches_one_nil : ¬ Matches (.one o :: p) ([] : List α) := id

theorem matches_star : Matches (.star :: p) s ↔ ∃ t, t <:+ s ∧ Matches p t := Iff.rfl

theorem matches_star_last (s : List α) : Matches [.star] s := ⟨[], List.nil_suffix, rfl⟩

theorem matches_star_nil : Matches (.star :: p) ([] : List α) ↔ Matches p [] := by
  constructor
  · rintro ⟨t, ht, h⟩
    rwa [List.suffix_nil.mp ht] at h
  · intro h
    exact ⟨[], List.suffix_rfl, h⟩

/-- A second star adds nothing. -/
theorem matches_star_star : Matches (.star :: .star :: p) s ↔ Matches (.star :: p) s := by
  constructor
  · rintro ⟨t, ht, u, hu, h⟩
    exact ⟨u, hu.trans ht, h⟩
  · intro h
    exact ⟨s, List.suffix_rfl, h⟩

/-- Only stars match the empty text. -/
theorem matches_nil_iff : Matches p ([] : List α) ↔ ∀ e ∈ p, e = .star := by
  induction p with
  | nil => simp
  | cons e p ih =>
      cases e with
      | star =>
          rw [matches_star_nil, ih]
          simp
      | one o => simp

end Matches

end Glob
