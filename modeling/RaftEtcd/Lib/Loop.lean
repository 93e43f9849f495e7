import Mathlib.Init

/-! Loops that repeat a round until the round says that it is done: what such a loop does, and how many rounds are
enough. -/
namespace Loop
variable {ε β : Type} {round : β → Except ε (β × Bool)} {b b' : β} {out : Except ε β}

/-- The outcome of the loop, however many rounds it takes. -/
inductive Repeats (round : β → Except ε (β × Bool)) : β → Except ε β → Prop
  | fails {b : β} {e : ε} (failed : round b = .error e) : Repeats round b (.error e)
  | stops {b b' : β} (done : round b = .ok (b', false)) : Repeats round b (.ok b')
  | again {b b' : β} {out : Except ε β} (more : round b = .ok (b', true)) (rest : Repeats round b' out) :
      Repeats round b out

/-- The loop with a bound on its rounds. -/
def repeatFor (spent : ε) (round : β → Except ε (β × Bool)) : Nat → β → Except ε β
  | 0, _ => .error spent
  | n + 1, b =>
      match round b with
      | .error e => .error e
      | .ok (b', false) => .ok b'
      | .ok (b', true) => repeatFor spent round n b'

/-- A measure that every further round lowers bounds the rounds. -/
theorem repeatFor_repeats {I : β → Prop} {μ : β → Nat} (spent : ε)
    (hround : ∀ b b', I b → round b = .ok (b', true) → I b' ∧ μ b' < μ b) {n : Nat} (hb : I b) (hn : μ b < n) :
    Repeats round b (repeatFor spent round n b) := by
  induction n generalizing b with
  | zero => exact absurd hn (Nat.not_lt_zero _)
  | succ n ih =>
      rw [repeatFor]
      split
      · rename_i e h
        exact .fails h
      · rename_i b' h
        exact .stops h
      · rename_i b' h
        obtain ⟨hb', hlt⟩ := hround b b' hb h
        exact .again h (ih hb' (by omega))

/-- A loop whose rounds do not fail returns. -/
theorem Repeats.returns {I : β → Prop} (hok : ∀ b, I b → ∃ b' more, round b = .ok (b', more))
    (hkeep : ∀ b b', I b → round b = .ok (b', true) → I b') (hb : I b) (h : Repeats round b out) : ∃ b', out = .ok b' := by
  induction h with
  | fails failed =>
      obtain ⟨b', more, hround⟩ := hok _ hb
      rw [hround] at failed
      cases failed
  | stops done => exact ⟨_, rfl⟩
  | again more _ ih => exact ih (hkeep _ _ hb more)

/-- A loop that returns has stopped on its last round. -/
theorem Repeats.done (h : Repeats round b (.ok b')) : ∃ b₁, round b₁ = .ok (b', false) := by
  generalize hout : Except.ok b' = out at h
  induction h with
  | fails failed => cases hout
  | @stops b b₁ done =>
      obtain rfl := Except.ok.inj hout
      exact ⟨b, done⟩
  | again _ _ ih => exact ih hout

end Loop
