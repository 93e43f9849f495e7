import Mathlib.Data.List.Basic

/-! Programs that write to something durable while they run. What was written stays when a program
fails, and a crash leaves any first part of the writes behind. -/
namespace Journal
variable {ω ε α β γ δ : Type}

/-- What a program writes, in order, and how it ends. -/
structure Prog (ω ε α : Type) where
  writes : List ω
  result : Except ε α

namespace Prog

def emit (ws : List ω) (a : α) : Prog ω ε α := ⟨ws, .ok a⟩

/-- A computation that writes nothing. -/
def ofExcept (x : Except ε α) : Prog ω ε α := ⟨[], x⟩

def andThen (p : Prog ω ε α) (f : α → Prog ω ε β) : Prog ω ε β :=
  match p.result with
  | .error e => ⟨p.writes, .error e⟩
  | .ok a => ⟨p.writes ++ (f a).writes, (f a).result⟩

instance : Monad (Prog ω ε) where
  pure a := emit [] a
  bind := andThen

instance : MonadLift (Except ε) (Prog ω ε) := ⟨ofExcept⟩

/-- How a program ends does not depend on what it writes. -/
theorem result_bind (p : Prog ω ε α) (f : α → Prog ω ε β) :
    (p >>= f).result = p.result >>= fun a => (f a).result := by
  change (p.andThen f).result = _
  unfold andThen
  cases h : p.result with
  | error e => rfl
  | ok a => rfl

theorem bind_assoc (p : Prog ω ε α) (f : α → Prog ω ε β) (g : β → Prog ω ε γ) :
    p >>= f >>= g = p >>= fun a => f a >>= g := by
  change (p.andThen f).andThen g = p.andThen fun a => (f a).andThen g
  unfold andThen
  cases hp : p.result with
  | error e => rfl
  | ok a =>
      simp only
      cases hf : (f a).result with
      | error e => rfl
      | ok b => simp only [List.append_assoc]

theorem bind_pure (p : Prog ω ε α) : (p >>= fun a => pure a) = p := by
  obtain ⟨writes, result⟩ := p
  cases result with
  | error e => rfl
  | ok a => exact congrArg (Prog.mk · (.ok a)) (List.append_nil writes)

@[simp] theorem result_pure (a : α) : (pure a : Prog ω ε α).result = .ok a := rfl

@[simp] theorem result_lift (x : Except ε α) : (liftM x : Prog ω ε α).result = x := rfl

@[simp] theorem result_ofExcept (x : Except ε α) : (ofExcept x : Prog ω ε α).result = x := rfl

@[simp] theorem result_emit (ws : List ω) (a : α) : (emit ws a : Prog ω ε α).result = .ok a := rfl

end Prog

variable (apply : δ → ω → δ)

/-- Started on `d`, a crash leaves something that `C` holds of, and a result comes with what `Q`
says of it and of the end. -/
structure Safe (C : δ → Prop) (Q : α → δ → Prop) (d : δ) (p : Prog ω ε α) : Prop where
  crash : ∀ ws, ws <+: p.writes → C (ws.foldl apply d)
  ends : ∀ a, p.result = .ok a → Q a (p.writes.foldl apply d)

namespace Safe
variable {apply} {C : δ → Prop} {Q : α → δ → Prop} {R : β → δ → Prop} {d : δ}

theorem pure {a : α} (hc : C d) (hq : Q a d) : Safe apply C Q d (Pure.pure a : Prog ω ε α) where
  crash ws h := by
    rw [List.prefix_nil.mp h]
    exact hc
  ends a' h := by
    cases h
    exact hq

theorem ofExcept {x : Except ε α} (hc : C d) (hq : ∀ a, x = .ok a → Q a d) :
    Safe apply C Q d (Prog.ofExcept x : Prog ω ε α) where
  crash ws h := by
    rw [List.prefix_nil.mp h]
    exact hc
  ends a h := hq a h

theorem emit {ws : List ω} {a : α} (hc : ∀ ws', ws' <+: ws → C (ws'.foldl apply d)) (hq : Q a (ws.foldl apply d)) :
    Safe apply C Q d (Prog.emit ws a : Prog ω ε α) where
  crash := hc
  ends a' h := by
    cases h
    exact hq

/-- What follows starts on what was left. -/
theorem bind {p : Prog ω ε α} {f : α → Prog ω ε β} (hp : Safe apply C Q d p)
    (hf : ∀ a d', p.result = .ok a → Q a d' → Safe apply C R d' (f a)) : Safe apply C R d (p >>= f) := by
  change Safe apply C R d (p.andThen f)
  unfold Prog.andThen
  split
  · exact ⟨hp.crash, nofun⟩
  · rename_i a ha
    have hq := hf a _ ha (hp.ends a ha)
    refine ⟨fun ws hws => ?_, fun b hb => ?_⟩
    · rcases List.prefix_or_prefix_of_prefix hws (List.prefix_append _ _) with hin | ⟨ws', rfl⟩
      · exact hp.crash ws hin
      · rw [List.foldl_append]
        exact hq.crash ws' ((List.prefix_append_right_inj _).mp hws)
    · rw [List.foldl_append]
      exact hq.ends b hb

theorem ite {c : Prop} [Decidable c] {p q : Prog ω ε α} (hp : c → Safe apply C Q d p) (hq : ¬ c → Safe apply C Q d q) :
    Safe apply C Q d (if c then p else q) := by
  split
  · exact hp ‹_›
  · exact hq ‹_›

end Safe

end Journal
