import Mathlib.Data.List.Basic

/-! A pointer into a buffer, and the count of elements that are left, as a text is passed in C. A read outside the
buffer, a count below zero and a loop that does not come to its end are faults. -/

inductive Fault
  | outside
  | negative
  | endless
  deriving DecidableEq, Repr

structure Pointer (α : Type) where
  buffer : List α
  pos : Nat
  left : Nat

namespace Pointer
variable {α : Type}

/-! ### Reads and steps -/

/-- `p[k]`. -/
def get (p : Pointer α) (k : Nat) : Except Fault α :=
  match p.buffer[p.pos + k]? with
  | some a => .ok a
  | none => .error .outside

/-- `p++`, and one less is left. -/
def next (p : Pointer α) : Except Fault (Pointer α) :=
  match p.left with
  | 0 => .error .negative
  | n + 1 => .ok { p with pos := p.pos + 1, left := n }

/-- `p--`, and one more is left. -/
def back (p : Pointer α) : Except Fault (Pointer α) :=
  match p.pos with
  | 0 => .error .outside
  | i + 1 => .ok { p with pos := i, left := p.left + 1 }

@[simp] theorem ok_bind {β γ : Type} (a : β) (f : β → Except Fault γ) : (Except.ok a >>= f) = f a := rfl

/-! ### What is left -/

/-- The pointer stands before `rest`, and behind that the buffer holds what is not counted. -/
structure Before (p : Pointer α) (rest behind : List α) : Prop where
  drop : p.buffer.drop p.pos = rest ++ behind
  left : p.left = rest.length

section Before
variable {p : Pointer α} {a b c : α} {rest behind : List α}

theorem before_start (rest behind : List α) : Before ⟨rest ++ behind, 0, rest.length⟩ rest behind := ⟨rfl, rfl⟩

theorem Before.get (h : p.Before rest behind) {k : Nat} {a : α} (ha : (rest ++ behind)[k]? = some a) :
    p.get k = .ok a := by
  rw [← h.drop, List.getElem?_drop] at ha
  rw [Pointer.get, ha]

theorem Before.get_head (h : p.Before (a :: rest) behind) : p.get 0 = .ok a := h.get rfl

/-- One step on, and the step back leads to where it started. -/
theorem Before.next (h : p.Before (a :: rest) behind) : ∃ q, p.next = .ok q ∧ q.Before rest behind ∧ q.back = .ok p := by
  obtain ⟨buffer, pos, left⟩ := p
  obtain ⟨hdrop, hleft⟩ := h
  obtain rfl : left = rest.length + 1 := hleft
  refine ⟨⟨buffer, pos + 1, rest.length⟩, rfl, ⟨?_, rfl⟩, rfl⟩
  have htail := congrArg List.tail hdrop
  rwa [List.tail_drop] at htail

/-- A step back that is taken back. -/
theorem back_next {q : Pointer α} (h : p.back = .ok q) : q.next = .ok p := by
  obtain ⟨buffer, pos, left⟩ := p
  cases pos with
  | zero => cases h
  | succ i =>
      cases h
      rfl

end Before

end Pointer
