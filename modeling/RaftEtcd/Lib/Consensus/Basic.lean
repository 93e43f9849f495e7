import Mathlib.Data.Finset.Card
import Mathlib.Data.List.TakeDrop

/-! Majorities of a finite set of voters, and logs whose entries carry a term. Positions in a log
count from 1; position 0 and every position beyond the end have term 0. -/
namespace Consensus

section Majority
variable {ι : Type*} [DecidableEq ι]

/-- More than half of the voters, and nobody else. -/
def Majority (voters Q : Finset ι) : Prop := Q ⊆ voters ∧ voters.card < 2 * Q.card

theorem Majority.meet {voters Q R : Finset ι} (hQ : Majority voters Q) (hR : Majority voters R) :
    ∃ m, m ∈ Q ∧ m ∈ R := by
  have hle : (Q ∪ R).card ≤ voters.card := Finset.card_le_card (Finset.union_subset hQ.1 hR.1)
  have hsum := Finset.card_union_add_card_inter Q R
  have hpos : 0 < (Q ∩ R).card := by
    have := hQ.2
    have := hR.2
    omega
  obtain ⟨m, hm⟩ := Finset.card_pos.mp hpos
  exact ⟨m, (Finset.mem_inter.mp hm).1, (Finset.mem_inter.mp hm).2⟩

omit [DecidableEq ι] in
/-- With two voters or more no majority consists of one node alone. -/
theorem Majority.exists_ne {voters Q : Finset ι} (hQ : Majority voters Q) (hv : 2 ≤ voters.card) (n : ι) :
    ∃ m ∈ Q, m ≠ n := by
  have h2 : 1 < Q.card := by
    have := hQ.2
    omega
  exact Finset.exists_mem_ne h2 n

end Majority

section Terms
variable {E : Type*} (termOf : E → ℕ)

def termAt (l : List E) (i : ℕ) : ℕ := (0 :: l.map termOf).getD i 0

/-- The term of the last entry, 0 for the empty log. -/
def lastTerm (l : List E) : ℕ := termAt termOf l l.length

variable {termOf}

@[simp] theorem termAt_zero (l : List E) : termAt termOf l 0 = 0 := rfl

theorem termAt_succ (l : List E) (i : ℕ) : termAt termOf l (i + 1) = (l[i]?.map termOf).getD 0 := by
  simp [termAt, List.getD]

theorem termAt_get {l : List E} {i : ℕ} (h : i < l.length) : termAt termOf l (i + 1) = termOf l[i] := by
  rw [termAt_succ, List.getElem?_eq_getElem h]
  rfl

theorem termAt_eq_zero {l : List E} {i : ℕ} (h : l.length < i) : termAt termOf l i = 0 := by
  obtain ⟨k, rfl⟩ : ∃ k, i = k + 1 := ⟨i - 1, by omega⟩
  rw [termAt_succ, List.getElem?_eq_none (by omega)]
  rfl

theorem termAt_append {l : List E} {i : ℕ} (h : i ≤ l.length) (l' : List E) :
    termAt termOf (l ++ l') i = termAt termOf l i := by
  cases i with
  | zero => rfl
  | succ k => rw [termAt_succ, termAt_succ, List.getElem?_append_left h]

theorem termAt_take {l : List E} {i k : ℕ} (h : i ≤ k) : termAt termOf (l.take k) i = termAt termOf l i := by
  cases i with
  | zero => rfl
  | succ j => rw [termAt_succ, termAt_succ, List.getElem?_take_of_lt h]

/-- Logs that agree on a stretch have the same terms there. -/
theorem termAt_congr {l l' : List E} {i k : ℕ} (h : l.take k = l'.take k) (hi : i ≤ k) :
    termAt termOf l i = termAt termOf l' i := by
  rw [← termAt_take hi, h, termAt_take hi]

theorem termAt_drop {l : List E} {i : ℕ} (k : ℕ) (hi : 1 ≤ i) :
    termAt termOf (l.drop k) i = termAt termOf l (k + i) := by
  obtain ⟨j, rfl⟩ : ∃ j, i = j + 1 := ⟨i - 1, by omega⟩
  rw [termAt_succ, ← Nat.add_assoc, termAt_succ, List.getElem?_drop]

theorem termAt_mem {l : List E} {i : ℕ} (h1 : 1 ≤ i) (h : i ≤ l.length) :
    ∃ e ∈ l, termAt termOf l i = termOf e := by
  obtain ⟨j, rfl⟩ : ∃ j, i = j + 1 := ⟨i - 1, by omega⟩
  exact ⟨l[j], List.getElem_mem h, termAt_get h⟩

/-- Agreement on a stretch gives agreement on every shorter one. -/
theorem take_eq_of_le {l l' : List E} {i k : ℕ} (h : l.take k = l'.take k) (hi : i ≤ k) :
    l.take i = l'.take i := by
  have := congrArg (List.take i) h
  rwa [List.take_take, List.take_take, Nat.min_eq_left hi] at this

theorem le_length_of_take_eq {l l' : List E} {i : ℕ} (h : l.take i = l'.take i) (hi : i ≤ l.length) :
    i ≤ l'.length := by
  have := congrArg List.length h
  rw [List.length_take, List.length_take] at this
  omega

theorem take_of_initial {l l' : List E} {i : ℕ} (h : l <+: l') (hi : i ≤ l.length) :
    l'.take i = l.take i := by
  obtain ⟨x, rfl⟩ := h
  exact List.take_append_of_le_length hi

theorem termAt_of_initial {l l' : List E} {i : ℕ} (h : l <+: l') (hi : i ≤ l.length) :
    termAt termOf l' i = termAt termOf l i := by
  obtain ⟨x, rfl⟩ := h
  exact termAt_append hi x

end Terms

section Grounded
variable {E : Type*} (termOf : E → ℕ)

/-- Every prefix of the log is the prefix of the log that the leader of its last term had, and
no term is above `T`. -/
def Grounded (tlog : ℕ → List E) (l : List E) (T : ℕ) : Prop :=
  ∀ i, 1 ≤ i → i ≤ l.length →
    1 ≤ termAt termOf l i ∧ termAt termOf l i ≤ T ∧ l.take i = (tlog (termAt termOf l i)).take i

variable {termOf} {tlog : ℕ → List E} {l l' : List E} {T T' i k : ℕ}

theorem Grounded.nil : Grounded termOf tlog [] T := by
  intro i h1 h2
  simp only [List.length_nil] at h2
  omega

theorem Grounded.mono (h : Grounded termOf tlog l T) (hT : T ≤ T') : Grounded termOf tlog l T' := by
  intro i h1 h2
  obtain ⟨ha, hb, hc⟩ := h i h1 h2
  exact ⟨ha, hb.trans hT, hc⟩

theorem Grounded.le_length (h : Grounded termOf tlog l T) (h1 : 1 ≤ i) (h2 : i ≤ l.length) :
    i ≤ (tlog (termAt termOf l i)).length := le_length_of_take_eq (h i h1 h2).2.2 h2

theorem Grounded.of_take (h : Grounded termOf tlog l T) (he : l'.take k = l.take k) (hk : l'.length ≤ k) :
    Grounded termOf tlog l' T := by
  intro i h1 h2
  have hi : i ≤ k := h2.trans hk
  have hterm : termAt termOf l' i = termAt termOf l i := termAt_congr he hi
  have htake := take_eq_of_le he hi
  have := h i h1 (le_length_of_take_eq htake h2)
  rw [hterm, htake]
  exact this

/-- Terms never decrease along a grounded log. -/
theorem Grounded.termAt_mono (hl : ∀ t, Grounded termOf tlog (tlog t) t) (h : Grounded termOf tlog l T)
    (hik : i ≤ k) (hk : k ≤ l.length) : termAt termOf l i ≤ termAt termOf l k := by
  rcases Nat.eq_zero_or_pos i with rfl | hi
  · exact Nat.zero_le _
  · have hk1 : 1 ≤ k := by omega
    rw [termAt_congr (h k hk1 hk).2.2 hik]
    exact (hl _ i hi (hik.trans (h.le_length hk1 hk))).2.1

/-- Log matching: equal terms at one position force equal logs up to it. -/
theorem Grounded.take_eq (h : Grounded termOf tlog l T) (h' : Grounded termOf tlog l' T')
    (hi : i ≤ l.length) (hi' : i ≤ l'.length) (ht : termAt termOf l i = termAt termOf l' i) :
    l.take i = l'.take i := by
  rcases Nat.eq_zero_or_pos i with rfl | h1
  · rw [List.take_zero, List.take_zero]
  · rw [(h i h1 hi).2.2, (h' i h1 hi').2.2, ht]

/-- Logs of leaders only grow, so a grounded log stays grounded. -/
theorem Grounded.extend {tlog' : ℕ → List E} (h : Grounded termOf tlog l T)
    (hext : ∀ t, tlog t <+: tlog' t) : Grounded termOf tlog' l T := by
  intro i h1 h2
  obtain ⟨ha, hb, hc⟩ := h i h1 h2
  refine ⟨ha, hb, ?_⟩
  rw [take_of_initial (hext _) (h.le_length h1 h2)]
  exact hc

/-- An index with a positive term lies inside the log. -/
theorem le_length_of_termAt_pos (h : 1 ≤ termAt termOf l i) : i ≤ l.length := by
  by_contra hlt
  rw [termAt_eq_zero (by omega)] at h
  omega

end Grounded

section Merge
variable {E : Type*} (termOf : E → ℕ)

/-- How a follower takes over entries that start after position `prev`: it keeps its log when all
of them are there, and otherwise cuts it at the first one that is not, above `commit`. -/
inductive Merge (log : List E) (prev : ℕ) (ents : List E) (commit : ℕ) : List E → Prop
  | same (h : ∀ j, 1 ≤ j → j ≤ ents.length → termAt termOf log (prev + j) = termAt termOf ents j) :
      Merge log prev ents commit log
  | graft (k : ℕ) (hk : k < ents.length)
      (h : ∀ j, 1 ≤ j → j ≤ k → termAt termOf log (prev + j) = termAt termOf ents j)
      (hne : termAt termOf log (prev + k + 1) ≠ termAt termOf ents (k + 1)) (hc : commit ≤ prev + k) :
      Merge log prev ents commit (log.take (prev + k) ++ ents.drop k)

variable {termOf} {tlog : ℕ → List E} {log log' L : List E} {T T' prev len commit : ℕ}

/-- A stretch of matching terms of two grounded logs is a stretch of matching entries. -/
private theorem take_eq_of_match (h : Grounded termOf tlog log T) (hL : Grounded termOf tlog L T')
    (hp : log.take prev = L.take prev) (k : ℕ) (hk : prev + k ≤ L.length)
    (hm : ∀ j, 1 ≤ j → j ≤ k → termAt termOf log (prev + j) = termAt termOf L (prev + j)) :
    log.take (prev + k) = L.take (prev + k) := by
  rcases Nat.eq_zero_or_pos k with rfl | hk1
  · exact hp
  · have hterm := hm k hk1 le_rfl
    have hpos : 1 ≤ termAt termOf log (prev + k) := by
      rw [hterm]
      exact (hL (prev + k) (by omega) hk).1
    exact h.take_eq hL (le_length_of_termAt_pos hpos) hk hterm

/-- The two outcomes of merging a slice of a leader's log. -/
theorem Merge.cases_slice (h : Grounded termOf tlog log T) (hL : Grounded termOf tlog L T')
    (hlen : prev + len ≤ L.length) (hprev : termAt termOf log prev = termAt termOf L prev)
    (hm : Merge termOf log prev ((L.drop prev).take len) commit log') :
    (log' = log ∧ log.take (prev + len) = L.take (prev + len)) ∨
      (∃ k, prev ≤ k ∧ k < prev + len ∧ commit ≤ k ∧ log' = L.take (prev + len) ∧
        log.take k = L.take k ∧ termAt termOf log (k + 1) ≠ termAt termOf L (k + 1)) := by
  have hl : ((L.drop prev).take len).length = len := by
    rw [List.length_take, List.length_drop]
    omega
  have hterm : ∀ j, 1 ≤ j → j ≤ len →
      termAt termOf ((L.drop prev).take len) j = termAt termOf L (prev + j) := by
    intro j h1 h2
    rw [termAt_take h2, termAt_drop _ h1]
  have hp : log.take prev = L.take prev := by
    rcases Nat.eq_zero_or_pos prev with rfl | h1
    · rw [List.take_zero, List.take_zero]
    · have hpos : 1 ≤ termAt termOf log prev := by
        rw [hprev]
        exact (hL prev h1 (by omega)).1
      exact h.take_eq hL (le_length_of_termAt_pos hpos) (by omega) hprev
  cases hm with
  | same hs =>
      refine Or.inl ⟨rfl, take_eq_of_match h hL hp len hlen ?_⟩
      intro j h1 h2
      rw [hs j h1 (by omega), hterm j h1 h2]
  | graft k hk hs hne hc =>
      have hkeep : log.take (prev + k) = L.take (prev + k) := by
        refine take_eq_of_match h hL hp k (by omega) ?_
        intro j h1 h2
        rw [hs j h1 h2, hterm j h1 (by omega)]
      refine Or.inr ⟨prev + k, by omega, by omega, hc, ?_, hkeep, ?_⟩
      · rw [hkeep, List.drop_take, List.drop_drop]
        have hsum : prev + len = prev + k + (len - k) := by omega
        rw [hsum]
        exact List.take_add.symm
      · rwa [hterm (k + 1) (by omega) (by omega)] at hne

/-- After a merge the log agrees with the leader's up to the last entry sent. -/
theorem Merge.take_eq (h : Grounded termOf tlog log T) (hL : Grounded termOf tlog L T')
    (hlen : prev + len ≤ L.length) (hprev : termAt termOf log prev = termAt termOf L prev)
    (hm : Merge termOf log prev ((L.drop prev).take len) commit log') :
    log'.take (prev + len) = L.take (prev + len) := by
  rcases hm.cases_slice h hL hlen hprev with ⟨rfl, he⟩ | ⟨k, -, -, -, rfl, -, -⟩
  · exact he
  · rw [List.take_take, Nat.min_self]

/-- Agreement with the leader's log is never lost by a merge. -/
theorem Merge.keeps (h : Grounded termOf tlog log T) (hL : Grounded termOf tlog L T')
    (hlen : prev + len ≤ L.length) (hprev : termAt termOf log prev = termAt termOf L prev)
    (hm : Merge termOf log prev ((L.drop prev).take len) commit log') {x : ℕ}
    (hx : log.take x = L.take x) : log'.take x = L.take x := by
  rcases hm.cases_slice h hL hlen hprev with ⟨rfl, -⟩ | ⟨k, -, hk, -, rfl, -, hne⟩
  · exact hx
  · have hxk : x ≤ k := by
      by_contra hlt
      exact hne (termAt_congr hx (by omega))
    rw [List.take_take, Nat.min_eq_left (by omega)]

theorem Merge.grounded (h : Grounded termOf tlog log T) (hL : Grounded termOf tlog L T)
    (hlen : prev + len ≤ L.length) (hprev : termAt termOf log prev = termAt termOf L prev)
    (hm : Merge termOf log prev ((L.drop prev).take len) commit log') : Grounded termOf tlog log' T := by
  rcases hm.cases_slice h hL hlen hprev with ⟨rfl, -⟩ | ⟨k, -, -, -, rfl, -, -⟩
  · exact h
  · exact hL.of_take (k := prev + len) (by rw [List.take_take, Nat.min_self]) (List.length_take_le _ _)

/-- What is committed survives every merge, whatever the entries are. -/
theorem Merge.take_commit {ents : List E} (hm : Merge termOf log prev ents commit log')
    (hc : commit ≤ log.length) : log'.take commit = log.take commit := by
  cases hm with
  | same => rfl
  | graft k hk hs hne hck =>
      rw [List.take_append_of_le_length (by rw [List.length_take]; omega), List.take_take,
        Nat.min_eq_left hck]

end Merge

end Consensus
