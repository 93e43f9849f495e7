import RaftEtcd.Windowed

/-! Flow control: what limits the messages that are on their way to a peer, and what makes room again. -/
namespace RaftEtcd

/-! ### Making room -/

namespace InFlights
variable {w w' : InFlights} {size x : Nat} {rest : List Nat}

/-- Whatever was done to a window, it is laid out in its buffer. -/
theorem run_laid {ops : List Op} (h : w.Laid) (hrun : ops.foldlM Op.run w = .ok w') : w'.Laid := by
  induction ops generalizing w with
  | nil =>
      rw [List.foldlM_nil] at hrun
      rwa [← Except.ok.inj hrun]
  | cons op ops ih =>
      rw [List.foldlM_cons] at hrun
      obtain ⟨w₁, hop, hrun⟩ := bind_ok hrun
      refine ih ?_ hrun
      cases op with
      | add inflight => exact (h.add hop).2.1
      | freeTo upTo =>
          obtain ⟨w₂, hfree, hlaid, -⟩ := h.freeTo upTo
          rwa [Except.ok.inj (hop.symm.trans hfree)]
      | reset =>
          rw [← Except.ok.inj hop]
          exact h.reset

/-- The call frees the indexes up to the number of the slot in which the window starts. -/
theorem Laid.freeFirstOne (h : w.Laid) :
    ∃ w', w.freeFirstOne = .ok w' ∧ w'.Laid ∧ w'.sent = w.sent.dropWhile (· ≤ w.start) ∧ w'.size = w.size :=
  h.freeTo w.start

theorem dropWhile_eq_rest {t : Nat} (hrest : (x :: rest).Pairwise (· < ·)) :
    (x :: rest).dropWhile (· ≤ t) = rest ↔ x ≤ t ∧ ∀ y ∈ rest, t < y := by
  constructor
  · intro h
    by_cases hx : x ≤ t
    · refine ⟨hx, fun y hy => ?_⟩
      rw [List.dropWhile_cons_of_pos (by simpa using hx)] at h
      cases rest with
      | nil => cases hy
      | cons z zs =>
          have hz : t < z := by
            by_contra hle
            have hlen := congrArg List.length h
            rw [List.dropWhile_cons_of_pos (by simpa using hle)] at hlen
            have := (List.dropWhile_sublist (fun a => decide (a ≤ t)) (l := zs)).length_le
            rw [List.length_cons] at hlen
            omega
          rcases List.mem_cons.mp hy with rfl | hy
          · exact hz
          · exact hz.trans (List.rel_of_pairwise_cons hrest.of_cons hy)
    · rw [List.dropWhile_cons_of_neg (by simpa using hx)] at h
      have := congrArg List.length h
      rw [List.length_cons] at this
      omega
  · rintro ⟨hx, hall⟩
    rw [List.dropWhile_cons_of_pos (by simpa using hx)]
    cases rest with
    | nil => rfl
    | cons z zs =>
        have := hall z (List.mem_cons_self ..)
        exact List.dropWhile_cons_of_neg (by simpa using this)

end InFlights

/-- For a window that holds `x` first, `free_first_one` frees exactly `x`, and a replicating peer whose window
was full can be sent to again after a heartbeat response, exactly if the slot in which the window starts has a
number from `x` on and below the index that comes next. -/
theorem free_first_one_iff {size : Nat} {ops : List InFlights.Op} {w : InFlights} {x : Nat} {rest : List Nat}
    (hrun : ops.foldlM InFlights.Op.run (InFlights.new size) = .ok w) (hsent : w.sent = x :: rest)
    (hincreasing : w.sent.Pairwise (· < ·)) :
    (∃ w', w.freeFirstOne = .ok w' ∧ w'.sent = rest) ∧
      (w.isFull = true → ∀ p : Progress, p.state = .replicate → p.inflights = w →
        ∃ p', Raft.progressAfterBeat p = .ok p' ∧ p'.isPaused = false) ↔
    x ≤ w.start ∧ ∀ y ∈ rest, w.start < y := by
  have hlaid := InFlights.run_laid (.new size) hrun
  obtain ⟨w', hfree, hlaid', hsent', hsize⟩ := hlaid.freeFirstOne
  rw [hsent] at hincreasing hsent'
  rw [← InFlights.dropWhile_eq_rest hincreasing]
  constructor
  · rintro ⟨⟨w'', hfree', hrest⟩, -⟩
    obtain rfl := Except.ok.inj (hfree.symm.trans hfree')
    rw [← hsent', hrest]
  · intro hdrop
    rw [hdrop] at hsent'
    refine ⟨⟨w', hfree, hsent'⟩, fun hfull p hstate hp => ?_⟩
    have hresume : (Progress.resume { p with recentActive := true }).inflights = w := hp
    refine ⟨{ Progress.resume { p with recentActive := true } with inflights := w' }, ?_, ?_⟩
    · unfold Raft.progressAfterBeat
      simp only
      rw [hresume, if_pos ⟨hstate, hfull⟩, hfree]
      rfl
    · have hcount := hlaid.length
      have hcount' := hlaid'.length
      have hle := hlaid.count_le
      rw [hsent, List.length_cons] at hcount
      rw [hsent'] at hcount'
      have hstate' : (Progress.resume { p with recentActive := true }).state = .replicate := hstate
      rw [Progress.isPaused]
      simp only [hstate']
      rw [InFlights.isFull, beq_eq_false_iff_ne]
      omega

/-- Indexes that are the numbers of their slots, as the window of the unit tests holds them. -/
theorem free_first_one_iff_slots : ∃ w w' : InFlights,
    [.add 0, .add 1, .add 2].foldlM InFlights.Op.run (InFlights.new 3) = .ok w ∧ w.sent = [0, 1, 2] ∧
      w.isFull = true ∧ w.freeFirstOne = .ok w' ∧ w'.sent = [1, 2] := by
  have hrun : [.add 0, .add 1, .add 2].foldlM InFlights.Op.run (InFlights.new 3) =
      .ok { start := 0, count := 3, size := 3, buffer := [0, 1, 2] } := rfl
  obtain ⟨⟨w', hfree, hrest⟩, -⟩ := (@free_first_one_iff 3 _ _ 0 [1, 2] hrun rfl (by decide)).mpr (by decide)
  exact ⟨_, w', hrun, rfl, rfl, hfree, hrest⟩

/-- Two messages up to the log indexes 5 and 6 fill a window of two, and a heartbeat response frees nothing:
the peer stays paused. -/
theorem full_window_stays_full : ∃ w : InFlights,
    [.add 5, .add 6].foldlM InFlights.Op.run (InFlights.new 2) = .ok w ∧ w.sent = [5, 6] ∧
      w.isFull = true ∧ w.freeFirstOne = .ok w ∧
      ∃ p, Raft.progressAfterBeat { matched := 4, next := 7, state := .replicate, inflights := w } = .ok p ∧
        p.isPaused = true := by
  exact ⟨{ start := 0, count := 2, size := 2, buffer := [5, 6] }, rfl, rfl, rfl, rfl, _, rfl, rfl⟩

end RaftEtcd
