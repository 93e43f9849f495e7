import RaftEtcd.Lib.Consensus.Model

/-! What a node keeps by itself, whatever it is told: the entries it has committed, the log it
leads with, and on its disk the entries that were committed there. -/
namespace Consensus
variable {ι E : Type*} {voters : Finset ι} {termOf : E → ℕ} {net : Set (Msg ι E)} {n : ι} {a b : Node ι E}

theorem LocalStep.committed (h : LocalStep voters termOf net n a b) (hc : a.commit ≤ a.log.length) :
    b.commit ≤ b.log.length ∧ b.log.take a.commit = a.log.take a.commit := by
  cases h with
  | append es hr hes =>
      refine ⟨?_, List.take_append_of_le_length hc⟩
      simp only [List.length_append]
      omega
  | recvApp src prev pt ents c log' hr hm hp ht hlog hb =>
      have htake := hlog.take_commit hc
      exact ⟨max_le (le_length_of_take_eq htake.symm hc) hb, htake⟩
  | commit i Q hr hi hl => exact ⟨hl, rfl⟩
  | recvBeat src c hr hm hl => exact ⟨max_le hc hl, rfl⟩
  | _ => exact ⟨hc, rfl⟩

/-- A run of one node keeps what the node had committed. -/
theorem LocalStep.run_committed (h : Relation.ReflTransGen (LocalStep voters termOf net n) a b)
    (hc : a.commit ≤ a.log.length) : b.commit ≤ b.log.length ∧ b.log.take a.commit = a.log.take a.commit := by
  induction h with
  | refl => exact ⟨hc, rfl⟩
  | tail hrun hs ih =>
      obtain ⟨hlen, htake⟩ := hs.committed ih.1
      exact ⟨hlen, (take_eq_of_le htake (LocalStep.run_le hrun).2).trans ih.2⟩

/-- A node that has led a term and does not lead it any more never leads it again. -/
theorem LocalStep.run_led (h : Relation.ReflTransGen (LocalStep voters termOf net n) a b) (ha : a.role = .leader) :
    (b.term = a.term ∧ b.role = .leader ∧ a.log <+: b.log) ∨ (b.term = a.term ∧ b.role = .follower) ∨
      a.term < b.term := by
  induction h with
  | refl => exact Or.inl ⟨rfl, ha, List.prefix_rfl⟩
  | tail _ hs ih =>
      rename_i b c _
      rcases ih with ⟨ht, hr, hlog⟩ | ⟨ht, hr⟩ | hlt
      · cases hs with
        | stepDown => exact Or.inr (Or.inl ⟨ht, rfl⟩)
        | newTerm t hlt => exact Or.inr (Or.inr (ht ▸ hlt))
        | stand => exact Or.inr (Or.inr (ht ▸ Nat.lt_succ_self _))
        | lead Q hn hr' => exact absurd (hr.symm.trans hr') (by decide)
        | append es hr' hes => exact Or.inl ⟨ht, hr, hlog.trans (List.prefix_append _ _)⟩
        | recvApp src prev pt ents c log' hr' => exact absurd (hr.symm.trans hr') (by decide)
        | recvBeat src c hr' => exact absurd (hr.symm.trans hr') (by decide)
        | _ => exact Or.inl ⟨ht, hr, hlog⟩
      · cases hs with
        | stepDown => exact Or.inr (Or.inl ⟨ht, rfl⟩)
        | newTerm t hlt => exact Or.inr (Or.inr (ht ▸ hlt))
        | stand => exact Or.inr (Or.inr (ht ▸ Nat.lt_succ_self _))
        | lead Q hn hr' => exact absurd (hr.symm.trans hr') (by decide)
        | _ => exact Or.inr (Or.inl ⟨ht, hr⟩)
      · exact Or.inr (Or.inr (hlt.trans_le hs.term_le))

/-- A leader only appends to its log as long as it leads the same term. -/
theorem LocalStep.run_leader_log (h : Relation.ReflTransGen (LocalStep voters termOf net n) a b)
    (ha : a.role = .leader) (hb : b.role = .leader) (ht : b.term = a.term) : a.log <+: b.log := by
  rcases LocalStep.run_led h ha with ⟨-, -, hlog⟩ | ⟨-, hr⟩ | hlt
  · exact hlog
  · exact absurd (hb.symm.trans hr) (by decide)
  · omega

/-- What is committed on disk is committed by the node, with the same entries. -/
structure Backs (d : Disk ι E) (a : Node ι E) : Prop where
  commit_le : d.commit ≤ a.commit
  disk_len : d.commit ≤ d.log.length
  node_len : a.commit ≤ a.log.length
  take : a.log.take d.commit = d.log.take d.commit

namespace Backs
variable {d : Disk ι E}

theorem run (h : Backs d a) (hs : Relation.ReflTransGen (LocalStep voters termOf net n) a b) : Backs d b := by
  obtain ⟨hlen, htake⟩ := LocalStep.run_committed hs h.node_len
  exact ⟨h.commit_le.trans (LocalStep.run_le hs).2, h.disk_len, hlen, (take_eq_of_le htake h.commit_le).trans h.take⟩

theorem of_disk (hd : d.commit ≤ d.log.length) : Backs d d.node := ⟨le_rfl, hd, hd, rfl⟩

theorem flush (h : Backs d a) : Backs a.disk a := ⟨le_rfl, h.node_len, h.node_len, rfl⟩

end Backs

end Consensus
