import RaftEtcd.Lib.Consensus.Model

/-! Votes. A vote is granted once per term and survives crashes, because it is on disk before
anybody else learns of it; so no term has two leaders. -/
namespace Consensus
variable {ι E : Type*} {voters : Finset ι} {termOf : E → ℕ}

variable (voters) in
structure VoteInv (s : Sys ι E) : Prop where
  out_src : ∀ n, ∀ x ∈ (s.node n).out, x.src = n
  out_ge : ∀ n, ∀ x ∈ (s.node n).out, (s.disk n).term ≤ x.term
  out_le : ∀ n, ∀ x ∈ (s.node n).out, x.term ≤ (s.node n).term
  net_le : ∀ x ∈ s.net, x.term ≤ (s.disk x.src).term
  disk_le : ∀ n, (s.disk n).term ≤ (s.node n).term
  role_vote : ∀ n, (s.node n).role ≠ .follower → (s.node n).vote = some n
  grant_node : ∀ m c t, .grant m c t ∈ s.said m → (s.node m).term = t → (s.node m).vote = some c
  grant_disk : ∀ m c t, .grant m c t ∈ s.net → (s.disk m).term = t → (s.disk m).vote = some c
  grant_unique : ∀ m c c' t, .grant m c t ∈ s.said m → .grant m c' t ∈ s.said m → c = c'
  grant_asked : ∀ m c t, .grant m c t ∈ s.said m → m ≠ c → m ∈ voters ∧ ∃ li lt, .vote c t li lt ∈ s.net
  vote_own : ∀ n t li lt, .vote n t li lt ∈ s.net → .grant n n t ∈ s.net
  vote_own_out : ∀ n t li lt, .vote n t li lt ∈ (s.node n).out → .grant n n t ∈ (s.node n).out
  tally : ∀ n, ∀ m ∈ (s.node n).votes, m = n ∨ .grant m n (s.node n).term ∈ s.net
  ldr_quorum : ∀ t n, s.ldr t = some n →
    n ∈ voters ∧ ∃ Q, Majority voters Q ∧ ∀ m ∈ Q, .grant m n t ∈ s.net
  ldr_done : ∀ t n, s.ldr t = some n → (s.node n).term = t → (s.node n).role ≠ .candidate
  leader_ldr : ∀ n, (s.node n).role = .leader → s.ldr (s.node n).term = some n

namespace VoteInv
variable {s : Sys ι E} {n : ι} {b : Node ι E}

theorem init : VoteInv voters (Sys.init : Sys ι E) := by
  constructor <;> simp [Sys.init, Sys.said, Disk.node]

theorem said_le (h : VoteInv voters s) {x : Msg ι E} (hx : x ∈ s.said x.src) :
    x.term ≤ (s.node x.src).term := by
  rcases hx with hx | hx
  · exact (h.net_le x hx).trans (h.disk_le _)
  · exact h.out_le _ x hx

/-- A majority of tallied votes is a majority of votes that everybody can see. -/
theorem tally_majority (h : VoteInv voters s) (hv : 2 ≤ voters.card) (hn : n ∈ voters) {Q : Finset ι}
    (hQ : ↑Q ⊆ (s.node n).votes) (hc : voters.card < 2 * Q.card) :
    Majority voters Q ∧ ∀ m ∈ Q, .grant m n (s.node n).term ∈ s.net := by
  have hgrant : ∀ m ∈ Q, m ≠ n → .grant m n (s.node n).term ∈ s.net := by
    intro m hm hne
    exact (h.tally n m (hQ hm)).resolve_left hne
  have hmaj : Majority voters Q := by
    refine ⟨?_, hc⟩
    intro m hm
    by_cases hne : m = n
    · exact hne ▸ hn
    · exact (h.grant_asked m n _ (Or.inl (hgrant m hm hne)) hne).1
  refine ⟨hmaj, ?_⟩
  intro m hm
  by_cases hne : m = n
  · obtain ⟨m', hm', hne'⟩ := hmaj.exists_ne hv n
    obtain ⟨-, li, lt, hvote⟩ := h.grant_asked m' n _ (Or.inl (hgrant m' hm' hne')) hne'
    rw [hne]
    exact h.vote_own _ _ _ _ hvote
  · exact hgrant m hm hne

/-- The leader of a term has that term on disk. -/
theorem ldr_le_disk (h : VoteInv voters s) (hv : 2 ≤ voters.card) {t : ℕ} (hl : s.ldr t = some n) :
    t ≤ (s.disk n).term := by
  obtain ⟨-, Q, hQ, hg⟩ := h.ldr_quorum t n hl
  obtain ⟨m, hm, hne⟩ := hQ.exists_ne hv n
  obtain ⟨-, li, lt, hvote⟩ := h.grant_asked m n t (Or.inl (hg m hm)) hne
  exact h.net_le _ hvote

/-- What a node has said about its vote in its term is its vote, after a step as before. -/
theorem grant_node_step (h : VoteInv voters s) (hs : LocalStep voters termOf s.net n (s.node n) b)
    {c : ι} {t : ℕ} (hx : .grant n c t ∈ s.net ∪ b.out) (ht : b.term = t) : b.vote = some c := by
  have hold : .grant n c t ∈ s.said n → b.vote = some c := by
    intro hx'
    have hle : t ≤ (s.node n).term := h.said_le (x := .grant n c t) hx'
    have hta : (s.node n).term = b.term := le_antisymm hs.term_le (ht ▸ hle)
    exact hs.vote_keep hta (h.grant_node n c t hx' (hta.trans ht))
  rcases hx with hx | hx
  · exact hold (Or.inl hx)
  · rcases hs.out_cases hx with hx | hx
    · exact hold (Or.inr hx)
    · cases hx with
      | ownGrant hb hvt hr =>
          rw [hvt]
          exact h.role_vote n (by rw [hr]; decide)
      | grant _ li lt hb hvt hn hm hu => exact hvt

theorem role_vote_step (h : VoteInv voters s) (hs : LocalStep voters termOf s.net n (s.node n) b)
    (hr : b.role ≠ .follower) : b.vote = some n := by
  have hkeep : ∀ {r}, (s.node n).role = r → r ≠ .follower → (s.node n).vote = some n := by
    intro r hr hne
    exact h.role_vote n (hr ▸ hne)
  cases hs with
  | stepDown => exact absurd rfl hr
  | newTerm => exact absurd rfl hr
  | stand => rfl
  | lead Q hn hr' => exact hkeep hr' (by decide)
  | castVote c li lt hn hm hvt hu =>
      have hself := h.role_vote n hr
      rcases hvt with hvt | hvt
      · rw [hself] at hvt
        cases hvt
      · rw [hself] at hvt
        exact hvt.symm
  | _ => exact h.role_vote n hr

theorem tally_step (h : VoteInv voters s) (hs : LocalStep voters termOf s.net n (s.node n) b) {m : ι}
    (hm : m ∈ b.votes) : m = n ∨ .grant m n b.term ∈ s.net := by
  cases hs with
  | stepDown => cases hm
  | newTerm => cases hm
  | stand => cases hm
  | lead => cases hm
  | tally m' hr hg =>
      rcases hm with rfl | hm
      · exact hg
      · exact h.tally n m hm
  | _ => exact h.tally n m hm

variable [DecidableEq ι]

/-- Two nodes with a majority of grants in one term are the same. -/
theorem majority_unique (h : VoteInv voters s) {t : ℕ} {c c' : ι} {Q Q' : Finset ι} (hQ : Majority voters Q)
    (hQ' : Majority voters Q') (hg : ∀ m ∈ Q, .grant m c t ∈ s.net)
    (hg' : ∀ m ∈ Q', .grant m c' t ∈ s.net) : c = c' := by
  obtain ⟨m, hm, hm'⟩ := hQ.meet hQ'
  exact h.grant_unique m c c' t (Or.inl (hg m hm)) (Or.inl (hg' m hm'))

/-- A candidate that wins a majority is the first leader of its term. -/
theorem ldr_none_of_majority (h : VoteInv voters s) (hv : 2 ≤ voters.card) (hn : n ∈ voters)
    (hr : (s.node n).role = .candidate) {Q : Finset ι} (hQ : ↑Q ⊆ (s.node n).votes)
    (hc : voters.card < 2 * Q.card) : s.ldr (s.node n).term = none := by
  obtain ⟨hmaj, hg⟩ := h.tally_majority hv hn hQ hc
  cases hl : s.ldr (s.node n).term with
  | none => rfl
  | some n' =>
      obtain ⟨-, Q', hQ', hg'⟩ := h.ldr_quorum _ n' hl
      have hnn := h.majority_unique hmaj hQ' hg hg'
      exact absurd hr (h.ldr_done _ n (hnn ▸ hl) rfl)

/-- A node that leads after a step is the only node that its term has or will have as leader. -/
theorem ldr_of_step (h : VoteInv voters s) (hv : 2 ≤ voters.card)
    (hs : LocalStep voters termOf s.net n (s.node n) b) (hb : b.role = .leader) :
    (s.ldr b.term = none ∨ s.ldr b.term = some n) ∧ n ∈ voters ∧
      ∃ Q, Majority voters Q ∧ ∀ m ∈ Q, .grant m n b.term ∈ s.net := by
  obtain ⟨ht, hr | ⟨hr, -, hn, Q, hQ, hc⟩⟩ := hs.role_leader hb
  · have hl := h.leader_ldr n hr
    rw [← ht]
    exact ⟨Or.inr hl, h.ldr_quorum _ n hl⟩
  · obtain ⟨hmaj, hg⟩ := h.tally_majority hv hn hQ hc
    rw [← ht]
    exact ⟨Or.inl (h.ldr_none_of_majority hv hn hr hQ hc), hn, Q, hmaj, hg⟩

theorem act (h : VoteInv voters s) (hv : 2 ≤ voters.card)
    (hs : LocalStep voters termOf s.net n (s.node n) b) : VoteInv voters (s.setNode n b) := by
  have hfresh : ∀ x ∈ b.out, x ∈ (s.node n).out ∨ Fresh voters termOf s.net n (s.node n) b x :=
    fun x hx => hs.out_cases hx
  constructor
  case out_src =>
    intro m x hx
    rw [Sys.node_setNode] at hx
    split at hx
    · subst m
      rcases hfresh x hx with hx | hx
      · exact h.out_src n x hx
      · exact hx.src_term.1
    · exact h.out_src m x hx
  case out_ge =>
    intro m x hx
    rw [Sys.node_setNode] at hx
    split at hx
    · subst m
      rcases hfresh x hx with hx | hx
      · exact h.out_ge n x hx
      · rw [hx.src_term.2.1]
        exact h.disk_le n
    · exact h.out_ge m x hx
  case out_le =>
    intro m x hx
    rw [Sys.node_setNode] at hx ⊢
    split at hx
    · rename_i hmn
      subst m
      rw [if_pos rfl]
      rcases hfresh x hx with hx | hx
      · exact (h.out_le n x hx).trans hs.term_le
      · exact (hx.src_term.2.1.trans hx.src_term.2.2.symm).le
    · rename_i hmn
      rw [if_neg hmn]
      exact h.out_le m x hx
  case net_le => exact h.net_le
  case disk_le =>
    intro m
    rw [Sys.node_setNode]
    split
    · subst m
      exact (h.disk_le n).trans hs.term_le
    · exact h.disk_le m
  case role_vote =>
    intro m
    rw [Sys.node_setNode]
    split
    · subst m
      exact h.role_vote_step hs
    · exact h.role_vote m
  case grant_node =>
    intro m c t hx ht
    by_cases hmn : m = n
    · subst m
      rw [Sys.said_setNode_self] at hx
      rw [Sys.node_setNode, if_pos rfl] at ht ⊢
      exact h.grant_node_step hs hx ht
    · rw [Sys.said_setNode_ne s b hmn] at hx
      rw [Sys.node_setNode, if_neg hmn] at ht ⊢
      exact h.grant_node m c t hx ht
  case grant_disk => exact h.grant_disk
  case grant_unique =>
    intro m c c' t hx hx'
    by_cases hmn : m = n
    · subst m
      rw [Sys.said_setNode_self] at hx hx'
      -- a grant that is new was made in the current term, where the vote decides
      have hdecide : b.term = t → c = c' := by
        intro ht
        have := (h.grant_node_step hs hx ht).symm.trans (h.grant_node_step hs hx' ht)
        exact Option.some.inj this
      have hnew : ∀ c, .grant n c t ∈ s.net ∪ b.out → .grant n c t ∈ s.said n ∨ b.term = t := by
        rintro c (hx | hx)
        · exact Or.inl (Or.inl hx)
        · rcases hfresh _ hx with hx | hx
          · exact Or.inl (Or.inr hx)
          · exact Or.inr (hx.src_term.2.2.trans hx.src_term.2.1.symm)
      rcases hnew c hx with ho | ht
      · rcases hnew c' hx' with ho' | ht
        · exact h.grant_unique n c c' t ho ho'
        · exact hdecide ht
      · exact hdecide ht
    · rw [Sys.said_setNode_ne s b hmn] at hx hx'
      exact h.grant_unique m c c' t hx hx'
  case grant_asked =>
    intro m c t hx hne
    by_cases hmn : m = n
    · subst m
      rw [Sys.said_setNode_self] at hx
      rcases hx with hx | hx
      · exact h.grant_asked n c t (Or.inl hx) hne
      · rcases hfresh _ hx with hx | hx
        · exact h.grant_asked n c t (Or.inr hx) hne
        · cases hx with
          | ownGrant => exact absurd rfl hne
          | grant _ li lt hb hvt hn hm hu => exact ⟨hn, li, lt, hm⟩
    · rw [Sys.said_setNode_ne s b hmn] at hx
      exact h.grant_asked m c t hx hne
  case vote_own => exact h.vote_own
  case vote_own_out =>
    intro m t li lt hx
    rw [Sys.node_setNode] at hx ⊢
    split at hx
    · rename_i hmn
      subst m
      rw [if_pos rfl]
      rcases hfresh _ hx with hx | hx
      · exact hs.out_subset (h.vote_own_out n t li lt hx)
      · cases hx with
        | vote hb hr hg => exact hg
    · rename_i hmn
      rw [if_neg hmn]
      exact h.vote_own_out m t li lt hx
  case tally =>
    intro m
    rw [Sys.node_setNode]
    split
    · subst m
      exact fun m' hm' => h.tally_step hs hm'
    · exact h.tally m
  case ldr_quorum =>
    intro t n' hl
    rw [Sys.ldr_setNode] at hl
    split at hl
    · rename_i hb
      obtain ⟨hb, rfl⟩ := hb
      obtain rfl := Option.some.inj hl
      exact (h.ldr_of_step hv hs hb).2
    · exact h.ldr_quorum t n' hl
  case ldr_done =>
    intro t n' hl ht
    rw [Sys.ldr_setNode] at hl
    rw [Sys.node_setNode] at ht ⊢
    split at hl
    · rename_i hb
      obtain rfl := Option.some.inj hl
      rw [if_pos rfl, hb.1]
      decide
    · split at ht
      · rename_i hnn
        subst n'
        rw [if_pos rfl]
        intro hc
        rcases (hs.role_candidate hc).2 with ⟨hr, hta⟩ | hlt
        · exact h.ldr_done t n hl (hta.trans ht) hr
        · have hd := h.ldr_le_disk hv hl
          have hn := h.disk_le n
          omega
      · rename_i hnn
        rw [if_neg hnn]
        exact h.ldr_done t n' hl ht
  case leader_ldr =>
    intro m hr
    rw [Sys.node_setNode] at hr ⊢
    rw [Sys.ldr_setNode]
    split at hr
    · subst m
      rw [if_pos rfl, if_pos ⟨hr, rfl⟩]
    · rename_i hmn
      rw [if_neg hmn]
      split
      · rename_i hb
        obtain ⟨hb, ht⟩ := hb
        have hm := h.leader_ldr m hr
        rw [ht] at hm
        rcases (h.ldr_of_step hv hs hb).1 with hn | hn
        · rw [hm] at hn
          cases hn
        · exact (hn.symm.trans hm).symm ▸ rfl
      · exact h.leader_ldr m hr

/-- Flushing adds nothing to what a node has said. -/
theorem said_flush (h : VoteInv voters s) {x : Msg ι E} (hx : x ∈ (s.flush n).said x.src) :
    x ∈ s.said x.src := by
  rcases hx with (hx | hx) | hx
  · exact Or.inl hx
  · have hsrc := h.out_src n x hx
    rw [← hsrc] at hx
    exact Or.inr hx
  · rw [Sys.node_flush] at hx
    split at hx
    · cases hx
    · exact Or.inr hx

theorem said_crash {m : ι} {x : Msg ι E} (hx : x ∈ (s.crash n).said m) : x ∈ s.said m := by
  rcases hx with hx | hx
  · exact Or.inl hx
  · rw [Sys.node_crash] at hx
    split at hx
    · cases hx
    · exact Or.inr hx

theorem flush (h : VoteInv voters s) (n : ι) : VoteInv voters (s.flush n) := by
  have hsub : s.net ⊆ (s.flush n).net := Set.subset_union_left
  constructor
  case out_src =>
    intro m x hx
    rw [Sys.node_flush] at hx
    split at hx
    · cases hx
    · exact h.out_src m x hx
  case out_ge =>
    intro m x hx
    rw [Sys.node_flush] at hx
    rw [Sys.disk_flush]
    split at hx
    · cases hx
    · rename_i hmn
      rw [if_neg hmn]
      exact h.out_ge m x hx
  case out_le =>
    intro m x hx
    rw [Sys.node_flush] at hx ⊢
    split at hx
    · cases hx
    · rename_i hmn
      rw [if_neg hmn]
      exact h.out_le m x hx
  case net_le =>
    intro x hx
    rw [Sys.disk_flush]
    rcases hx with hx | hx
    · split
      · rename_i hmn
        rw [← hmn]
        exact (h.net_le x hx).trans (h.disk_le _)
      · exact h.net_le x hx
    · rw [if_pos (h.out_src n x hx)]
      exact h.out_le n x hx
  case disk_le =>
    intro m
    rw [Sys.disk_flush, Sys.node_flush]
    split
    · exact le_rfl
    · exact h.disk_le m
  case role_vote =>
    intro m
    rw [Sys.node_flush]
    split
    · subst m
      exact h.role_vote n
    · exact h.role_vote m
  case grant_node =>
    intro m c t hx ht
    have hx' := h.said_flush (x := .grant m c t) hx
    rw [Sys.node_flush] at ht ⊢
    split at ht
    · subst m
      rw [if_pos rfl]
      exact h.grant_node n c t hx' ht
    · rename_i hmn
      rw [if_neg hmn]
      exact h.grant_node m c t hx' ht
  case grant_disk =>
    intro m c t hx ht
    have hx' := h.said_flush (x := .grant m c t) (Or.inl hx)
    rw [Sys.disk_flush] at ht ⊢
    split at ht
    · subst m
      rw [if_pos rfl]
      exact h.grant_node n c t hx' ht
    · rename_i hmn
      rw [if_neg hmn]
      rcases hx with hx | hx
      · exact h.grant_disk m c t hx ht
      · exact absurd (h.out_src n _ hx) hmn
  case grant_unique =>
    intro m c c' t hx hx'
    exact h.grant_unique m c c' t (h.said_flush (x := .grant m c t) hx)
      (h.said_flush (x := .grant m c' t) hx')
  case grant_asked =>
    intro m c t hx hne
    obtain ⟨hm, li, lt, hvote⟩ := h.grant_asked m c t (h.said_flush (x := .grant m c t) hx) hne
    exact ⟨hm, li, lt, hsub hvote⟩
  case vote_own =>
    intro m t li lt hx
    rcases hx with hx | hx
    · exact Or.inl (h.vote_own m t li lt hx)
    · obtain rfl : m = n := h.out_src n _ hx
      exact Or.inr (h.vote_own_out m t li lt hx)
  case vote_own_out =>
    intro m t li lt hx
    rw [Sys.node_flush] at hx ⊢
    split at hx
    · cases hx
    · rename_i hmn
      rw [if_neg hmn]
      exact h.vote_own_out m t li lt hx
  case tally =>
    intro m m' hm
    rw [Sys.node_flush] at hm ⊢
    split at hm
    · subst m
      rw [if_pos rfl]
      exact (h.tally n m' hm).imp_right fun hx => hsub hx
    · rename_i hmn
      rw [if_neg hmn]
      exact (h.tally m m' hm).imp_right fun hx => hsub hx
  case ldr_quorum =>
    intro t n' hl
    obtain ⟨hn, Q, hQ, hg⟩ := h.ldr_quorum t n' hl
    exact ⟨hn, Q, hQ, fun m hm => hsub (hg m hm)⟩
  case ldr_done =>
    intro t n' hl
    rw [Sys.node_flush]
    split
    · subst n'
      exact h.ldr_done t n hl
    · exact h.ldr_done t n' hl
  case leader_ldr =>
    intro m
    rw [Sys.node_flush]
    split
    · subst m
      exact h.leader_ldr n
    · exact h.leader_ldr m

theorem crash (h : VoteInv voters s) (n : ι) : VoteInv voters (s.crash n) := by
  constructor
  case out_src =>
    intro m x hx
    rw [Sys.node_crash] at hx
    split at hx
    · cases hx
    · exact h.out_src m x hx
  case out_ge =>
    intro m x hx
    rw [Sys.node_crash] at hx
    split at hx
    · cases hx
    · exact h.out_ge m x hx
  case out_le =>
    intro m x hx
    rw [Sys.node_crash] at hx ⊢
    split at hx
    · cases hx
    · rename_i hmn
      rw [if_neg hmn]
      exact h.out_le m x hx
  case net_le => exact h.net_le
  case disk_le =>
    intro m
    rw [Sys.node_crash]
    split
    · subst m
      exact le_rfl
    · exact h.disk_le m
  case role_vote =>
    intro m
    rw [Sys.node_crash]
    split
    · exact fun hr => absurd rfl hr
    · exact h.role_vote m
  case grant_node =>
    intro m c t hx ht
    rw [Sys.node_crash] at ht ⊢
    split at ht
    · subst m
      rw [if_pos rfl]
      rcases hx with hx | hx
      · exact h.grant_disk n c t hx ht
      · rw [Sys.node_crash, if_pos rfl] at hx
        cases hx
    · rename_i hmn
      rw [if_neg hmn]
      exact h.grant_node m c t (said_crash hx) ht
  case grant_disk => exact h.grant_disk
  case grant_unique =>
    intro m c c' t hx hx'
    exact h.grant_unique m c c' t (said_crash hx) (said_crash hx')
  case grant_asked =>
    intro m c t hx hne
    exact h.grant_asked m c t (said_crash hx) hne
  case vote_own => exact h.vote_own
  case vote_own_out =>
    intro m t li lt hx
    rw [Sys.node_crash] at hx ⊢
    split at hx
    · cases hx
    · rename_i hmn
      rw [if_neg hmn]
      exact h.vote_own_out m t li lt hx
  case tally =>
    intro m m' hm
    rw [Sys.node_crash] at hm ⊢
    split at hm
    · cases hm
    · rename_i hmn
      rw [if_neg hmn]
      exact h.tally m m' hm
  case ldr_quorum => exact h.ldr_quorum
  case ldr_done =>
    intro t n' hl
    rw [Sys.node_crash]
    split
    · intro _ hc
      cases hc
    · exact h.ldr_done t n' hl
  case leader_ldr =>
    intro m hr
    rw [Sys.node_crash] at hr ⊢
    split at hr
    · cases hr
    · rename_i hmn
      rw [if_neg hmn]
      exact h.leader_ldr m hr

theorem step (h : VoteInv voters s) (hv : 2 ≤ voters.card) {s' : Sys ι E}
    (hs : Step voters termOf s s') : VoteInv voters s' := by
  cases hs with
  | act n b hb => exact h.act hv hb
  | flush n => exact h.flush n
  | crash n => exact h.crash n

omit [DecidableEq ι] in
/-- No term has two leaders. -/
theorem leader_unique (h : VoteInv voters s) {m n : ι} (hm : (s.node m).role = .leader)
    (hn : (s.node n).role = .leader) (ht : (s.node m).term = (s.node n).term) : m = n := by
  have hlm := h.leader_ldr m hm
  rw [ht, h.leader_ldr n hn] at hlm
  exact (Option.some.inj hlm).symm

end VoteInv

end Consensus
