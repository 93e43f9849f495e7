import RaftEtcd.Lib.Consensus.Commit

/-! The invariants of votes, logs and commitment hold along every run of the abstract protocol
with at least two voters. -/
namespace Consensus
variable {ι E : Type*} [DecidableEq ι] {voters : Finset ι} {termOf : E → ℕ}

variable (voters termOf) in
structure Inv (s : Sys ι E) : Prop where
  votes : VoteInv voters s
  logs : LogInv termOf s
  commits : CommitInv voters termOf s

section Act
variable {s : Sys ι E} {n : ι} {b : Node ι E}

theorem Inv.ext_act (h : Inv voters termOf s) (hv : 2 ≤ voters.card)
    (hs : LocalStep voters termOf s.net n (s.node n) b) : s.Ext termOf (s.setNode n b) where
  net := subset_rfl
  tlog := h.logs.tlog_grows h.votes hv hs
  ldr _ _ := LogInv.ldr_keep h.votes hv hs
  grow t m hl i hlt hle := by
    rw [Sys.tlog_setNode] at hle ⊢
    split
    · rename_i hb
      rw [if_pos hb] at hle
      obtain ⟨hb, rfl⟩ := hb
      obtain ⟨ht, hr | ⟨hr, hlog, hn, Q, hQ, hc⟩⟩ := hs.role_leader hb
      · rw [← ht, h.logs.leader_log n hr] at hlt
        rcases hs.log_cases with hlog | ⟨-, -, -, es, hlog, hes⟩ | ⟨-, hf, -⟩
        · rw [hlog] at hle
          omega
        · rw [hlog] at hle ⊢
          rw [← ht]
          exact termAt_append_new hes hlt hle
        · rw [hf] at hb
          cases hb
      · rw [← ht, h.votes.ldr_none_of_majority hv hn hr hQ hc] at hl
        cases hl
    · rename_i hb
      rw [if_neg hb] at hle
      omega

/-- Indexes that the old log of the leader has are choosable only if they were before. -/
theorem Inv.choosable_act (h : Inv voters termOf s) (hv : 2 ≤ voters.card)
    (hs : LocalStep voters termOf s.net n (s.node n) b) {t i : ℕ}
    (hc : (s.setNode n b).Choosable voters termOf t i) (hi : i ≤ (s.tlog t).length) :
    s.Choosable voters termOf t i := ⟨(h.ext_act hv hs).own_old hc.1 hi, hc.2⟩

omit [DecidableEq ι] in
/-- A node acknowledges only what the leader of the term already had. -/
theorem Inv.ack_len_act (h : Inv voters termOf s) (hs : LocalStep voters termOf s.net n (s.node n) b)
    {t j : ℕ} (hx : .ack n t j ∈ s.net ∪ b.out) : j ≤ (s.tlog t).length := by
  rcases hx with hx | hx
  · exact h.commits.ack_len n t j (Or.inl hx)
  · rcases hs.out_cases hx with hx | hx
    · exact h.commits.ack_len n t j (Or.inr hx)
    · cases hx with
      | ownAck j hb hr hj =>
          rw [h.logs.leader_log n hr]
          exact hj
      | oldAck j hb hj hz =>
          rcases hz with rfl | ⟨src, prev, pt, ents, c, hm⟩
          · exact Nat.zero_le _
          · have hl : s.ldr (s.node n).term ≠ none := by
              rw [(h.logs.app_net hm).1]
              exact Option.some_ne_none _
            exact hj.trans (h.commits.commit_tlog (h.commits.commit_node n) hl).2
      | ack src prev pt ents c hb hm hp hlog => exact (h.logs.app_net hm).2.1

omit [DecidableEq ι] in
/-- Agreement with the log of a leader of the same or a later term that has the index survives
every change of the log. -/
theorem Inv.log_keeps (h : Inv voters termOf s) (hs : LocalStep voters termOf s.net n (s.node n) b)
    {t i : ℕ} (hi : i ≤ (s.tlog t).length) (he : (s.node n).log.take i = (s.tlog t).take i)
    (hl : s.ldr (s.node n).term ≠ none → (s.tlog (s.node n).term).take i = (s.tlog t).take i) :
    b.log.take i = (s.tlog t).take i := by
  rcases hs.log_cases with hlog | ⟨-, -, -, es, hlog, -⟩ | ⟨-, -, src, prev, pt, ents, c, hx, hp, hm⟩
  · rw [hlog]
    exact he
  · rw [hlog, List.take_append_of_le_length (le_length_of_take_eq he.symm hi)]
    exact he
  · obtain ⟨hldr, hlen, hents, hpt⟩ := h.logs.app_net hx
    have hL := hl (by rw [hldr]; exact Option.some_ne_none _)
    rw [hents] at hm
    exact (hm.keeps (h.logs.node_log n) (h.logs.tlog_log _) hlen (hp.trans hpt) (he.trans hL.symm)).trans hL

/-- What a node has acknowledged in its present term is in its log. -/
theorem Inv.ack_node_act (h : Inv voters termOf s) (hv : 2 ≤ voters.card)
    (hs : LocalStep voters termOf s.net n (s.node n) b) {t j : ℕ} (hx : .ack n t j ∈ s.net ∪ b.out)
    (ht : b.term = t) : b.log.take j = ((s.setNode n b).tlog t).take j := by
  have hj := h.ack_len_act hs hx
  rw [(h.ext_act hv hs).take hj]
  have hold : .ack n t j ∈ s.said n → b.log.take j = (s.tlog t).take j := by
    intro hx
    have hle : t ≤ (s.node n).term := h.votes.said_le (x := .ack n t j) hx
    have hta : (s.node n).term = t := le_antisymm (ht ▸ hs.term_le) hle
    refine h.log_keeps hs hj (h.commits.ack_node n t j hx hta) ?_
    rw [hta]
    exact fun _ => rfl
  rcases hx with hx | hx
  · exact hold (Or.inl hx)
  · rcases hs.out_cases hx with hx | hx
    · exact hold (Or.inr hx)
    · cases hx with
      | ownAck j hb hr hj => rw [hb.log, h.logs.leader_log n hr]
      | oldAck j hb hj hz =>
          rw [hb.log]
          rcases hz with rfl | ⟨src, prev, pt, ents, c, hm⟩
          · rw [List.take_zero, List.take_zero]
          · have hl : s.ldr (s.node n).term ≠ none := by
              rw [(h.logs.app_net hm).1]
              exact Option.some_ne_none _
            exact take_eq_of_le (h.commits.commit_tlog (h.commits.commit_node n) hl).1 hj
      | ack src prev pt ents c hb hm hp hlog =>
          obtain ⟨-, hlen, hents, hpt⟩ := h.logs.app_net hm
          rw [hents] at hlog
          exact hlog.take_eq (h.logs.node_log n) (h.logs.tlog_log _) hlen (hp.trans hpt)

theorem Inv.keep_node_act (h : Inv voters termOf s) (hv : 2 ≤ voters.card)
    (hs : LocalStep voters termOf s.net n (s.node n) b) {t i j : ℕ} (hx : .ack n t j ∈ s.net ∪ b.out)
    (hij : i ≤ j) (hc : (s.setNode n b).Choosable voters termOf t i) :
    b.log.take i = ((s.setNode n b).tlog t).take i := by
  have hi := hij.trans (h.ack_len_act hs hx)
  have hold : .ack n t j ∈ s.said n → b.log.take i = ((s.setNode n b).tlog t).take i := by
    intro hx'
    have hch := h.choosable_act hv hs hc hi
    rw [(h.ext_act hv hs).take hi]
    refine h.log_keeps hs hi (h.commits.keep_node n t i j hx' hij hch) ?_
    intro hl
    rcases Nat.eq_or_lt_of_le (h.votes.said_le (x := .ack n t j) hx') with heq | hlt
    · rw [show (s.node n).term = t from heq.symm]
    · exact h.commits.complete t _ i hlt hl hch
  have hx0 := hx
  rcases hx with hx | hx
  · exact hold (Or.inl hx)
  · rcases hs.out_cases hx with hx | hx
    · exact hold (Or.inr hx)
    · have hterm := hx.src_term
      exact take_eq_of_le (h.ack_node_act hv hs hx0 (hterm.2.2.trans hterm.2.1.symm)) hij

theorem Inv.ack_ldr_act (h : Inv voters termOf s) (hv : 2 ≤ voters.card)
    (hs : LocalStep voters termOf s.net n (s.node n) b) {t i j : ℕ} (hx : .ack n t j ∈ s.net ∪ b.out)
    (hij : i ≤ j) (ho : (s.setNode n b).Own termOf t i) :
    (s.setNode n b).ldr t = some n ∨ ∃ m, (s.setNode n b).ldr t = some m ∧ s.Acked m t i := by
  have hown := (h.ext_act hv hs).own_old ho (hij.trans (h.ack_len_act hs hx))
  have hold : .ack n t j ∈ s.said n →
      (s.setNode n b).ldr t = some n ∨ ∃ m, (s.setNode n b).ldr t = some m ∧ s.Acked m t i := by
    intro hx
    rcases h.commits.ack_ldr n t i j hx hij hown with hl | ⟨m, hl, ha⟩
    · exact Or.inl (LogInv.ldr_keep h.votes hv hs hl)
    · exact Or.inr ⟨m, LogInv.ldr_keep h.votes hv hs hl, ha⟩
  rcases hx with hx | hx
  · exact hold (Or.inl hx)
  · rcases hs.out_cases hx with hx | hx
    · exact hold (Or.inr hx)
    · cases hx with
      | ownAck j hb hr hj => exact Or.inl (LogInv.ldr_keep h.votes hv hs (h.votes.leader_ldr n hr))
      | oldAck j hb hj hz =>
          -- the index is committed, hence chosen, and it can only have been chosen in its own term
          obtain ⟨-, h0 | ⟨t, ht, k, hk, hch, he⟩⟩ := h.commits.commit_node n
          · have := hown.1
            omega
          · rcases hz with rfl | ⟨src, prev, pt, ents, c, hm⟩
            · have := hown.1
              omega
            · have hl : s.ldr (s.node n).term ≠ none := by
                rw [(h.logs.app_net hm).1]
                exact Option.some_ne_none _
              have htl := (h.commits.commit_tlog (h.commits.commit_node n) hl).1
              have hi : i ≤ (s.node n).commit := hij.trans hj
              have hterm : termAt termOf (s.tlog t) i = (s.node n).term := by
                rw [← termAt_congr (he.symm.trans htl).symm hi]
                exact hown.2.2
              have hle := (h.logs.tlog_log t i hown.1 (hi.trans (hk.trans hch.1.2.1))).2.1
              obtain rfl : t = (s.node n).term := by omega
              obtain ⟨m, hlm, ha⟩ := h.commits.chosen_ldr hch
              exact Or.inr ⟨m, LogInv.ldr_keep h.votes hv hs hlm, ha.le (hi.trans hk)⟩
      | ack src prev pt ents c hb hm hp hlog =>
          exact Or.inr ⟨src, LogInv.ldr_keep h.votes hv hs (h.logs.app_net hm).1,
            _, hij, h.commits.app_own _ _ _ _ _ _ hm⟩

/-- The log of a new leader holds every index that may still be chosen in an earlier term. -/
theorem Inv.complete_lead (h : Inv voters termOf s) (hv : 2 ≤ voters.card) (hn : n ∈ voters)
    (hr : (s.node n).role = .candidate) {Q : Finset ι} (hQ : ↑Q ⊆ (s.node n).votes)
    (hcard : voters.card < 2 * Q.card) {t i : ℕ} (ht : t < (s.node n).term)
    (hc : s.Choosable voters termOf t i) : (s.node n).log.take i = (s.tlog t).take i := by
  obtain ⟨hmaj, hg⟩ := h.votes.tally_majority hv hn hQ hcard
  have h1 : 1 ≤ i := hc.1.1
  obtain ⟨R, hR, hack⟩ := hc.2
  obtain ⟨m, hmR, hmQ⟩ := hR.meet hmaj
  have hdisk : (s.node n).term ≤ (s.disk m).term := h.votes.net_le _ (hg m hmQ)
  obtain ⟨j, hj, hx⟩ : s.Acked m t i := (hack m hmR).resolve_right (by omega)
  by_cases hmn : m = n
  · subst m
    exact h.commits.keep_node n t i j (Or.inl hx) hj hc
  · obtain ⟨li, lt, hvote, hcov⟩ := h.commits.grant_log m n _ (Or.inl (hg m hmQ)) hmn
    obtain ⟨hli, htake⟩ := hcov t i j ht (Or.inl hx) hj hc
    obtain ⟨rfl, rfl⟩ := h.logs.vote_cand n _ li lt (Or.inl hvote) rfl hr
    have hground := (h.logs.node_log n _ (h1.trans hli) le_rfl).2.2
    exact (take_eq_of_le hground hli).trans htake

theorem Inv.complete_act (h : Inv voters termOf s) (hv : 2 ≤ voters.card)
    (hs : LocalStep voters termOf s.net n (s.node n) b) {t t' i : ℕ} (ht : t < t')
    (hl : (s.setNode n b).ldr t' ≠ none) (hc : (s.setNode n b).Choosable voters termOf t i) :
    ((s.setNode n b).tlog t').take i = ((s.setNode n b).tlog t).take i := by
  have hext := h.ext_act hv hs
  cases hold : s.ldr t' with
  | some l =>
      by_cases hi : i ≤ (s.tlog t).length
      · have hch := h.choosable_act hv hs hc hi
        have he := h.commits.complete t t' i ht (by rw [hold]; exact Option.some_ne_none _) hch
        rw [hext.take hi, hext.take (le_length_of_take_eq he.symm hi)]
        exact he
      · -- an entry created after a later election cannot be acknowledged by a majority
        obtain ⟨-, R, hR, hack⟩ := hc
        obtain ⟨-, Q, hQ, hg⟩ := h.votes.ldr_quorum t' l hold
        obtain ⟨m, hmR, hmQ⟩ := hR.meet hQ
        have hdisk : t' ≤ (s.disk m).term := h.votes.net_le _ (hg m hmQ)
        rcases hack m hmR with ⟨j, hj, hx⟩ | hle
        · have := h.commits.ack_len m t j (Or.inl hx)
          omega
        · have hle' : (s.disk m).term ≤ t := hle
          omega
  | none =>
      rw [Sys.ldr_setNode] at hl
      split at hl
      · rename_i hb
        obtain ⟨hb, rfl⟩ := hb
        obtain ⟨hterm, hr | ⟨hr, hlog, hn, Q, hQ, hcard⟩⟩ := hs.role_leader hb
        · rw [← hterm, h.votes.leader_ldr n hr] at hold
          cases hold
        · have hsame : (s.setNode n b).tlog t = s.tlog t := by
            rw [Sys.tlog_setNode, if_neg (fun hne => by omega)]
          have hlead : (s.setNode n b).tlog b.term = (s.node n).log := by
            rw [Sys.tlog_setNode, if_pos ⟨hb, rfl⟩, hlog]
          have hi : i ≤ (s.tlog t).length := by
            rw [← hsame]
            exact hc.1.2.1
          rw [hsame, hlead]
          exact h.complete_lead hv hn hr hQ hcard (hterm ▸ ht) (h.choosable_act hv hs hc hi)
      · exact absurd hold hl

theorem Inv.grant_log_act (h : Inv voters termOf s) (hv : 2 ≤ voters.card)
    (hs : LocalStep voters termOf s.net n (s.node n) b) {c : ι} {t' : ℕ}
    (hx : .grant n c t' ∈ s.net ∪ b.out) (hne : n ≠ c) : ∃ li lt, .vote c t' li lt ∈ s.net ∧
      ∀ t i j, t < t' → .ack n t j ∈ s.net ∪ b.out → i ≤ j → (s.setNode n b).Choosable voters termOf t i →
        i ≤ li ∧ ((s.setNode n b).tlog lt).take i = ((s.setNode n b).tlog t).take i := by
  have hext := h.ext_act hv hs
  -- acknowledgements of earlier terms are not new
  have hack : ∀ t i j, t < b.term → .ack n t j ∈ s.net ∪ b.out → i ≤ j →
      (s.setNode n b).Choosable voters termOf t i →
      .ack n t j ∈ s.said n ∧ i ≤ (s.tlog t).length ∧ s.Choosable voters termOf t i := by
    intro t i j ht hy hij hc
    have hi := hij.trans (h.ack_len_act hs hy)
    refine ⟨?_, hi, h.choosable_act hv hs hc hi⟩
    rcases hy with hy | hy
    · exact Or.inl hy
    · rcases hs.out_cases hy with hy | hy
      · exact Or.inr hy
      · have hterm : t = b.term := hy.src_term.2.1.trans hy.src_term.2.2.symm
        omega
  -- what a request for votes reports does not change its meaning while the tables grow
  have hlift : ∀ {t i li lt}, .vote c t' li lt ∈ s.net → i ≤ (s.tlog t).length → i ≤ li →
      (s.tlog lt).take i = (s.tlog t).take i →
      ((s.setNode n b).tlog lt).take i = ((s.setNode n b).tlog t).take i := by
    intro t i li lt hvote hi hli he
    rw [hext.take hi, hext.take (hli.trans (h.logs.vote_end c t' li lt (Or.inl hvote)).2.1)]
    exact he
  have hold : .grant n c t' ∈ s.said n → ∃ li lt, .vote c t' li lt ∈ s.net ∧
      ∀ t i j, t < t' → .ack n t j ∈ s.net ∪ b.out → i ≤ j → (s.setNode n b).Choosable voters termOf t i →
        i ≤ li ∧ ((s.setNode n b).tlog lt).take i = ((s.setNode n b).tlog t).take i := by
    intro hx
    obtain ⟨li, lt, hvote, hcov⟩ := h.commits.grant_log n c t' hx hne
    refine ⟨li, lt, hvote, ?_⟩
    intro t i j ht hy hij hc
    have hle : t' ≤ (s.node n).term := h.votes.said_le (x := .grant n c t') hx
    have hle' := hs.term_le
    obtain ⟨hy, hi, hc⟩ := hack t i j (by omega) hy hij hc
    obtain ⟨hli, he⟩ := hcov t i j ht hy hij hc
    exact ⟨hli, hlift hvote hi hli he⟩
  rcases hx with hx | hx
  · exact hold (Or.inl hx)
  · rcases hs.out_cases hx with hx | hx
    · exact hold (Or.inr hx)
    · cases hx with
      | ownGrant => exact absurd rfl hne
      | grant _ li lt hb hvt hn hm hu =>
          refine ⟨li, lt, hm, ?_⟩
          intro t i j ht hy hij hc
          obtain ⟨hy, hi, hc⟩ := hack t i j (by rw [hb.term]; exact ht) hy hij hc
          obtain ⟨-, hlen, hlast⟩ := h.logs.vote_end c _ li lt (Or.inl hm)
          obtain ⟨hli, he⟩ := h.commits.up_to_date_covers h.logs hc
            (h.commits.keep_node n t i j hy hij hc) hu hlen hlast
          exact ⟨hli, hlift hm hi hli he⟩

omit [DecidableEq ι] in
theorem Inv.matched_act (h : Inv voters termOf s) (hs : LocalStep voters termOf s.net n (s.node n) b)
    (hr : b.role = .leader) {m : ι} (hne : m ≠ n) : b.matched m = 0 ∨ s.Acked m b.term (b.matched m) := by
  cases hs with
  | stepDown => cases hr
  | newTerm => cases hr
  | stand => cases hr
  | lead => exact Or.inl rfl
  | recvAck m' j hr' hne' hm =>
      by_cases hmm : m = m'
      · subst m'
        simp only [Function.update_self]
        rcases le_total j ((s.node n).matched m) with hle | hle
        · rw [max_eq_left hle]
          exact h.commits.matched n m hr' hne
        · rw [max_eq_right hle]
          exact Or.inr ⟨j, le_rfl, hm⟩
      · simp only [Function.update_of_ne hmm]
        exact h.commits.matched n m hr' hne
  | _ => exact h.commits.matched n m hr hne

/-- What a leader commits is chosen: the other acknowledgements imply its own. -/
theorem Inv.chosen_of_commit (h : Inv voters termOf s) (hv : 2 ≤ voters.card)
    (hr : (s.node n).role = .leader) {i : ℕ} {Q : Finset ι} (hl : i ≤ (s.node n).log.length)
    (hQ : Majority voters Q) (hm : ∀ m ∈ Q, m ≠ n → i ≤ (s.node n).matched m)
    (ht : termAt termOf (s.node n).log i = (s.node n).term) : s.Chosen voters termOf (s.node n).term i := by
  have hpos := h.logs.leader_pos n hr
  have hi : 1 ≤ i := by
    rcases Nat.eq_zero_or_pos i with rfl | h1
    · rw [termAt_zero] at ht
      omega
    · exact h1
  have hown : s.Own termOf (s.node n).term i := by
    refine ⟨hi, ?_⟩
    rw [h.logs.leader_log n hr]
    exact ⟨hl, ht⟩
  have hother : ∀ m ∈ Q, m ≠ n → s.Acked m (s.node n).term i := by
    intro m hmQ hne
    have hle := hm m hmQ hne
    rcases h.commits.matched n m hr hne with h0 | ha
    · omega
    · exact ha.le hle
  refine ⟨hown, Q, hQ, ?_⟩
  intro m hmQ
  by_cases hmn : m = n
  · subst m
    obtain ⟨m', hm', hne'⟩ := hQ.exists_ne hv n
    obtain ⟨j, hj, hx⟩ := hother m' hm' hne'
    have hldr := h.votes.leader_ldr n hr
    rcases h.commits.ack_ldr m' _ i j (Or.inl hx) hj hown with hl' | ⟨n', hl', ha⟩
    · rw [hldr] at hl'
      exact absurd (Option.some.inj hl').symm hne'
    · rw [hldr] at hl'
      obtain rfl := Option.some.inj hl'
      exact ha
  · exact hother m hmQ hmn

theorem Inv.commit_act (h : Inv voters termOf s) (hv : 2 ≤ voters.card)
    (hs : LocalStep voters termOf s.net n (s.node n) b) : s.CommitOk voters termOf b.log b.commit b.term := by
  have hold := h.commits.commit_node n
  cases hs with
  | newTerm t ht => exact hold.mono ht.le
  | stand => exact hold.mono (Nat.le_succ _)
  | append es hr hes => exact hold.congr (List.take_append_of_le_length hold.1)
  | recvApp src prev pt ents c log' hr hm hc hp hlog hb =>
      obtain ⟨-, hlen, hents, hpt⟩ := h.logs.app_net hm
      simp only
      rcases le_total (min c (prev + ents.length)) (s.node n).commit with hle | hle
      · rw [max_eq_left hle]
        exact hold.congr (hlog.take_commit hold.1)
      · rw [max_eq_right hle]
        rw [hents] at hlog
        have htake := hlog.take_eq (h.logs.node_log n) (h.logs.tlog_log _) hlen (hp.trans hpt)
        have happ := h.commits.app_commit _ _ _ _ _ _ (Or.inl hm)
        exact (happ.le (min_le_left _ _)).congr (take_eq_of_le htake (min_le_right _ _))
  | commit i Q hr hi hl hQ hm ht =>
      have hch := h.chosen_of_commit hv hr hl hQ hm ht
      exact ⟨hl, Or.inr ⟨_, le_rfl, i, le_rfl, hch, by rw [h.logs.leader_log n hr]⟩⟩
  | recvBeat src c hr hm hc =>
      simp only
      rcases le_total c (s.node n).commit with hle | hle
      · rw [max_eq_left hle]
        exact hold
      · rw [max_eq_right hle]
        obtain ⟨hok, h0 | ⟨j, hj, hx⟩⟩ := h.commits.beat_commit _ _ _ _ (Or.inl hm)
        · subst c
          exact ⟨Nat.zero_le _, Or.inl rfl⟩
        · exact hok.congr (take_eq_of_le (h.commits.ack_node n _ j (Or.inl hx) rfl) hj)
  | _ => exact hold

theorem Inv.commits_act (h : Inv voters termOf s) (hv : 2 ≤ voters.card)
    (hs : LocalStep voters termOf s.net n (s.node n) b) : CommitInv voters termOf (s.setNode n b) := by
  have hext := h.ext_act hv hs
  constructor
  case app_own => exact h.commits.app_own
  case app_own_out =>
    intro m t prev pt ents c hx
    rw [Sys.node_setNode] at hx ⊢
    split at hx
    · subst m
      rw [if_pos rfl]
      rcases hs.out_cases hx with hx | hx
      · exact hs.out_subset (h.commits.app_own_out n t prev pt ents c hx)
      · cases hx with
        | app prev len hb hr hlen ha =>
            rwa [List.length_take, List.length_drop, Nat.min_eq_left (by omega)]
    · rename_i hmn
      rw [if_neg hmn]
      exact h.commits.app_own_out m t prev pt ents c hx
  case ack_len =>
    intro m t j hx
    refine le_trans ?_ (hext.tlog t).length_le
    by_cases hmn : m = n
    · subst m
      rw [Sys.said_setNode_self] at hx
      exact h.ack_len_act hs hx
    · rw [Sys.said_setNode_ne s b hmn] at hx
      exact h.commits.ack_len m t j hx
  case ack_node =>
    intro m t j hx ht
    by_cases hmn : m = n
    · subst m
      rw [Sys.said_setNode_self] at hx
      rw [Sys.node_setNode, if_pos rfl] at ht ⊢
      exact h.ack_node_act hv hs hx ht
    · rw [Sys.said_setNode_ne s b hmn] at hx
      rw [Sys.node_setNode, if_neg hmn] at ht ⊢
      rw [hext.take (h.commits.ack_len m t j hx)]
      exact h.commits.ack_node m t j hx ht
  case ack_disk =>
    intro m t j hx ht
    rw [hext.take (h.commits.ack_len m t j (Or.inl hx))]
    exact h.commits.ack_disk m t j hx ht
  case keep_node =>
    intro m t i j hx hij hc
    by_cases hmn : m = n
    · subst m
      rw [Sys.said_setNode_self] at hx
      rw [Sys.node_setNode, if_pos rfl]
      exact h.keep_node_act hv hs hx hij hc
    · rw [Sys.said_setNode_ne s b hmn] at hx
      rw [Sys.node_setNode, if_neg hmn]
      have hi := hij.trans (h.commits.ack_len m t j hx)
      rw [hext.take hi]
      exact h.commits.keep_node m t i j hx hij (h.choosable_act hv hs hc hi)
  case keep_disk =>
    intro m t i j hx hij hc
    have hi := hij.trans (h.commits.ack_len m t j (Or.inl hx))
    rw [hext.take hi]
    exact h.commits.keep_disk m t i j hx hij (h.choosable_act hv hs hc hi)
  case ack_ldr =>
    intro m t i j hx hij ho
    by_cases hmn : m = n
    · subst m
      rw [Sys.said_setNode_self] at hx
      exact h.ack_ldr_act hv hs hx hij ho
    · rw [Sys.said_setNode_ne s b hmn] at hx
      have hown := hext.own_old ho (hij.trans (h.commits.ack_len m t j hx))
      rcases h.commits.ack_ldr m t i j hx hij hown with hl | ⟨m', hl, ha⟩
      · exact Or.inl (LogInv.ldr_keep h.votes hv hs hl)
      · exact Or.inr ⟨m', LogInv.ldr_keep h.votes hv hs hl, ha⟩
  case grant_log =>
    intro m c t' hx hne
    by_cases hmn : m = n
    · subst m
      rw [Sys.said_setNode_self] at hx ⊢
      exact h.grant_log_act hv hs hx hne
    · rw [Sys.said_setNode_ne s b hmn] at hx ⊢
      obtain ⟨li, lt, hvote, hcov⟩ := h.commits.grant_log m c t' hx hne
      refine ⟨li, lt, hvote, ?_⟩
      intro t i j ht hy hij hc
      have hi := hij.trans (h.commits.ack_len m t j hy)
      obtain ⟨hli, he⟩ := hcov t i j ht hy hij (h.choosable_act hv hs hc hi)
      refine ⟨hli, ?_⟩
      rw [hext.take hi, hext.take (hli.trans (h.logs.vote_end c t' li lt (Or.inl hvote)).2.1)]
      exact he
  case complete => exact fun t t' i ht hl hc => h.complete_act hv hs ht hl hc
  case matched =>
    intro m m' hr hne
    rw [Sys.node_setNode] at hr ⊢
    split at hr
    · subst m
      rw [if_pos rfl]
      exact h.matched_act hs hr hne
    · rename_i hmn
      rw [if_neg hmn]
      exact h.commits.matched m m' hr hne
  case commit_node =>
    intro m
    rw [Sys.node_setNode]
    split
    · subst m
      exact hext.commitOk (h.commit_act hv hs)
    · exact hext.commitOk (h.commits.commit_node m)
  case commit_disk => exact fun m => hext.commitOk (h.commits.commit_disk m)
  case app_commit =>
    intro m t prev pt ents c hx
    by_cases hmn : m = n
    · subst m
      rw [Sys.said_setNode_self] at hx
      rcases hx with hx | hx
      · exact hext.commitOk_tlog (h.commits.app_commit n t prev pt ents c (Or.inl hx))
      · rcases hs.out_cases hx with hx | hx
        · exact hext.commitOk_tlog (h.commits.app_commit n t prev pt ents c (Or.inr hx))
        · cases hx with
          | app prev len hb hr hlen ha =>
              have hok := h.commits.commit_node n
              rw [← h.logs.leader_log n hr] at hok
              exact hext.commitOk_tlog hok
    · rw [Sys.said_setNode_ne s b hmn] at hx
      exact hext.commitOk_tlog (h.commits.app_commit m t prev pt ents c hx)
  case beat_commit =>
    intro m dst t c hx
    have hold : .beat m dst t c ∈ s.said m →
        (s.setNode n b).CommitOk voters termOf ((s.setNode n b).tlog t) c t ∧ (c = 0 ∨ s.Acked dst t c) := by
      intro hx
      obtain ⟨hok, ha⟩ := h.commits.beat_commit m dst t c hx
      exact ⟨hext.commitOk_tlog hok, ha⟩
    by_cases hmn : m = n
    · subst m
      rw [Sys.said_setNode_self] at hx
      rcases hx with hx | hx
      · exact hold (Or.inl hx)
      · rcases hs.out_cases hx with hx | hx
        · exact hold (Or.inr hx)
        · cases hx with
          | beat dst c hb hr hd hc hm =>
              have hok := (h.commits.commit_node n).le hc
              rw [← h.logs.leader_log n hr] at hok
              refine ⟨hext.commitOk_tlog hok, ?_⟩
              rcases h.commits.matched n dst hr hd with h0 | ha
              · exact Or.inl (by omega)
              · exact Or.inr (ha.le hm)
    · rw [Sys.said_setNode_ne s b hmn] at hx
      exact hold hx

end Act

section Flush
variable {s : Sys ι E}

theorem Sys.ext_flush (s : Sys ι E) (n : ι) : s.Ext termOf (s.flush n) := .of_tables Set.subset_union_left rfl rfl

/-- A flush can only end the chance of an index to be chosen. -/
theorem VoteInv.choosable_flush (h : VoteInv voters s) {n : ι} {t i : ℕ}
    (hc : (s.flush n).Choosable voters termOf t i) : s.Choosable voters termOf t i := by
  obtain ⟨hown, Q, hQ, ha⟩ := hc
  refine ⟨hown, Q, hQ, ?_⟩
  intro m hm
  rcases ha m hm with ⟨j, hj, hx | hx⟩ | hle
  · exact Or.inl ⟨j, hj, hx⟩
  · obtain rfl : m = n := h.out_src n _ hx
    exact Or.inr (h.out_ge m _ hx)
  · rw [Sys.disk_flush] at hle
    split at hle
    · subst m
      exact Or.inr ((h.disk_le n).trans hle)
    · exact Or.inr hle

theorem Inv.commits_flush (h : Inv voters termOf s) (n : ι) : CommitInv voters termOf (s.flush n) := by
  have hext : s.Ext termOf (s.flush n) := s.ext_flush n
  have hack : ∀ {m t j}, .ack m t j ∈ (s.flush n).said m → .ack m t j ∈ s.said m :=
    fun {m t j} hx => h.votes.said_flush (x := .ack m t j) hx
  -- a flush changes nothing of a node but its messages
  have hnode : ∀ m, ∃ xs, (s.flush n).node m = { s.node m with out := xs } := by
    intro m
    rw [Sys.node_flush]
    split
    · subst m
      exact ⟨∅, rfl⟩
    · exact ⟨_, rfl⟩
  constructor
  case app_own =>
    intro m t prev pt ents c hx
    rcases hx with hx | hx
    · exact Or.inl (h.commits.app_own m t prev pt ents c hx)
    · obtain rfl : m = n := h.votes.out_src n _ hx
      exact Or.inr (h.commits.app_own_out m t prev pt ents c hx)
  case app_own_out =>
    intro m t prev pt ents c hx
    rw [Sys.node_flush] at hx ⊢
    split at hx
    · cases hx
    · rename_i hmn
      rw [if_neg hmn]
      exact h.commits.app_own_out m t prev pt ents c hx
  case ack_len => exact fun m t j hx => h.commits.ack_len m t j (hack hx)
  case ack_node =>
    intro m t j hx ht
    obtain ⟨xs, he⟩ := hnode m
    rw [he] at ht ⊢
    exact h.commits.ack_node m t j (hack hx) ht
  case ack_disk =>
    intro m t j hx ht
    rw [Sys.disk_flush] at ht ⊢
    split at ht
    · subst m
      rw [if_pos rfl]
      exact h.commits.ack_node n t j (hack (Or.inl hx)) ht
    · rename_i hmn
      rw [if_neg hmn]
      rcases hx with hx | hx
      · exact h.commits.ack_disk m t j hx ht
      · exact absurd (h.votes.out_src n _ hx) hmn
  case keep_node =>
    intro m t i j hx hij hc
    obtain ⟨xs, he⟩ := hnode m
    rw [he]
    exact h.commits.keep_node m t i j (hack hx) hij (h.votes.choosable_flush hc)
  case keep_disk =>
    intro m t i j hx hij hc
    have hch := h.votes.choosable_flush hc
    rw [Sys.disk_flush]
    split
    · subst m
      exact h.commits.keep_node n t i j (hack (Or.inl hx)) hij hch
    · rename_i hmn
      rcases hx with hx | hx
      · exact h.commits.keep_disk m t i j hx hij hch
      · exact absurd (h.votes.out_src n _ hx) hmn
  case ack_ldr =>
    intro m t i j hx hij ho
    rcases h.commits.ack_ldr m t i j (hack hx) hij ho with hl | ⟨m', hl, ha⟩
    · exact Or.inl hl
    · exact Or.inr ⟨m', hl, hext.acked ha⟩
  case grant_log =>
    intro m c t' hx hne
    obtain ⟨li, lt, hvote, hcov⟩ :=
      h.commits.grant_log m c t' (h.votes.said_flush (x := .grant m c t') hx) hne
    exact ⟨li, lt, hext.net hvote, fun t i j ht hy hij hc =>
      hcov t i j ht (hack hy) hij (h.votes.choosable_flush hc)⟩
  case complete => exact fun t t' i ht hl hc => h.commits.complete t t' i ht hl (h.votes.choosable_flush hc)
  case matched =>
    intro m m' hr hne
    obtain ⟨xs, he⟩ := hnode m
    rw [he] at hr ⊢
    exact (h.commits.matched m m' hr hne).imp_right hext.acked
  case commit_node =>
    intro m
    obtain ⟨xs, he⟩ := hnode m
    rw [he]
    exact hext.commitOk (h.commits.commit_node m)
  case commit_disk =>
    intro m
    rw [Sys.disk_flush]
    split
    · exact hext.commitOk (h.commits.commit_node n)
    · exact hext.commitOk (h.commits.commit_disk m)
  case app_commit =>
    intro m t prev pt ents c hx
    have hx' := h.votes.said_flush (x := .app m t prev pt ents c) hx
    exact hext.commitOk_tlog (h.commits.app_commit m t prev pt ents c hx')
  case beat_commit =>
    intro m dst t c hx
    obtain ⟨hok, ha⟩ := h.commits.beat_commit m dst t c (h.votes.said_flush (x := .beat m dst t c) hx)
    exact ⟨hext.commitOk_tlog hok, ha.imp_right hext.acked⟩

theorem Inv.commits_crash (h : Inv voters termOf s) (n : ι) : CommitInv voters termOf (s.crash n) := by
  constructor
  case app_own => exact h.commits.app_own
  case app_own_out =>
    intro m t prev pt ents c hx
    rw [Sys.node_crash] at hx ⊢
    split at hx
    · cases hx
    · rename_i hmn
      rw [if_neg hmn]
      exact h.commits.app_own_out m t prev pt ents c hx
  case ack_len => exact fun m t j hx => h.commits.ack_len m t j (VoteInv.said_crash hx)
  case ack_node =>
    intro m t j hx ht
    by_cases hmn : m = n
    · subst m
      rw [Sys.said, Sys.node_crash, if_pos rfl] at hx
      rw [Sys.node_crash, if_pos rfl] at ht ⊢
      exact h.commits.ack_disk n t j (hx.resolve_right fun hx => hx) ht
    · rw [Sys.node_crash, if_neg hmn] at ht ⊢
      exact h.commits.ack_node m t j (VoteInv.said_crash hx) ht
  case ack_disk => exact h.commits.ack_disk
  case keep_node =>
    intro m t i j hx hij hc
    by_cases hmn : m = n
    · subst m
      rw [Sys.said, Sys.node_crash, if_pos rfl] at hx
      rw [Sys.node_crash, if_pos rfl]
      exact h.commits.keep_disk n t i j (hx.resolve_right fun hx => hx) hij hc
    · rw [Sys.node_crash, if_neg hmn]
      exact h.commits.keep_node m t i j (VoteInv.said_crash hx) hij hc
  case keep_disk => exact h.commits.keep_disk
  case ack_ldr => exact fun m t i j hx => h.commits.ack_ldr m t i j (VoteInv.said_crash hx)
  case grant_log =>
    intro m c t' hx hne
    obtain ⟨li, lt, hvote, hcov⟩ := h.commits.grant_log m c t' (VoteInv.said_crash hx) hne
    exact ⟨li, lt, hvote, fun t i j ht hy => hcov t i j ht (VoteInv.said_crash hy)⟩
  case complete => exact h.commits.complete
  case matched =>
    intro m m' hr hne
    rw [Sys.node_crash] at hr ⊢
    split at hr
    · cases hr
    · rename_i hmn
      rw [if_neg hmn]
      exact h.commits.matched m m' hr hne
  case commit_node =>
    intro m
    rw [Sys.node_crash]
    split
    · subst m
      exact h.commits.commit_disk n
    · exact h.commits.commit_node m
  case commit_disk => exact h.commits.commit_disk
  case app_commit =>
    exact fun m t prev pt ents c hx => h.commits.app_commit m t prev pt ents c (VoteInv.said_crash hx)
  case beat_commit => exact fun m dst t c hx => h.commits.beat_commit m dst t c (VoteInv.said_crash hx)

end Flush

section Run
variable {s s' : Sys ι E}

omit [DecidableEq ι] in
theorem Inv.init : Inv voters termOf (Sys.init : Sys ι E) := ⟨.init, .init, .init⟩

theorem Inv.step (h : Inv voters termOf s) (hv : 2 ≤ voters.card) (hs : Step voters termOf s s') :
    Inv voters termOf s' := by
  refine ⟨h.votes.step hv hs, h.logs.step h.votes hv hs, ?_⟩
  cases hs with
  | act n b hb => exact h.commits_act hv hb
  | flush n => exact h.commits_flush n
  | crash n => exact h.commits_crash n

theorem Inv.ext_step (h : Inv voters termOf s) (hv : 2 ≤ voters.card) (hs : Step voters termOf s s') :
    s.Ext termOf s' := by
  cases hs with
  | act n b hb => exact h.ext_act hv hb
  | flush n => exact s.ext_flush n
  | crash n => exact .of_tables subset_rfl rfl rfl

/-- Along a run the invariants are kept, and nothing that was said or led is forgotten. -/
theorem Inv.run (h : Inv voters termOf s) (hv : 2 ≤ voters.card)
    (hs : Relation.ReflTransGen (Step voters termOf) s s') : Inv voters termOf s' ∧ s.Ext termOf s' := by
  induction hs with
  | refl => exact ⟨h, .of_tables subset_rfl rfl rfl⟩
  | tail _ hstep ih => exact ⟨ih.1.step hv hstep, ih.2.trans (ih.1.ext_step hv hstep)⟩

omit [DecidableEq ι] in
/-- Two committed prefixes agree where both reach. -/
theorem CommitInv.agree (h : CommitInv voters termOf s) (hg : LogInv termOf s) {l l' : List E} {c c' T T' i : ℕ}
    (hc : s.CommitOk voters termOf l c T) (hc' : s.CommitOk voters termOf l' c' T') (hi : i ≤ c)
    (hi' : i ≤ c') : l.take i = l'.take i := by
  obtain ⟨hl, h0 | ⟨t, ht, k, hk, hch, he⟩⟩ := hc.le hi
  · rw [h0, List.take_zero, List.take_zero]
  obtain ⟨hl', h0 | ⟨t', ht', k', hk', hch', he'⟩⟩ := hc'.le hi'
  · rw [h0, List.take_zero, List.take_zero]
  -- an index chosen in the earlier of the two terms is in the log of the later leader
  have hled : ∀ {u v}, s.Chosen voters termOf u v → s.ldr u ≠ none := by
    intro u v hu hnone
    obtain ⟨h1, h2, -⟩ := hu.1
    rw [hg.tlog_nil u hnone] at h2
    simp only [List.length_nil] at h2
    omega
  rw [he, he']
  rcases lt_trichotomy t t' with hlt | rfl | hlt
  · exact (take_eq_of_le (h.complete t t' k hlt (hled hch') hch.choosable) hk).symm
  · rfl
  · exact take_eq_of_le (h.complete t' t k' hlt (hled hch) hch'.choosable) hk'

omit [DecidableEq ι] in
/-- What is committed in some term is in the log of every leader of a later term, also in the log
that the leader had before the commitment. -/
theorem Inv.led_covers (h' : Inv voters termOf s') (hext : s.Ext termOf s') {m : ι} {l : List E} {c T T' : ℕ}
    (hl : s.ldr T' = some m) (hT : T < T') (hc : s'.CommitOk voters termOf l c T) :
    c ≤ (s.tlog T').length ∧ (s.tlog T').take c = l.take c := by
  have hl' : s'.ldr T' ≠ none := by
    rw [hext.ldr T' m hl]
    exact Option.some_ne_none m
  obtain ⟨htake, hlen⟩ := h'.commits.commit_tlog (hc.mono hT.le) hl'
  have hle : c ≤ (s.tlog T').length := by
    by_contra hlt
    -- the entry would be one of the leader's own term, but it was chosen in an earlier one
    have hnew := hext.grow T' m hl c (by omega) hlen
    obtain ⟨-, h0 | ⟨t, ht, i, hi, hch, he⟩⟩ := hc
    · omega
    · have hold : termAt termOf (s'.tlog T') c = termAt termOf (s'.tlog t) c :=
        termAt_congr (htake.symm.trans he) le_rfl
      have := (h'.logs.tlog_log t c (by omega) (hi.trans hch.1.2.1)).2.1
      omega
  exact ⟨hle, (hext.take hle).symm.trans htake.symm⟩

omit [DecidableEq ι] in
/-- What is committed is on the disks of a majority. -/
theorem CommitInv.on_disk (h : CommitInv voters termOf s) {l : List E} {c T : ℕ} (hpos : 0 < c)
    (hc : s.CommitOk voters termOf l c T) : ∃ Q, Majority voters Q ∧ ∀ m ∈ Q, (s.disk m).log.take c = l.take c := by
  obtain ⟨-, hzero | ⟨t, -, i, hi, hch, he⟩⟩ := hc
  · omega
  obtain ⟨Q, hQ, hacked⟩ := hch.2
  refine ⟨Q, hQ, fun m hm => ?_⟩
  obtain ⟨j, hj, hack⟩ := hacked m hm
  rw [he]
  exact take_eq_of_le (h.keep_disk m t i j hack hj hch.choosable) hi

end Run

end Consensus
