import RaftEtcd.Lib.Consensus.Votes

/-! Logs. Every log is made of prefixes of the logs that leaders had in their terms, and so are the
entries on the net; the log of a leader only grows. -/
namespace Consensus
variable {ι E : Type*} {voters : Finset ι} {termOf : E → ℕ}

variable (termOf) in
structure LogInv (s : Sys ι E) : Prop where
  tlog_nil : ∀ t, s.ldr t = none → s.tlog t = []
  leader_pos : ∀ n, (s.node n).role = .leader → 1 ≤ (s.node n).term
  leader_log : ∀ n, (s.node n).role = .leader → s.tlog (s.node n).term = (s.node n).log
  node_log : ∀ n, Grounded termOf s.tlog (s.node n).log (s.node n).term
  disk_log : ∀ n, Grounded termOf s.tlog (s.disk n).log (s.disk n).term
  tlog_log : ∀ t, Grounded termOf s.tlog (s.tlog t) t
  cand_log : ∀ n, (s.node n).role = .candidate → ∀ i, termAt termOf (s.node n).log i < (s.node n).term
  vote_end : ∀ n t li lt, .vote n t li lt ∈ s.said n →
    lt < t ∧ li ≤ (s.tlog lt).length ∧ termAt termOf (s.tlog lt) li = lt
  vote_cand : ∀ n t li lt, .vote n t li lt ∈ s.said n → (s.node n).term = t →
    (s.node n).role = .candidate → li = (s.node n).log.length ∧ lt = lastTerm termOf (s.node n).log
  app_slice : ∀ n t prev pt ents c, .app n t prev pt ents c ∈ s.said n →
    s.ldr t = some n ∧ prev + ents.length ≤ (s.tlog t).length ∧
      ents = ((s.tlog t).drop prev).take ents.length ∧ pt = termAt termOf (s.tlog t) prev

/-- A slice of a log stays a slice when the log grows. -/
theorem slice_of_initial {l l' : List E} (h : l <+: l') {prev k : ℕ} (hk : prev + k ≤ l.length) :
    (l'.drop prev).take k = (l.drop prev).take k := by
  obtain ⟨x, rfl⟩ := h
  rw [List.drop_append_of_le_length (by omega),
    List.take_append_of_le_length (by rw [List.length_drop]; omega)]

/-- The terms behind the old end of a log are those of the new entries. -/
theorem termAt_append_new {l es : List E} {t i : ℕ} (hes : ∀ e ∈ es, termOf e = t) (h1 : l.length < i)
    (h2 : i ≤ (l ++ es).length) : termAt termOf (l ++ es) i = t := by
  obtain ⟨j, rfl⟩ : ∃ j, i = l.length + j + 1 := ⟨i - l.length - 1, by omega⟩
  rw [termAt_get h2, List.getElem_append_right (by omega)]
  exact hes _ (List.getElem_mem _)

/-- A grounded log stays grounded when a leader appends entries of its own term. -/
theorem Grounded.append {tlog tlog' : ℕ → List E} {l es : List E} {t : ℕ} (h : Grounded termOf tlog l t)
    (hext : ∀ u, tlog u <+: tlog' u) (ht : 1 ≤ t) (hes : ∀ e ∈ es, termOf e = t)
    (hl : tlog' t = l ++ es) : Grounded termOf tlog' (l ++ es) t := by
  intro i h1 h2
  by_cases hi : i ≤ l.length
  · rw [termAt_append hi, List.take_append_of_le_length hi]
    exact h.extend hext i h1 hi
  · have hterm : termAt termOf (l ++ es) i = t := termAt_append_new hes (by omega) h2
    rw [hterm, hl]
    exact ⟨ht, le_rfl, rfl⟩

namespace LogInv
variable {s : Sys ι E} {n : ι} {b : Node ι E}

theorem init : LogInv termOf (Sys.init : Sys ι E) := by
  constructor <;> simp [Sys.init, Sys.said, Disk.node, Grounded.nil]

/-- The end of a log, as a candidate reports it. -/
theorem log_end (h : LogInv termOf s) (hr : (s.node n).role = .candidate) :
    lastTerm termOf (s.node n).log < (s.node n).term ∧
      (s.node n).log.length ≤ (s.tlog (lastTerm termOf (s.node n).log)).length ∧
      termAt termOf (s.tlog (lastTerm termOf (s.node n).log)) (s.node n).log.length =
        lastTerm termOf (s.node n).log := by
  refine ⟨h.cand_log n hr _, ?_⟩
  rcases Nat.eq_zero_or_pos (s.node n).log.length with h0 | h0
  · rw [lastTerm, h0]
    exact ⟨Nat.zero_le _, rfl⟩
  · have hg := h.node_log n _ h0 le_rfl
    exact ⟨(h.node_log n).le_length h0 le_rfl, (termAt_congr hg.2.2 le_rfl).symm⟩

/-- Log matching between any two nodes. -/
theorem log_matching (h : LogInv termOf s) {m n : ι} {i : ℕ} (hm : i ≤ (s.node m).log.length)
    (hn : i ≤ (s.node n).log.length)
    (ht : termAt termOf (s.node m).log i = termAt termOf (s.node n).log i) :
    (s.node m).log.take i = (s.node n).log.take i := (h.node_log m).take_eq (h.node_log n) hm hn ht

/-- What a received append says about the log of the leader that sent it. -/
theorem app_net (h : LogInv termOf s) {src : ι} {t prev pt c : ℕ} {ents : List E}
    (hx : .app src t prev pt ents c ∈ s.net) :
    s.ldr t = some src ∧ prev + ents.length ≤ (s.tlog t).length ∧
      ents = ((s.tlog t).drop prev).take ents.length ∧ pt = termAt termOf (s.tlog t) prev :=
  h.app_slice src t prev pt ents c (Or.inl hx)

/-- Merging received entries keeps a log grounded. -/
theorem merge_grounded (h : LogInv termOf s) {src : ι} {prev pt c commit : ℕ} {ents log' : List E}
    (hx : .app src (s.node n).term prev pt ents c ∈ s.net) (hp : termAt termOf (s.node n).log prev = pt)
    (hm : Merge termOf (s.node n).log prev ents commit log') :
    Grounded termOf s.tlog log' (s.node n).term := by
  obtain ⟨-, hlen, hents, hpt⟩ := h.app_net hx
  rw [hents] at hm
  exact hm.grounded (h.node_log n) (h.tlog_log _) hlen (hp.trans hpt)

variable [DecidableEq ι]

/-- The leader of a term never changes. -/
theorem ldr_keep (hi : VoteInv voters s) (hv : 2 ≤ voters.card)
    (hs : LocalStep voters termOf s.net n (s.node n) b) {t : ℕ} {m : ι} (hl : s.ldr t = some m) :
    (s.setNode n b).ldr t = some m := by
  rw [Sys.ldr_setNode]
  split
  · rename_i hb
    obtain ⟨hb, rfl⟩ := hb
    rcases (hi.ldr_of_step hv hs hb).1 with hn | hn
    · rw [hl] at hn
      cases hn
    · rw [← hl, hn]
  · exact hl

/-- The log of a leader only grows. -/
theorem tlog_grows (h : LogInv termOf s) (hi : VoteInv voters s) (hv : 2 ≤ voters.card)
    (hs : LocalStep voters termOf s.net n (s.node n) b) (t : ℕ) : s.tlog t <+: (s.setNode n b).tlog t := by
  rw [Sys.tlog_setNode]
  split
  · rename_i hb
    obtain ⟨hb, rfl⟩ := hb
    obtain ⟨ht, hr | ⟨hr, hlog, hn, Q, hQ, hc⟩⟩ := hs.role_leader hb
    · rw [← ht, h.leader_log n hr]
      rcases hs.log_cases with hlog | ⟨-, -, -, es, hlog, -⟩ | ⟨-, hf, -⟩
      · rw [hlog]
      · exact ⟨es, hlog.symm⟩
      · rw [hf] at hb
        cases hb
    · rw [← ht, h.tlog_nil _ (hi.ldr_none_of_majority hv hn hr hQ hc)]
      exact List.nil_prefix
  · exact List.prefix_rfl

theorem node_log_step (h : LogInv termOf s) (hi : VoteInv voters s) (hv : 2 ≤ voters.card)
    (hs : LocalStep voters termOf s.net n (s.node n) b) :
    Grounded termOf (s.setNode n b).tlog b.log b.term := by
  have hext := h.tlog_grows hi hv hs
  rcases hs.log_cases with hlog | ⟨ht, hr, hb, es, hlog, hes⟩ | ⟨ht, hr, src, prev, pt, ents, c, hx, hp, hm⟩
  · rw [hlog]
    exact ((h.node_log n).extend hext).mono hs.term_le
  · have htl : (s.setNode n b).tlog b.term = (s.node n).log ++ es := by
      rw [Sys.tlog_setNode, if_pos ⟨hb, rfl⟩, hlog]
    rw [ht] at htl ⊢
    rw [hlog]
    exact (h.node_log n).append hext (h.leader_pos n hr) hes htl
  · rw [ht]
    exact (h.merge_grounded hx hp hm).extend hext

theorem act (h : LogInv termOf s) (hi : VoteInv voters s) (hv : 2 ≤ voters.card)
    (hs : LocalStep voters termOf s.net n (s.node n) b) : LogInv termOf (s.setNode n b) := by
  have hext := h.tlog_grows hi hv hs
  have hnode := h.node_log_step hi hv hs
  -- votes and appends said before keep their meaning while the tables grow
  have hvote : ∀ m t li lt, .vote m t li lt ∈ s.said m → lt < t ∧
      li ≤ ((s.setNode n b).tlog lt).length ∧ termAt termOf ((s.setNode n b).tlog lt) li = lt := by
    intro m t li lt hx
    obtain ⟨hlt, hle, hterm⟩ := h.vote_end m t li lt hx
    exact ⟨hlt, hle.trans (hext lt).length_le, (termAt_of_initial (hext lt) hle).trans hterm⟩
  have happ : ∀ m t prev pt ents c, .app m t prev pt ents c ∈ s.said m →
      (s.setNode n b).ldr t = some m ∧ prev + ents.length ≤ ((s.setNode n b).tlog t).length ∧
        ents = (((s.setNode n b).tlog t).drop prev).take ents.length ∧
        pt = termAt termOf ((s.setNode n b).tlog t) prev := by
    intro m t prev pt ents c hx
    obtain ⟨hl, hle, hents, hpt⟩ := h.app_slice m t prev pt ents c hx
    refine ⟨ldr_keep hi hv hs hl, hle.trans (hext t).length_le, ?_, ?_⟩
    · rw [slice_of_initial (hext t) hle]
      exact hents
    · rw [termAt_of_initial (hext t) (by omega)]
      exact hpt
  constructor
  case tlog_nil =>
    intro t hl
    rw [Sys.ldr_setNode] at hl
    rw [Sys.tlog_setNode]
    split at hl
    · cases hl
    · rename_i hb
      rw [if_neg hb]
      exact h.tlog_nil t hl
  case leader_pos =>
    intro m hr
    rw [Sys.node_setNode] at hr ⊢
    split at hr
    · subst m
      rw [if_pos rfl]
      obtain ⟨ht, hr' | ⟨hr', -⟩⟩ := hs.role_leader hr
      · exact ht ▸ h.leader_pos n hr'
      · exact ht ▸ Nat.lt_of_le_of_lt (Nat.zero_le _) (h.cand_log n hr' 0)
    · rename_i hmn
      rw [if_neg hmn]
      exact h.leader_pos m hr
  case leader_log =>
    intro m hr
    rw [Sys.node_setNode] at hr ⊢
    rw [Sys.tlog_setNode]
    split at hr
    · subst m
      rw [if_pos rfl, if_pos ⟨hr, rfl⟩]
    · rename_i hmn
      rw [if_neg hmn]
      split
      · -- the changed table entry would belong to a second leader of the term
        rename_i hb
        have hl := ldr_keep hi hv hs (hi.leader_ldr m hr)
        rw [Sys.ldr_setNode, if_pos hb] at hl
        exact absurd (Option.some.inj hl).symm hmn
      · exact h.leader_log m hr
  case node_log =>
    intro m
    rw [Sys.node_setNode]
    split
    · subst m
      exact hnode
    · exact (h.node_log m).extend hext
  case disk_log => exact fun m => (h.disk_log m).extend hext
  case tlog_log =>
    intro t
    by_cases hb : b.role = .leader ∧ t = b.term
    · obtain ⟨hb, rfl⟩ := hb
      rw [show (s.setNode n b).tlog b.term = b.log by rw [Sys.tlog_setNode, if_pos ⟨hb, rfl⟩]]
      exact hnode
    · rw [show (s.setNode n b).tlog t = s.tlog t by rw [Sys.tlog_setNode, if_neg hb]]
      exact (h.tlog_log t).extend hext
  case cand_log =>
    intro m hr i
    rw [Sys.node_setNode] at hr ⊢
    split at hr
    · subst m
      rw [if_pos rfl]
      obtain ⟨hlog, ⟨hr', ht⟩ | ht⟩ := hs.role_candidate hr
      · rw [hlog, ← ht]
        exact h.cand_log n hr' i
      · rw [hlog]
        rcases Nat.eq_zero_or_pos i with rfl | h1
        · exact Nat.lt_of_le_of_lt (Nat.zero_le _) ht
        · by_cases hi' : i ≤ (s.node n).log.length
          · exact (h.node_log n i h1 hi').2.1.trans_lt ht
          · rw [termAt_eq_zero (by omega)]
            omega
    · rename_i hmn
      rw [if_neg hmn]
      exact h.cand_log m hr i
  case vote_end =>
    intro m t li lt hx
    by_cases hmn : m = n
    · subst m
      rw [Sys.said_setNode_self] at hx
      rcases hx with hx | hx
      · exact hvote n t li lt (Or.inl hx)
      · rcases hs.out_cases hx with hx | hx
        · exact hvote n t li lt (Or.inr hx)
        · cases hx with
          | vote hb hr hg =>
              obtain ⟨h1, h2, h3⟩ := h.log_end hr
              exact ⟨h1, h2.trans (hext _).length_le, (termAt_of_initial (hext _) h2).trans h3⟩
    · rw [Sys.said_setNode_ne s b hmn] at hx
      exact hvote m t li lt hx
  case vote_cand =>
    intro m t li lt hx ht hr
    by_cases hmn : m = n
    · subst m
      rw [Sys.said_setNode_self] at hx
      rw [Sys.node_setNode, if_pos rfl] at ht hr ⊢
      obtain ⟨hlog, hrole⟩ := hs.role_candidate hr
      have hold : .vote n t li lt ∈ s.said n → li = b.log.length ∧ lt = lastTerm termOf b.log := by
        intro hx
        have hle : t ≤ (s.node n).term := hi.said_le (x := .vote n t li lt) hx
        rcases hrole with ⟨hr', ht'⟩ | hlt
        · rw [hlog]
          exact h.vote_cand n t li lt hx (ht'.trans ht) hr'
        · omega
      rcases hx with hx | hx
      · exact hold (Or.inl hx)
      · rcases hs.out_cases hx with hx | hx
        · exact hold (Or.inr hx)
        · cases hx with
          | vote hb hr' hg =>
              rw [hlog]
              exact ⟨rfl, rfl⟩
    · rw [Sys.said_setNode_ne s b hmn] at hx
      rw [Sys.node_setNode, if_neg hmn] at ht hr ⊢
      exact h.vote_cand m t li lt hx ht hr
  case app_slice =>
    intro m t prev pt ents c hx
    by_cases hmn : m = n
    · subst m
      rw [Sys.said_setNode_self] at hx
      rcases hx with hx | hx
      · exact happ n t prev pt ents c (Or.inl hx)
      · rcases hs.out_cases hx with hx | hx
        · exact happ n t prev pt ents c (Or.inr hx)
        · cases hx with
          | app prev len hb hr hlen ha =>
              have hlead : b.role = .leader ∧ (s.node n).term = b.term := ⟨hb.role.trans hr, hb.term.symm⟩
              have hl : (((s.node n).log.drop prev).take len).length = len := by
                rw [List.length_take, List.length_drop]
                omega
              rw [Sys.ldr_setNode, Sys.tlog_setNode, if_pos hlead, if_pos hlead, hb.log, hl]
              exact ⟨rfl, hlen, rfl, rfl⟩
    · rw [Sys.said_setNode_ne s b hmn] at hx
      exact happ m t prev pt ents c hx

theorem flush (h : LogInv termOf s) (hi : VoteInv voters s) (n : ι) : LogInv termOf (s.flush n) := by
  -- a flush changes neither the role, the term nor the log of a node
  have hnode : ∀ m, ((s.flush n).node m).role = (s.node m).role ∧
      ((s.flush n).node m).term = (s.node m).term ∧ ((s.flush n).node m).log = (s.node m).log := by
    intro m
    rw [Sys.node_flush]
    split
    · subst m
      exact ⟨rfl, rfl, rfl⟩
    · exact ⟨rfl, rfl, rfl⟩
  constructor
  case tlog_nil => exact h.tlog_nil
  case leader_pos =>
    intro m hr
    rw [(hnode m).1] at hr
    rw [(hnode m).2.1]
    exact h.leader_pos m hr
  case leader_log =>
    intro m hr
    rw [(hnode m).1] at hr
    rw [(hnode m).2.1, (hnode m).2.2]
    exact h.leader_log m hr
  case node_log =>
    intro m
    rw [(hnode m).2.1, (hnode m).2.2]
    exact h.node_log m
  case disk_log =>
    intro m
    rw [Sys.disk_flush]
    split
    · exact h.node_log n
    · exact h.disk_log m
  case tlog_log => exact h.tlog_log
  case cand_log =>
    intro m hr
    rw [(hnode m).1] at hr
    rw [(hnode m).2.1, (hnode m).2.2]
    exact h.cand_log m hr
  case vote_end => exact fun m t li lt hx => h.vote_end m t li lt (hi.said_flush (x := .vote m t li lt) hx)
  case vote_cand =>
    intro m t li lt hx ht hr
    rw [(hnode m).1] at hr
    rw [(hnode m).2.1] at ht
    rw [(hnode m).2.2]
    exact h.vote_cand m t li lt (hi.said_flush (x := .vote m t li lt) hx) ht hr
  case app_slice =>
    intro m t prev pt ents c hx
    exact h.app_slice m t prev pt ents c (hi.said_flush (x := .app m t prev pt ents c) hx)

theorem crash (h : LogInv termOf s) (n : ι) : LogInv termOf (s.crash n) := by
  constructor
  case tlog_nil => exact h.tlog_nil
  case leader_pos =>
    intro m hr
    rw [Sys.node_crash] at hr ⊢
    split at hr
    · cases hr
    · rename_i hmn
      rw [if_neg hmn]
      exact h.leader_pos m hr
  case leader_log =>
    intro m hr
    rw [Sys.node_crash] at hr ⊢
    split at hr
    · cases hr
    · rename_i hmn
      rw [if_neg hmn]
      exact h.leader_log m hr
  case node_log =>
    intro m
    rw [Sys.node_crash]
    split
    · subst m
      exact h.disk_log n
    · exact h.node_log m
  case disk_log => exact h.disk_log
  case tlog_log => exact h.tlog_log
  case cand_log =>
    intro m hr
    rw [Sys.node_crash] at hr ⊢
    split at hr
    · cases hr
    · rename_i hmn
      rw [if_neg hmn]
      exact h.cand_log m hr
  case vote_end => exact fun m t li lt hx => h.vote_end m t li lt (VoteInv.said_crash hx)
  case vote_cand =>
    intro m t li lt hx ht hr
    rw [Sys.node_crash] at ht hr ⊢
    split at hr
    · cases hr
    · rename_i hmn
      rw [if_neg hmn] at ht ⊢
      exact h.vote_cand m t li lt (VoteInv.said_crash hx) ht hr
  case app_slice =>
    exact fun m t prev pt ents c hx => h.app_slice m t prev pt ents c (VoteInv.said_crash hx)

theorem step (h : LogInv termOf s) (hi : VoteInv voters s) (hv : 2 ≤ voters.card) {s' : Sys ι E}
    (hs : Step voters termOf s s') : LogInv termOf s' := by
  cases hs with
  | act n b hb => exact h.act hi hv hb
  | flush n => exact h.flush hi n
  | crash n => exact h.crash n

end LogInv

end Consensus
