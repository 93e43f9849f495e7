import RaftEtcd.Lib.Consensus.Logs

/-! Commitment. An index is chosen when a majority has acknowledged it in the term of the entry
there. The argument runs over indexes that can still be chosen: whoever could acknowledge one and
has moved to a later term either did so before, and keeps the entry, or never will. -/
namespace Consensus
variable {ι E : Type*} {voters : Finset ι} {termOf : E → ℕ}

namespace Sys

variable (termOf) in
/-- The leader of the term created the entry at this index itself. -/
def Own (s : Sys ι E) (t i : ℕ) : Prop :=
  1 ≤ i ∧ i ≤ (s.tlog t).length ∧ termAt termOf (s.tlog t) i = t

def Acked (s : Sys ι E) (m : ι) (t i : ℕ) : Prop := ∃ j, i ≤ j ∧ .ack m t j ∈ s.net

variable (voters termOf) in
def Chosen (s : Sys ι E) (t i : ℕ) : Prop :=
  s.Own termOf t i ∧ ∃ Q, Majority voters Q ∧ ∀ m ∈ Q, s.Acked m t i

variable (voters termOf) in
/-- Some majority has acknowledged the index or may still do so. -/
def Choosable (s : Sys ι E) (t i : ℕ) : Prop :=
  s.Own termOf t i ∧ ∃ Q, Majority voters Q ∧ ∀ m ∈ Q, s.Acked m t i ∨ (s.disk m).term ≤ t

variable (voters termOf) in
/-- The first `c` entries of the log are covered by an index chosen in a term up to `T`. -/
def CommitOk (s : Sys ι E) (l : List E) (c T : ℕ) : Prop :=
  c ≤ l.length ∧ (c = 0 ∨ ∃ t ≤ T, ∃ i, c ≤ i ∧ s.Chosen voters termOf t i ∧ l.take c = (s.tlog t).take c)

theorem Acked.le {s : Sys ι E} {m : ι} {t i k : ℕ} (h : s.Acked m t i) (hk : k ≤ i) : s.Acked m t k := by
  obtain ⟨j, hj, hx⟩ := h
  exact ⟨j, hk.trans hj, hx⟩

theorem Chosen.choosable {s : Sys ι E} {t i : ℕ} (h : s.Chosen voters termOf t i) :
    s.Choosable voters termOf t i := by
  obtain ⟨hown, Q, hQ, ha⟩ := h
  exact ⟨hown, Q, hQ, fun m hm => Or.inl (ha m hm)⟩

theorem CommitOk.le {s : Sys ι E} {l : List E} {c c' T : ℕ} (h : s.CommitOk voters termOf l c T)
    (hc : c' ≤ c) : s.CommitOk voters termOf l c' T := by
  obtain ⟨hl, h0 | ⟨t, ht, i, hi, hch, he⟩⟩ := h
  · exact ⟨hc.trans hl, Or.inl (by omega)⟩
  · exact ⟨hc.trans hl, Or.inr ⟨t, ht, i, hc.trans hi, hch, take_eq_of_le he hc⟩⟩

theorem CommitOk.mono {s : Sys ι E} {l : List E} {c T T' : ℕ} (h : s.CommitOk voters termOf l c T)
    (hT : T ≤ T') : s.CommitOk voters termOf l c T' := by
  obtain ⟨hl, h0 | ⟨t, ht, hrest⟩⟩ := h
  · exact ⟨hl, Or.inl h0⟩
  · exact ⟨hl, Or.inr ⟨t, ht.trans hT, hrest⟩⟩

theorem CommitOk.congr {s : Sys ι E} {l l' : List E} {c T : ℕ} (h : s.CommitOk voters termOf l c T)
    (he : l'.take c = l.take c) : s.CommitOk voters termOf l' c T := by
  obtain ⟨hl, hrest⟩ := h
  refine ⟨le_length_of_take_eq he.symm hl, ?_⟩
  rw [he]
  exact hrest

variable (termOf) in
/-- The later of two states of a run: messages stay on the net, leaders stay known and their logs
grow by entries of their own terms. -/
structure Ext (s s' : Sys ι E) : Prop where
  net : s.net ⊆ s'.net
  tlog : ∀ t, s.tlog t <+: s'.tlog t
  ldr : ∀ t n, s.ldr t = some n → s'.ldr t = some n
  grow : ∀ t n, s.ldr t = some n → ∀ i, (s.tlog t).length < i → i ≤ (s'.tlog t).length →
    termAt termOf (s'.tlog t) i = t

namespace Ext
variable {s s' s'' : Sys ι E}

/-- Nothing but nodes and disks is different. -/
theorem of_tables (hnet : s.net ⊆ s'.net) (htlog : s'.tlog = s.tlog) (hldr : s'.ldr = s.ldr) : s.Ext termOf s' where
  net := hnet
  tlog t := htlog ▸ List.prefix_rfl
  ldr t n h := hldr ▸ h
  grow t n _ i hlt hle := by
    rw [htlog] at hle
    omega

theorem trans (h : s.Ext termOf s') (h' : s'.Ext termOf s'') : s.Ext termOf s'' where
  net := h.net.trans h'.net
  tlog t := (h.tlog t).trans (h'.tlog t)
  ldr t n hl := h'.ldr t n (h.ldr t n hl)
  grow t n hl i hlt hle := by
    by_cases hi : i ≤ (s'.tlog t).length
    · rw [termAt_of_initial (h'.tlog t) hi]
      exact h.grow t n hl i hlt hi
    · exact h'.grow t n (h.ldr t n hl) i (by omega) hle

theorem own (h : s.Ext termOf s') {t i : ℕ} (ho : s.Own termOf t i) : s'.Own termOf t i := by
  obtain ⟨h1, h2, h3⟩ := ho
  exact ⟨h1, h2.trans (h.tlog t).length_le, (termAt_of_initial (h.tlog t) h2).trans h3⟩

/-- An index inside the old log of the leader was its own before. -/
theorem own_old (h : s.Ext termOf s') {t i : ℕ} (ho : s'.Own termOf t i) (hi : i ≤ (s.tlog t).length) :
    s.Own termOf t i := ⟨ho.1, hi, (termAt_of_initial (h.tlog t) hi).symm.trans ho.2.2⟩

theorem acked (h : s.Ext termOf s') {m : ι} {t i : ℕ} (ha : s.Acked m t i) : s'.Acked m t i := by
  obtain ⟨j, hj, hx⟩ := ha
  exact ⟨j, hj, h.net hx⟩

theorem chosen (h : s.Ext termOf s') {t i : ℕ} (hc : s.Chosen voters termOf t i) : s'.Chosen voters termOf t i := by
  obtain ⟨hown, Q, hQ, ha⟩ := hc
  exact ⟨h.own hown, Q, hQ, fun m hm => h.acked (ha m hm)⟩

theorem take (h : s.Ext termOf s') {t i : ℕ} (hi : i ≤ (s.tlog t).length) :
    (s'.tlog t).take i = (s.tlog t).take i := take_of_initial (h.tlog t) hi

theorem commitOk (h : s.Ext termOf s') {l : List E} {c T : ℕ} (hc : s.CommitOk voters termOf l c T) :
    s'.CommitOk voters termOf l c T := by
  obtain ⟨hl, h0 | ⟨t, ht, i, hi, hch, he⟩⟩ := hc
  · exact ⟨hl, Or.inl h0⟩
  · refine ⟨hl, Or.inr ⟨t, ht, i, hi, h.chosen hch, ?_⟩⟩
    rw [h.take (hi.trans hch.1.2.1)]
    exact he

theorem commitOk_tlog (h : s.Ext termOf s') {t c T : ℕ} (hc : s.CommitOk voters termOf (s.tlog t) c T) :
    s'.CommitOk voters termOf (s'.tlog t) c T := (h.commitOk hc).congr (h.take hc.1)

end Ext

end Sys

variable (voters termOf) in
structure CommitInv (s : Sys ι E) : Prop where
  app_own : ∀ n t prev pt ents c, .app n t prev pt ents c ∈ s.net → .ack n t (prev + ents.length) ∈ s.net
  app_own_out : ∀ n t prev pt ents c, .app n t prev pt ents c ∈ (s.node n).out →
    .ack n t (prev + ents.length) ∈ (s.node n).out
  ack_len : ∀ m t j, .ack m t j ∈ s.said m → j ≤ (s.tlog t).length
  ack_node : ∀ m t j, .ack m t j ∈ s.said m → (s.node m).term = t →
    (s.node m).log.take j = (s.tlog t).take j
  ack_disk : ∀ m t j, .ack m t j ∈ s.net → (s.disk m).term = t → (s.disk m).log.take j = (s.tlog t).take j
  keep_node : ∀ m t i j, .ack m t j ∈ s.said m → i ≤ j → s.Choosable voters termOf t i →
    (s.node m).log.take i = (s.tlog t).take i
  keep_disk : ∀ m t i j, .ack m t j ∈ s.net → i ≤ j → s.Choosable voters termOf t i →
    (s.disk m).log.take i = (s.tlog t).take i
  ack_ldr : ∀ m t i j, .ack m t j ∈ s.said m → i ≤ j → s.Own termOf t i →
    s.ldr t = some m ∨ ∃ n, s.ldr t = some n ∧ s.Acked n t i
  grant_log : ∀ m c t', .grant m c t' ∈ s.said m → m ≠ c → ∃ li lt, .vote c t' li lt ∈ s.net ∧
    ∀ t i j, t < t' → .ack m t j ∈ s.said m → i ≤ j → s.Choosable voters termOf t i →
      i ≤ li ∧ (s.tlog lt).take i = (s.tlog t).take i
  complete : ∀ t t' i, t < t' → s.ldr t' ≠ none → s.Choosable voters termOf t i →
    (s.tlog t').take i = (s.tlog t).take i
  matched : ∀ n m, (s.node n).role = .leader → m ≠ n →
    (s.node n).matched m = 0 ∨ s.Acked m (s.node n).term ((s.node n).matched m)
  commit_node : ∀ n, s.CommitOk voters termOf (s.node n).log (s.node n).commit (s.node n).term
  commit_disk : ∀ n, s.CommitOk voters termOf (s.disk n).log (s.disk n).commit (s.disk n).term
  app_commit : ∀ n t prev pt ents c, .app n t prev pt ents c ∈ s.said n →
    s.CommitOk voters termOf (s.tlog t) c t
  beat_commit : ∀ n dst t c, .beat n dst t c ∈ s.said n →
    s.CommitOk voters termOf (s.tlog t) c t ∧ (c = 0 ∨ s.Acked dst t c)

namespace CommitInv
variable {s : Sys ι E} {n : ι} {b : Node ι E}

theorem init : CommitInv voters termOf (Sys.init : Sys ι E) := by
  constructor <;> simp [Sys.init, Sys.said, Disk.node, Sys.CommitOk]

/-- A committed prefix is part of the log of every leader of a term not below it. -/
theorem commit_tlog (h : CommitInv voters termOf s) {l : List E} {c T : ℕ}
    (hc : s.CommitOk voters termOf l c T) (hl : s.ldr T ≠ none) :
    l.take c = (s.tlog T).take c ∧ c ≤ (s.tlog T).length := by
  obtain ⟨hlen, h0 | ⟨t, ht, i, hi, hch, he⟩⟩ := hc
  · rw [h0, List.take_zero, List.take_zero]
    exact ⟨rfl, Nat.zero_le _⟩
  · have htake : (s.tlog T).take i = (s.tlog t).take i := by
      rcases Nat.eq_or_lt_of_le ht with rfl | hlt
      · rfl
      · exact h.complete t T i hlt hl hch.choosable
    have heq : l.take c = (s.tlog T).take c := he.trans (take_eq_of_le htake hi).symm
    exact ⟨heq, le_length_of_take_eq heq hlen⟩

/-- An index that is chosen has been acknowledged by the leader of its term. -/
theorem chosen_ldr [DecidableEq ι] (h : CommitInv voters termOf s) {t i : ℕ}
    (hc : s.Chosen voters termOf t i) : ∃ n, s.ldr t = some n ∧ s.Acked n t i := by
  obtain ⟨hown, Q, hQ, ha⟩ := hc
  obtain ⟨m, hm, -⟩ := hQ.meet hQ
  obtain ⟨j, hj, hx⟩ := ha m hm
  rcases h.ack_ldr m t i j (Or.inl hx) hj hown with hl | hl
  · exact ⟨m, hl, j, hj, hx⟩
  · exact hl

/-- A candidate whose log is up to date for a node holds what that node has acknowledged. -/
theorem up_to_date_covers (h : CommitInv voters termOf s) (hg : LogInv termOf s) {t i li lt : ℕ}
    (hc : s.Choosable voters termOf t i) (hlog : (s.node n).log.take i = (s.tlog t).take i)
    (hu : UpToDate termOf (s.node n).log li lt) (hli : li ≤ (s.tlog lt).length)
    (hlt : termAt termOf (s.tlog lt) li = lt) : i ≤ li ∧ (s.tlog lt).take i = (s.tlog t).take i := by
  obtain ⟨h1, h2, h3⟩ := hc.1
  have hlen : i ≤ (s.node n).log.length := le_length_of_take_eq hlog.symm h2
  have hterm : termAt termOf (s.node n).log i = t := (termAt_congr hlog le_rfl).trans h3
  have hlast : t ≤ lastTerm termOf (s.node n).log := by
    rw [← hterm]
    exact (hg.node_log n).termAt_mono hg.tlog_log hlen le_rfl
  have hground := (hg.node_log n _ (h1.trans hlen) le_rfl).2.2
  rcases hu with hlt' | ⟨heq, hle⟩
  · -- the candidate's last entry is of a later term, whose leader had the index
    have hpos : 1 ≤ termAt termOf (s.tlog lt) li := by omega
    have hldr : s.ldr lt ≠ none := by
      intro hnone
      have := le_length_of_termAt_pos hpos
      rw [hg.tlog_nil lt hnone] at this hpos
      simp only [List.length_nil, Nat.le_zero] at this
      subst this
      simp at hpos
    have htake := h.complete t lt i (by omega) hldr hc
    refine ⟨?_, htake⟩
    by_contra hi
    have hmono := (hg.tlog_log lt).termAt_mono hg.tlog_log (i := li) (k := i) (by omega)
      (le_length_of_take_eq htake.symm h2)
    rw [hlt, termAt_congr htake le_rfl, h3] at hmono
    omega
  · refine ⟨hlen.trans hle, ?_⟩
    rw [← hlog]
    rw [← heq]
    exact (take_eq_of_le hground hlen).symm

end CommitInv

end Consensus
