import RaftEtcd.LogicalLog.Run

/-! `RaftLog::maybe_append`: what a follower does with the entries of a leader. They are compared with the
log one by one; the log is cut only where one of them is not the entry that it has, so that entries which
come again, in any order, change nothing. -/
namespace RaftEtcd

namespace LogicalLog
variable {g : LogicalLog} {es : List Entry} {index i t : Nat}

/-- The entry with an index stands where the index says. -/
theorem entry_eq (h : IndexedFrom (g.index + 1) g.entries) (i : Nat) :
    g.entry i = if i ≤ g.index then none else g.entries[i - g.index - 1]? := by
  rw [entry]
  cases hfind : g.entries.find? (·.index == i) with
  | none =>
      split
      · rfl
      · cases hget : g.entries[i - g.index - 1]? with
        | none => rfl
        | some e =>
            have he := h _ e hget
            have hne := List.find?_eq_none.mp hfind e (List.mem_of_getElem? hget)
            simp only [beq_iff_eq] at hne
            omega
  | some e =>
      have hi : e.index = i := by simpa using List.find?_some hfind
      obtain ⟨k, hk⟩ := List.getElem?_of_mem (List.mem_of_find?_eq_some hfind)
      have he := h k e hk
      rw [if_neg (by omega), show i - g.index - 1 = k by omega, hk]

theorem termOf_entry (h : IndexedFrom (g.index + 1) g.entries) (hi : g.index < i) :
    g.termOf i = (g.entry i).elim 0 Entry.term := by
  rw [termOf, if_neg (by omega), if_neg (by omega), entry_eq h, if_neg (by omega)]

theorem entry_isSome (h : IndexedFrom (g.index + 1) g.entries) :
    (g.entry i).isSome ↔ g.index < i ∧ i ≤ g.lastIndex := by
  rw [entry_eq h, lastIndex]
  split
  · simp only [Option.isSome_none, Bool.false_eq_true, false_iff]
    omega
  · rw [isSome_getElem?]
    omega

/-- A term other than 0 is found inside the log only. -/
theorem le_lastIndex_of_matchTerm (ht : t ≠ 0) (h : g.matchTerm i t = true) : g.index ≤ i ∧ i ≤ g.lastIndex := by
  have heq : t = g.termOf i := by simpa [matchTerm] using h
  rw [termOf] at heq
  split at heq
  · exact absurd heq ht
  split at heq
  · rw [lastIndex]
    omega
  · cases hget : g.entries[i - g.index - 1]? with
    | none =>
        rw [hget] at heq
        exact absurd heq ht
    | some e =>
        have := (List.getElem?_eq_some_iff.mp hget).1
        rw [lastIndex]
        omega

theorem matchTerm_entry (h : IndexedFrom (g.index + 1) g.entries) (hi : g.index < i) (ht : t ≠ 0) :
    g.matchTerm i t = true ↔ ∃ e, g.entry i = some e ∧ e.term = t := by
  rw [matchTerm, beq_iff_eq, termOf_entry h hi]
  cases g.entry i with
  | none => simpa using ht
  | some e =>
      simp only [Option.elim_some, Option.some.injEq, exists_eq_left']
      exact eq_comm

/-- How many of the given entries the log holds before the first that it does not hold. -/
def held (g : LogicalLog) (es : List Entry) : Nat := es.findIdx fun e => !g.matchTerm e.index e.term

theorem dropWhile_held (g : LogicalLog) (es : List Entry) :
    es.dropWhile (fun e => g.matchTerm e.index e.term) = es.drop (g.held es) := List.dropWhile_eq_drop_findIdx_not

theorem held_le (g : LogicalLog) (es : List Entry) : g.held es ≤ es.length := List.findIdx_le_length

theorem matchTerm_of_lt_held {k : Nat} {e : Entry} (hk : k < g.held es) (he : es[k]? = some e) :
    g.matchTerm e.index e.term = true := by
  obtain ⟨hlt, rfl⟩ := List.getElem?_eq_some_iff.mp he
  simpa using List.not_of_lt_findIdx hk

theorem not_matchTerm_held {e : Entry} (he : es[g.held es]? = some e) : g.matchTerm e.index e.term = false := by
  simpa using List.findIdx_of_getElem?_eq_some he

theorem held_eq_length : g.held es = es.length ↔ ∀ e ∈ es, g.matchTerm e.index e.term = true := by
  simp [held, List.findIdx_eq_length]

/-- What the entries are put behind, when the entry before them is in the log. -/
structure Accepts (g : LogicalLog) (index : Nat) (es : List Entry) : Prop where
  indexed : IndexedFrom (g.index + 1) g.entries
  base_le : g.index ≤ index
  le_last : index ≤ g.lastIndex
  given : IndexedFrom (index + 1) es
  terms : ∀ e ∈ es, e.term ≠ 0

namespace Accepts

theorem index_of_get (h : g.Accepts index es) {k : Nat} {e : Entry} (he : es[k]? = some e) :
    e.index = index + 1 + k ∧ g.index < e.index ∧ e.term ≠ 0 := by
  have hi := h.given k e he
  have hb := h.base_le
  exact ⟨hi, by omega, h.terms e (List.mem_of_getElem? he)⟩

/-- The entries that are held are in the log, and the first that is not held comes right behind. -/
theorem held_reaches (h : g.Accepts index es) : index + g.held es ≤ g.lastIndex := by
  cases hk : g.held es with
  | zero => exact h.le_last
  | succ k =>
      have hlt : k < es.length := by
        have := g.held_le es
        omega
      have he := List.getElem?_eq_getElem hlt
      obtain ⟨hi, -, ht⟩ := h.index_of_get he
      have hin := le_lastIndex_of_matchTerm ht (matchTerm_of_lt_held (g := g) (by omega) he)
      omega

theorem append_eq (h : g.Accepts index es) : g.append (es.drop (g.held es)) =
    if g.held es = es.length then g
    else { g with entries := g.entries.take (index + g.held es - g.index) ++ es.drop (g.held es) } := by
  split
  · rename_i hall
    rw [hall, List.drop_length]
    rfl
  · rename_i hnot
    have hlt : g.held es < es.length := lt_of_le_of_ne (g.held_le es) hnot
    obtain ⟨hi, -, -⟩ := h.index_of_get (List.getElem?_eq_getElem hlt)
    rw [List.drop_eq_getElem_cons hlt, append, hi]
    congr 3
    omega

theorem append_reaches (h : g.Accepts index es) :
    index + es.length ≤ (g.append (es.drop (g.held es))).lastIndex := by
  have hreach := h.held_reaches
  have hb := h.base_le
  have hle := g.held_le es
  rw [h.append_eq]
  split
  · rename_i hall
    rw [hall] at hreach
    exact hreach
  · rw [lastIndex] at hreach ⊢
    rw [List.length_append, List.length_take, List.length_drop]
    simp only
    omega

/-- Where each entry of the new log comes from. -/
theorem append_entry (h : g.Accepts index es) (i : Nat) : (g.append (es.drop (g.held es))).entry i =
    if g.held es = es.length ∨ i ≤ index + g.held es then g.entry i else es[i - index - 1]? := by
  rw [h.append_eq]
  split
  · rename_i hall
    rw [if_pos (Or.inl hall)]
  · rename_i hnot
    have hb := h.base_le
    have hr := h.held_reaches
    rw [lastIndex] at hr
    have hlen : (g.entries.take (index + g.held es - g.index)).length = index + g.held es - g.index := by
      rw [List.length_take]
      omega
    have hidx : IndexedFrom (g.index + 1) (g.entries.take (index + g.held es - g.index) ++ es.drop (g.held es)) := by
      refine (h.indexed.take _).append ?_
      rw [hlen, show g.index + 1 + (index + g.held es - g.index) = index + 1 + g.held es by omega]
      exact h.given.drop _
    have hnew : ({ g with entries := g.entries.take (index + g.held es - g.index) ++ es.drop (g.held es) } :
        LogicalLog).entry i = if i ≤ g.index then none else
          (g.entries.take (index + g.held es - g.index) ++ es.drop (g.held es))[i - g.index - 1]? := entry_eq hidx i
    rw [hnew]
    by_cases hi : i ≤ index + g.held es
    · rw [if_pos (Or.inr hi), entry_eq h.indexed]
      split
      · rfl
      · rw [List.getElem?_append_left (by omega), List.getElem?_take_of_lt (by omega)]
    · rw [if_neg (by omega), if_neg (by omega), List.getElem?_append_right (by omega), hlen, List.getElem?_drop]
      congr 1
      omega

end Accepts

/-- Some entry stands where one of another term is given. -/
def Conflicts (g : LogicalLog) (es : List Entry) : Prop := ∃ e ∈ es, ∃ e', g.entry e.index = some e' ∧ e'.term ≠ e.term

/-- What becomes of a log that the entries behind `index` are put into: everything up to `index` stays,
each of the given entries is there, and what lies beyond them is gone exactly when one of them
conflicted. An entry that the log already had under the same index and term is the one that stays. -/
structure Appended (g : LogicalLog) (index : Nat) (es : List Entry) (g' : LogicalLog) : Prop where
  base : g'.index = g.index ∧ g'.term = g.term
  below : ∀ i ≤ index, g'.entry i = g.entry i
  holds : ∀ e ∈ es, ∃ e', g'.entry e.index = some e' ∧ e'.index = e.index ∧ e'.term = e.term ∧
    (e' = e ∨ g.entry e.index = some e')
  cut : g.Conflicts es → ∀ i, index + es.length < i → g'.entry i = none
  above : ¬ g.Conflicts es → ∀ i, index + es.length < i → g'.entry i = g.entry i

theorem Accepts.appended (h : g.Accepts index es) : g.Appended index es (g.append (es.drop (g.held es))) := by
  have hbase : (g.append (es.drop (g.held es))).index = g.index ∧ (g.append (es.drop (g.held es))).term = g.term := by
    rw [h.append_eq]
    split <;> exact ⟨rfl, rfl⟩
  have hheld : g.held es = es.length → ¬ g.Conflicts es := by
    rintro hall ⟨e, he, e', he', hne⟩
    obtain ⟨k, hk⟩ := List.getElem?_of_mem he
    obtain ⟨-, hi, ht⟩ := h.index_of_get hk
    obtain ⟨e'', he'', hterm⟩ := (matchTerm_entry h.indexed hi ht).mp (held_eq_length.mp hall e he)
    obtain rfl := Option.some.inj (he'.symm.trans he'')
    exact hne hterm
  refine ⟨hbase, fun i hi => ?_, fun e he => ?_, fun hc i hi => ?_, fun hc i hi => ?_⟩
  · rw [h.append_entry, if_pos (Or.inr (by omega))]
  · obtain ⟨k, hk⟩ := List.getElem?_of_mem he
    obtain ⟨hik, hi, ht⟩ := h.index_of_get hk
    have hklt := (List.getElem?_eq_some_iff.mp hk).1
    rw [h.append_entry]
    by_cases hlt : k < g.held es
    · rw [if_pos (Or.inr (by omega))]
      obtain ⟨e', he', hterm⟩ := (matchTerm_entry h.indexed hi ht).mp (matchTerm_of_lt_held hlt hk)
      refine ⟨e', he', ?_, hterm, Or.inr he'⟩
      simpa using List.find?_some he'
    · rw [if_neg (by omega), show e.index - index - 1 = k by omega]
      exact ⟨e, hk, rfl, rfl, Or.inl rfl⟩
  · have hnot : g.held es ≠ es.length := fun hall => hheld hall hc
    have := g.held_le es
    rw [h.append_entry, if_neg (by omega), List.getElem?_eq_none (by omega)]
  · rw [h.append_entry]
    split
    · rfl
    · rename_i hnot
      have hlt : g.held es < es.length := lt_of_le_of_ne (g.held_le es) fun hall => hnot (Or.inl hall)
      -- the first entry that is not held meets nothing, so the log ends before it
      have he := List.getElem?_eq_getElem hlt
      obtain ⟨hik, hi₀, ht⟩ := h.index_of_get he
      have hnone : g.entry es[g.held es].index = none := by
        rw [Option.eq_none_iff_forall_ne_some]
        intro e' he'
        by_cases hterm : e'.term = es[g.held es].term
        · have hm := (matchTerm_entry h.indexed hi₀ ht).mpr ⟨e', he', hterm⟩
          rw [not_matchTerm_held he] at hm
          cases hm
        · exact hc ⟨_, List.getElem_mem hlt, e', he', hterm⟩
      have hend : ¬ es[g.held es].index ≤ g.lastIndex := by
        intro hle
        have := (entry_isSome h.indexed).mpr ⟨hi₀, hle⟩
        rw [hnone] at this
        cases this
      have hgone : ¬ (g.entry i).isSome := by
        rw [entry_isSome h.indexed]
        omega
      rw [List.getElem?_eq_none (by omega), Option.not_isSome_iff_eq_none.mp hgone]

/-- Entries that the log has are held. -/
theorem Appended.matchTerm (h : g.Accepts index es) {g' : LogicalLog} (ha : g.Appended index es g')
    (hg : IndexedFrom (g'.index + 1) g'.entries) : ∀ e ∈ es, g'.matchTerm e.index e.term = true := by
  intro e he
  obtain ⟨k, hk⟩ := List.getElem?_of_mem he
  obtain ⟨-, hi, ht⟩ := h.index_of_get hk
  obtain ⟨e', he', -, hterm, -⟩ := ha.holds e he
  exact (matchTerm_entry hg (by rw [ha.base.1]; exact hi) ht).mpr ⟨e', he', hterm⟩

/-- Up to `index` the terms are what they were. -/
theorem Appended.termOf (h : g.Accepts index es) {g' : LogicalLog} (ha : g.Appended index es g')
    (hg : IndexedFrom (g'.index + 1) g'.entries) (hi : i ≤ index) : g'.termOf i = g.termOf i := by
  by_cases hlow : i ≤ g.index
  · rw [LogicalLog.termOf, LogicalLog.termOf, ha.base.1, ha.base.2]
    rcases Nat.eq_or_lt_of_le hlow with heq | hlt
    · simp only [heq, lt_irrefl, if_false, if_true]
    · simp only [hlt, if_true]
  · rw [termOf_entry hg (by rw [ha.base.1]; omega), termOf_entry h.indexed (by omega), ha.below i hi]

end LogicalLog

namespace RaftLog
variable {l l' : RaftLog} {index logTerm commit : Nat} {es : List Entry}

/-- The entry before the given ones is in the log, at or behind the commit index. -/
theorem Coupled.accepts (h : l.Coupled) (hm : l.matchTerm index logTerm = true) (hcom : l.committed ≤ index)
    (ht : index ≠ 0 → logTerm ≠ 0) (hidx : IndexedFrom (index + 1) es) (hpos : ∀ e ∈ es, e.term ≠ 0) :
    l.logical.Accepts index es := by
  have hbase := h.base_le
  refine ⟨h.aligned.entries_indexed, hbase.trans hcom, ?_, hidx, hpos⟩
  by_cases h0 : index = 0
  · rw [h0]
    exact Nat.zero_le _
  · rw [h.matchTerm_eq] at hm
    exact (LogicalLog.le_lastIndex_of_matchTerm (ht h0) hm).2

/-- Entries that start inside the log or right behind it, above the commit index, are always taken. -/
theorem Coupled.append_ok (h : l.Coupled) {i : Nat} (hidx : IndexedFrom i es) (hcom : l.committed < i)
    (hle : i ≤ l.lastIndex + 1) : ∃ l', l.append es = .ok l' ∧ l'.committed = l.committed := by
  cases es with
  | nil => exact ⟨l, rfl, rfl⟩
  | cons e es =>
      have he : e.index = i := hidx.cons.1
      have hlen := h.aligned.length_eq
      rw [h.lastIndex_eq, LogicalLog.lastIndex] at hle
      have hu : ∃ u, l.unstable.truncateAndAppend (e :: es) = .ok u := by
        unfold Unstable.truncateAndAppend
        simp only [he]
        split
        · exact ⟨_, rfl⟩
        split
        · exact ⟨_, rfl⟩
        · rw [Unstable.slice, if_neg (by omega), if_neg (by omega)]
          exact ⟨_, rfl⟩
      obtain ⟨u, hu⟩ := hu
      refine ⟨{ l with unstable := u }, ?_, rfl⟩
      rw [RaftLog.append, he, if_neg (by omega), hu]
      rfl

/-- A commit index that the log reaches is taken over. -/
theorem commitTo_eq {c : Nat} (h : c ≤ l.lastIndex) : l.commitTo c = .ok { l with committed := max l.committed c } := by
  rw [commitTo]
  split
  · rename_i hlt
    rw [if_neg (by omega), max_eq_right hlt.le]
  · rename_i hge
    rw [max_eq_left (by omega)]

/-- Nothing is appended when the log holds all the entries. -/
theorem maybeAppend_held (hm : l.matchTerm index logTerm = true)
    (hall : ∀ e ∈ es, l.matchTerm e.index e.term = true) (hle : index + es.length ≤ l.lastIndex) :
    l.maybeAppend index logTerm commit es =
      .ok ({ l with committed := max l.committed (min commit (index + es.length)) }, some (index + es.length)) := by
  have hzero : l.findConflict es = 0 := by
    clear hle
    induction es with
    | nil => rfl
    | cons e es ih =>
        rw [findConflict, hall e (List.mem_cons_self ..)]
        exact ih fun e' he' => hall e' (List.mem_cons_of_mem _ he')
  rw [maybeAppend, if_pos hm]
  simp only [hzero, if_true]
  simp only [bind, Except.bind, commitTo_eq (show min commit (index + es.length) ≤ l.lastIndex by omega)]

theorem Coupled.maybeAppend_contained (h : l.Coupled) (ht : index ≠ 0 → logTerm ≠ 0)
    (hidx : IndexedFrom (index + 1) es) (hpos : ∀ e ∈ es, e.term ≠ 0) (hm : l.matchTerm index logTerm = true)
    (hall : ∀ e ∈ es, l.matchTerm e.index e.term = true) :
    l.maybeAppend index logTerm commit es =
      .ok ({ l with committed := max l.committed (min commit (index + es.length)) }, some (index + es.length)) := by
  refine maybeAppend_held hm hall ?_
  rw [h.lastIndex_eq]
  rcases List.eq_nil_or_concat es with rfl | ⟨es', e, rfl⟩
  · by_cases h0 : index = 0
    · rw [h0]
      exact Nat.zero_le _
    · rw [h.matchTerm_eq] at hm
      exact (LogicalLog.le_lastIndex_of_matchTerm (ht h0) hm).2
  · have hlast := hidx es'.length e (by simp)
    have hme := hall e (by simp)
    rw [h.matchTerm_eq] at hme
    have hin := (LogicalLog.le_lastIndex_of_matchTerm (hpos e (by simp)) hme).2
    rw [List.length_concat]
    omega

/-- An accepted call puts the entries into the log. -/
theorem Coupled.maybeAppend_ok (h : l.Coupled) (hm : l.matchTerm index logTerm = true) (hcom : l.committed ≤ index)
    (ht : index ≠ 0 → logTerm ≠ 0) (hidx : IndexedFrom (index + 1) es) (hpos : ∀ e ∈ es, e.term ≠ 0) :
    ∃ l', l.maybeAppend index logTerm commit es = .ok (l', some (index + es.length)) ∧
      l'.committed = max l.committed (min commit (index + es.length)) ∧ index + es.length ≤ l'.lastIndex ∧
      l'.Coupled ∧ l.logical.Appended index es l'.logical := by
  have hacc := h.accepts hm hcom ht hidx hpos
  -- what is left to append starts right behind the entries that are held
  have hdrop : ∃ l₁ : RaftLog, l.maybeAppend index logTerm commit es =
      (l₁.commitTo (min commit (index + es.length)) >>= fun l₂ => .ok (l₂, some (index + es.length))) ∧
      l₁.committed = l.committed ∧ l₁.Coupled ∧ l₁.logical = l.logical.append (es.drop (l.logical.held es)) := by
    rcases h.findConflict hidx with ⟨hzero, hnil⟩ | ⟨hlt, heq⟩
    · refine ⟨l, ?_, rfl, h, ?_⟩
      · simp only [RaftLog.maybeAppend, hm, if_true, hzero]
        rfl
      · rw [← LogicalLog.dropWhile_held, hnil]
        rfl
    · have hreach := hacc.held_reaches
      rw [← h.lastIndex_eq] at hreach
      obtain ⟨l₁, happ, hc⟩ := h.append_ok (hidx.drop (l.logical.held es)) (by omega) (by omega)
      obtain ⟨hc₁, hl₁⟩ := h.append (by omega) (hidx.drop (l.logical.held es)) happ
      refine ⟨l₁, ?_, hc, hc₁, hl₁⟩
      rw [← LogicalLog.dropWhile_held, heq] at happ
      simp only [RaftLog.maybeAppend, hm, if_true]
      rw [if_neg (by omega), if_neg (by omega), happ]
      rfl
  obtain ⟨l₁, happ, hc, hc₁, hl₁⟩ := hdrop
  have hlast := hacc.append_reaches
  rw [← hl₁, ← hc₁.lastIndex_eq] at hlast
  have hcommit := commitTo_eq (show min commit (index + es.length) ≤ l₁.lastIndex by omega)
  obtain ⟨hc₂, hl₂⟩ := hc₁.commitTo hcommit
  refine ⟨{ l₁ with committed := max l₁.committed (min commit (index + es.length)) }, ?_, ?_, hlast, hc₂, ?_⟩
  · rw [happ, hcommit]
    rfl
  · simp only [hc]
  · rw [hl₂, hl₁]
    exact hacc.appended

end RaftLog

/-- A call of `maybe_append` changes nothing when the log does not have the entry that is named; else the
entries are put into it, where they are not there already, and the commit index follows as far as they
go. The same call once more changes nothing, and neither does any call whose entries are all there. -/
theorem maybeAppend_exact_idempotent {l : RaftLog} {index logTerm commit : Nat} {es : List Entry} (h : l.Coupled)
    (hcom : l.committed ≤ index) (ht : index ≠ 0 → logTerm ≠ 0) (hidx : IndexedFrom (index + 1) es)
    (hpos : ∀ e ∈ es, e.term ≠ 0) :
    (l.matchTerm index logTerm = false ∧ l.maybeAppend index logTerm commit es = .ok (l, none) ∨
      l.matchTerm index logTerm = true ∧
        ∃ l', l.maybeAppend index logTerm commit es = .ok (l', some (index + es.length)) ∧
          l.logical.Appended index es l'.logical ∧
          l'.committed = max l.committed (min commit (index + es.length)) ∧
          l'.maybeAppend index logTerm commit es = .ok (l', some (index + es.length))) ∧
      ∀ (l₂ : RaftLog) (index₂ logTerm₂ commit₂ : Nat) (es₂ : List Entry), l₂.Coupled →
        (index₂ ≠ 0 → logTerm₂ ≠ 0) → IndexedFrom (index₂ + 1) es₂ → (∀ e ∈ es₂, e.term ≠ 0) →
        l₂.matchTerm index₂ logTerm₂ = true → (∀ e ∈ es₂, l₂.matchTerm e.index e.term = true) →
        l₂.maybeAppend index₂ logTerm₂ commit₂ es₂ =
          .ok ({ l₂ with committed := max l₂.committed (min commit₂ (index₂ + es₂.length)) },
            some (index₂ + es₂.length)) := by
  refine ⟨?_, fun l₂ index₂ logTerm₂ commit₂ es₂ h₂ ht₂ hidx₂ hpos₂ hm₂ hall₂ =>
    h₂.maybeAppend_contained ht₂ hidx₂ hpos₂ hm₂ hall₂⟩
  cases hm : l.matchTerm index logTerm with
  | false =>
      refine Or.inl ⟨rfl, ?_⟩
      rw [RaftLog.maybeAppend, hm]
      rfl
  | true =>
      obtain ⟨l', hok, hc', hlast, h', happ⟩ := h.maybeAppend_ok hm hcom ht hidx hpos
      refine Or.inr ⟨rfl, l', hok, happ, hc', ?_⟩
      have hacc := h.accepts hm hcom ht hidx hpos
      have hm' : l'.matchTerm index logTerm = true := by
        rw [h'.matchTerm_eq, LogicalLog.matchTerm, happ.termOf hacc h'.aligned.entries_indexed le_rfl]
        rw [h.matchTerm_eq] at hm
        exact hm
      have hall' : ∀ e ∈ es, l'.matchTerm e.index e.term = true := by
        intro e he
        rw [h'.matchTerm_eq]
        exact happ.matchTerm hacc h'.aligned.entries_indexed e he
      rw [RaftLog.maybeAppend_held hm' hall' hlast, hc', max_assoc, max_self, ← hc']

/-- Two stored entries and two unstable ones, all of term 1. -/
def splitFour : RaftLog :=
  { storage := { ents := [{ index := 1, term := 1 }, { index := 2, term := 1 }] }
    unstable := { offset := 3, entries := [{ index := 3, term := 1 }, { index := 4, term := 1 }] }
    committed := 1
    applied := 0
    maxNextEntsSize := 0 }

theorem indexedFrom_of_all {i : Nat} {es : List Entry} (h : es.map Entry.index = List.range' i es.length) :
    IndexedFrom i es := by
  intro k e hk
  have hget := congrArg (fun is : List Nat => is[k]?) h
  have hlt := (List.getElem?_eq_some_iff.mp hk).1
  simp only [List.getElem?_map, hk, Option.map_some, List.getElem?_range' hlt, Option.some.injEq] at hget
  omega

theorem splitFour_coupled : splitFour.Coupled := by
  have hst : MemoryStorage.Numbered { ents := [{ index := 1, term := 1 }, { index := 2, term := 1 }] } :=
    ⟨indexedFrom_of_all rfl, le_rfl⟩
  have hruns : LogRuns (RaftLog.new { ents := [{ index := 1, term := 1 }, { index := 2, term := 1 }] } 0)
      [.append [{ index := 3, term := 1 }, { index := 4, term := 1 }], .commitTo 1] splitFour :=
    .cons ⟨3, by decide, indexedFrom_of_all rfl⟩ rfl (.cons trivial rfl (.nil _))
  exact ((RaftLog.new_coupled hst 0).run hruns).1

/-- The third entry is there and the fourth is of another term: the log is cut behind the third. -/
theorem maybeAppend_exact_idempotent_conflict : ∃ l',
    splitFour.maybeAppend 2 1 5 [{ index := 3, term := 1 }, { index := 4, term := 2 }] = .ok (l', some 4) ∧
      l'.committed = 4 ∧ (∃ e, l'.logical.entry 4 = some e ∧ e.term = 2) ∧ l'.logical.entry 5 = none ∧
      l'.maybeAppend 2 1 5 [{ index := 3, term := 1 }, { index := 4, term := 2 }] = .ok (l', some 4) := by
  obtain ⟨⟨hno, -⟩ | ⟨-, l', hok, happ, hc, hrepeat⟩, -⟩ :=
    @maybeAppend_exact_idempotent splitFour 2 1 5 [{ index := 3, term := 1 }, { index := 4, term := 2 }]
      splitFour_coupled (by decide) (fun _ => Nat.one_ne_zero) (indexedFrom_of_all rfl) (by decide)
  · exact absurd hno (by decide)
  · obtain ⟨e, he, -, hterm, -⟩ := happ.holds { index := 4, term := 2 } (by simp)
    have hconflict : splitFour.logical.Conflicts [{ index := 3, term := 1 }, { index := 4, term := 2 }] :=
      ⟨{ index := 4, term := 2 }, by simp, { index := 4, term := 1 }, by decide, by decide⟩
    exact ⟨l', hok, hc, ⟨e, he, hterm⟩, happ.cut hconflict 5 (by decide), hrepeat⟩

end RaftEtcd
