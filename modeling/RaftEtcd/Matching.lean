import RaftEtcd.Slicing

/-! Log matching between a leader and one follower: how far the two logs agree, and what becomes of it when the
follower puts in a piece of the leader's log. -/
namespace RaftEtcd

namespace LogicalLog
variable {l g g' : LogicalLog} {es : List Entry} {i j : Nat}

/-- A log that has some entries and of which nothing is compacted. -/
structure Complete (l : LogicalLog) : Prop where
  begins : l.index = 0 ∧ l.term = 0
  indexed : IndexedFrom (l.index + 1) l.entries
  nonempty : l.entries ≠ []
  terms : ∀ e ∈ l.entries, e.term ≠ 0

/-- Where both logs have an entry of one term under an index, they are the same up to there. -/
def Matches (l g : LogicalLog) : Prop :=
  ∀ i e e', g.entry i = some e → l.entry i = some e' → e.term = e'.term → ∀ j ≤ i, g.index < j → g.entry j = l.entry j

/-- The second log, from its base on, is the same as the first one up to an index. -/
structure Agrees (l g : LogicalLog) (i : Nat) : Prop where
  base_le : g.index ≤ i
  within : i ≤ l.lastIndex
  base : g.term = l.termOf g.index
  same : ∀ j, g.index < j → j ≤ i → g.entry j = l.entry j

/-- The entries are those of the log behind an index. -/
structure Piece (l : LogicalLog) (i : Nat) (es : List Entry) : Prop where
  within : i + es.length ≤ l.lastIndex
  same : ∀ k e, es[k]? = some e → l.entry (i + 1 + k) = some e

theorem index_of_entry {e : Entry} (h : g.entry i = some e) : e ∈ g.entries ∧ e.index = i :=
  ⟨List.mem_of_find?_eq_some h, by simpa using List.find?_some h⟩

namespace Complete

theorem entry (h : l.Complete) (hpos : 0 < i) (hle : i ≤ l.lastIndex) :
    ∃ e, l.entry i = some e ∧ e.term = l.termOf i ∧ e.term ≠ 0 := by
  have hin : l.index < i := by
    rw [h.begins.1]
    exact hpos
  obtain ⟨e, he⟩ := Option.isSome_iff_exists.mp ((entry_isSome h.indexed).mpr ⟨hin, hle⟩)
  refine ⟨e, he, ?_, h.terms e (index_of_entry he).1⟩
  rw [termOf_entry h.indexed hin, he]
  rfl

theorem termOf_ne (h : l.Complete) (hpos : i ≠ 0) (hle : i ≤ l.lastIndex) : l.termOf i ≠ 0 := by
  obtain ⟨e, -, hterm, hne⟩ := h.entry (Nat.pos_of_ne_zero hpos) hle
  rwa [← hterm]

theorem last_pos (h : l.Complete) : 0 < l.lastIndex := by
  have hpos := List.length_pos_iff.mpr h.nonempty
  rw [lastIndex]
  omega

end Complete

namespace Piece

theorem index_of_get (h : l.Piece i es) {k : Nat} {e : Entry} (he : es[k]? = some e) : e.index = i + 1 + k :=
  (index_of_entry (h.same k e he)).2

theorem indexed (h : l.Piece i es) : IndexedFrom (i + 1) es := fun _ _ he => h.index_of_get he

theorem terms (hl : l.Complete) (h : l.Piece i es) : ∀ e ∈ es, e.term ≠ 0 := by
  intro e he
  obtain ⟨k, hk⟩ := List.getElem?_of_mem he
  exact hl.terms e (index_of_entry (h.same k e hk)).1

end Piece

/-- The entries behind an index that go into one message. -/
def batch (l : LogicalLog) (i maxSize : Nat) : List Entry := entryLimitSize maxSize (l.slice (i + 1) (l.lastIndex + 1))

section Batch
variable {maxSize : Nat} (hl : l.Complete) (hle : i ≤ l.lastIndex)

include hl hle

theorem slice_length : (l.slice (i + 1) (l.lastIndex + 1)).length = l.lastIndex - i := by
  have hbase := hl.begins.1
  rw [lastIndex] at hle ⊢
  rw [slice, List.length_take, List.length_drop, firstIndex]
  omega

theorem batch_piece : l.Piece i (l.batch i maxSize) := by
  have hprefix : l.batch i maxSize <+: l.slice (i + 1) (l.lastIndex + 1) := entryLimitSize_initial _ _
  have hlen := hprefix.length_le
  rw [slice_length hl hle] at hlen
  refine ⟨by omega, fun k e he => ?_⟩
  have hk := (List.getElem?_eq_some_iff.mp he).1
  have hslice : (l.slice (i + 1) (l.lastIndex + 1))[k]? = some e := by
    obtain ⟨rest, hrest⟩ := hprefix
    rwa [← hrest, List.getElem?_append_left hk]
  have hbase := hl.begins.1
  rw [slice, List.getElem?_take_of_lt (by omega), List.getElem?_drop, firstIndex] at hslice
  rw [entry_eq hl.indexed, if_neg (by omega), ← hslice]
  congr 1
  omega

theorem batch_nil : l.batch i maxSize = [] ↔ i = l.lastIndex := by
  constructor
  · intro hnil
    have hslice : l.slice (i + 1) (l.lastIndex + 1) = [] := by
      by_contra hne
      exact (entryLimitSize_longest maxSize _).nonempty hne hnil
    have hlen := slice_length hl hle
    rw [hslice, List.length_nil] at hlen
    omega
  · intro heq
    have hlen := slice_length hl hle
    rw [heq, Nat.sub_self, List.length_eq_zero_iff] at hlen
    rw [batch, heq, hlen]
    rfl

end Batch

namespace Agrees

theorem mono (h : l.Agrees g i) (hbase : g.index ≤ j) (hle : j ≤ i) : l.Agrees g j :=
  ⟨hbase, hle.trans h.within, h.base, fun k hk hkj => h.same k hk (hkj.trans hle)⟩

/-- Where the logs agree they have the same terms. -/
theorem termOf (h : l.Agrees g i) (hl : l.Complete) (hg : IndexedFrom (g.index + 1) g.entries) :
    g.termOf i = l.termOf i := by
  rcases Nat.eq_or_lt_of_le h.base_le with heq | hlt
  · rw [← heq, ← h.base, LogicalLog.termOf, if_neg (lt_irrefl _), if_pos rfl]
  · have hin : l.index < i := by
      rw [hl.begins.1]
      omega
    rw [termOf_entry hg hlt, termOf_entry hl.indexed hin, h.same i hlt le_rfl]

theorem matchTerm (h : l.Agrees g i) (hl : l.Complete) (hg : IndexedFrom (g.index + 1) g.entries) :
    g.matchTerm i (l.termOf i) = true := by
  rw [LogicalLog.matchTerm, beq_iff_eq, h.termOf hl hg]

/-- Behind an index up to which the logs agree, a common term makes them agree further. -/
theorem of_matchTerm (h : l.Agrees g i) (hl : l.Complete) (hg : IndexedFrom (g.index + 1) g.entries)
    (hmatch : l.Matches g) (hij : i ≤ j) (hle : j ≤ l.lastIndex) (hterm : g.matchTerm j (l.termOf j) = true) : l.Agrees g j := by
  rcases Nat.eq_or_lt_of_le hij with rfl | hlt
  · exact h
  have hbase := h.base_le
  obtain ⟨e', he', hterm', hne⟩ := hl.entry (show 0 < j by omega) hle
  rw [← hterm'] at hterm
  obtain ⟨e, he, heq⟩ := (matchTerm_entry hg (show g.index < j by omega) hne).mp hterm
  exact ⟨by omega, hle, h.base, fun k hk hkj => hmatch j e e' he he' heq k hkj hk⟩

end Agrees

section Appending
variable (ha : g.Appended i es g') (hp : l.Piece i es) (hmatch : l.Matches g)

include ha hp hmatch

/-- A piece that is put in where the logs agree makes them agree up to its end. -/
theorem Appended.agrees (h : l.Agrees g i) : l.Agrees g' (i + es.length) := by
  have hbase := h.base_le
  refine ⟨by rw [ha.base.1]; omega, hp.within, by rw [ha.base.1, ha.base.2]; exact h.base, fun j hj hle => ?_⟩
  rw [ha.base.1] at hj
  by_cases hlow : j ≤ i
  · rw [ha.below j hlow, h.same j hj hlow]
  · have hget := List.getElem?_eq_getElem (show j - i - 1 < es.length by omega)
    have hentry := hp.same _ _ hget
    have hindex := hp.index_of_get hget
    rw [show i + 1 + (j - i - 1) = j by omega] at hentry hindex
    obtain ⟨e', he', -, hterm, hsame⟩ := ha.holds _ (List.mem_of_getElem? hget)
    rw [hindex] at he' hsame
    rw [hentry, he']
    rcases hsame with rfl | hold
    · rfl
    · -- the entry was there before, and it is the one of the leader
      rw [← hold, ← hentry]
      exact hmatch j e' _ hold hentry hterm j le_rfl hj

theorem Appended.matches (h : l.Agrees g i) : l.Matches g' := by
  have hagrees := ha.agrees hp hmatch h
  intro j e e' he he' hterm k hkj hk
  by_cases hlow : k ≤ i + es.length
  · exact hagrees.same k hk hlow
  have hconflict : ¬ g.Conflicts es := by
    intro hc
    rw [ha.cut hc j (by omega)] at he
    cases he
  rw [ha.above hconflict j (by omega)] at he
  rw [ha.above hconflict k (by omega)]
  exact hmatch j e e' he he' hterm k hkj (ha.base.1 ▸ hk)

end Appending

end LogicalLog

/-- What the leader finds behind an index is a batch of its log. -/
theorem RaftLog.Coupled.entries_batch {log : RaftLog} {next maxSize : Nat} (h : log.Coupled) (hl : log.logical.Complete)
    (hpos : 1 ≤ next) (hle : next ≤ log.logical.lastIndex + 1) :
    log.entries next maxSize [] = .ok (.ok, log.logical.batch (next - 1) maxSize) := by
  have hlast := h.lastIndex_eq
  unfold RaftLog.entries
  split
  · rw [(LogicalLog.batch_nil hl (by omega)).mpr (by omega)]
  · have hfirst : log.firstIndex ≤ next := by
      rw [RaftLog.firstIndex_eq, LogicalLog.firstIndex, hl.begins.1]
      exact hpos
    rw [h.slice_eq hfirst (by omega) le_rfl, hlast, LogicalLog.batch, Nat.sub_add_cancel hpos]

end RaftEtcd
