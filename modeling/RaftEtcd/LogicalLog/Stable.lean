import RaftEtcd.LogicalLog.Basic

/-! Where the entries of a log are kept: storing what is unstable, dropping it once it is stored
and compacting what is applied. -/
namespace RaftEtcd

namespace RaftLog

variable {l l' : RaftLog} {s : Snapshot}

/-! ### What is stored -/

namespace Coupled

theorem entries_none (h : l.Coupled) (hn : l.unstable.snapshot = none) : l.logical.entries =
    l.storage.ents.take (l.unstable.offset - (l.storage.dummy.index + 1)) ++
      l.unstable.entries.drop (l.storage.dummy.index + 1 - l.unstable.offset) := by
  rw [logical_none hn, log, List.filter_append, (h.stored.take _).filter_gt, h.indexed.filter_gt, Nat.sub_self,
    List.drop_zero]
  rfl

/-- Storing the unstable entries leaves the whole log in the storage. -/
theorem append_storage (h : l.Coupled) (hn : l.unstable.snapshot = none) :
    l.storage.append l.unstable.entries = .ok { l.storage with ents := l.logical.entries } := by
  have hj := h.joined hn
  have hoff := hj.offset_le
  have hb := h.base_le
  have hc := h.committed_lt
  have hlen := h.aligned.length_eq
  have hentries := h.entries_none hn
  rw [logical_none hn] at hb hlen
  simp only at hb hlen
  rw [MemoryStorage.lastIndex] at hoff
  rw [hentries]
  cases hes : l.unstable.entries with
  | nil =>
      have heq := hj.offset_eq hes
      rw [MemoryStorage.lastIndex] at heq
      rw [MemoryStorage.append, List.drop_nil, List.append_nil, List.take_of_length_le (by omega)]
  | cons e es =>
      have he : e.index = l.unstable.offset := by
        have hidx := h.indexed
        rw [hes] at hidx
        exact hidx.cons.1
      rw [hes] at hc hlen
      rw [MemoryStorage.append]
      simp only [he, MemoryStorage.firstIndex]
      split
      · -- everything unstable is applied and compacted, and nothing is stored behind it
        rename_i hlow
        have hd := hj.compacted (by simp only [List.length_cons] at hlow hc; omega)
        have ha := h.applied_le
        have hempty : l.storage.ents = [] := by
          have hends := hj.applied.ends (by rw [hes]; omega)
          rw [MemoryStorage.lastIndex] at hends
          exact List.eq_nil_of_length_eq_zero (by omega)
        rw [hempty, List.take_nil, List.nil_append, List.drop_eq_nil_of_le (by omega), ← hempty]
      · rename_i hlow
        have hne : (e :: es).drop (l.storage.dummy.index + 1 - l.unstable.offset) ≠ [] := by
          have hpos : 0 < (e :: es).length := Nat.succ_pos _
          rw [Ne, List.drop_eq_nil_iff]
          omega
        obtain ⟨e', es', hdrop⟩ := List.exists_cons_of_ne_nil hne
        have he' : e'.index = l.unstable.offset + (l.storage.dummy.index + 1 - l.unstable.offset) := by
          have hidx := h.indexed.drop (l.storage.dummy.index + 1 - l.unstable.offset)
          rw [hes, hdrop] at hidx
          exact hidx.cons.1
        rw [hdrop]
        simp only [he']
        rw [if_pos (by omega)]
        congr 4
        omega

/-- Once the snapshot is stored, it need not be pending any more. -/
theorem dropSnapshot (h : l.Coupled) (hs : l.unstable.snapshot = some s) (hv : l.Saved s) :
    ({ l with unstable := { l.unstable with snapshot := none } } : RaftLog).Coupled ∧
      ({ l with unstable := { l.unstable with snapshot := none } } : RaftLog).logical = l.logical := by
  obtain ⟨happ, -⟩ := h.pending s hs
  have hd := hv.dummy
  have hoff := hv.offset_gt
  have hlogical :
      ({ l with unstable := { l.unstable with snapshot := none } } : RaftLog).logical = l.logical := by
    rw [logical_some hs, logical_none rfl, ← hd, ← hv.dummy_term]
    rfl
  refine ⟨?_, hlogical⟩
  refine ⟨h.stored, h.indexed, by rw [hlogical]; exact h.base_le, h.committed_lt, h.applied_le, h.snapshot_le,
    fun _ => ⟨hv.offset_le, fun he => ?_, fun hle => ?_, fun hle => ?_, fun k hk _ hle => ?_, fun hend => ?_⟩, nofun⟩
  · obtain ⟨ho, hst⟩ := hv.empty he
    simp only [MemoryStorage.lastIndex, hst, List.length_nil]
    omega
  · simp only at hle
    omega
  · simp only at hle
    omega
  · simp only at hk hle
    omega
  · simp only at hend
    omega

/-- The storage starts with the snapshot from now on. -/
theorem saveSnapshot (h : l.Coupled) (hs : l.unstable.snapshot = some s) (hu : l.Unsaved s) {st : MemoryStorage}
    (hsnap : st.snapshot.metadata.index = s.metadata.index) (hd : st.dummy.index = s.metadata.index)
    (ht : st.dummy.term = s.metadata.term) (hents : st.ents = []) :
    ({ l with storage := st } : RaftLog).Coupled ∧ ({ l with storage := st } : RaftLog).logical = l.logical ∧
      ({ l with storage := st } : RaftLog).Saved s := by
  have hs' : ({ l with storage := st } : RaftLog).unstable.snapshot = some s := hs
  have hbase := h.base_le
  rw [logical_some hs] at hbase
  have hlast : st.lastIndex = s.metadata.index := by rw [MemoryStorage.lastIndex, hents, hd, List.length_nil]; rfl
  have hsaved : ({ l with storage := st } : RaftLog).Saved s :=
    ⟨hsnap, hd, ht, hu.offset.ge, by simp only [hlast]; exact hu.offset.le, fun _ => ⟨hu.offset, hents⟩⟩
  have hc : ({ l with storage := st } : RaftLog).Coupled := by
    refine ⟨?_, h.indexed, ?_, h.committed_lt, h.applied_le, ?_, fun hn => ?_, fun s' hsome => ?_⟩
    · simp only [hents]
      exact .nil _
    · rw [logical_some hs']
      exact hbase
    · simp only [hsnap]
      exact hbase
    · cases hs'.symm.trans hn
    · obtain rfl := Option.some.inj (hs'.symm.trans hsome)
      exact ⟨(h.pending s hs).1, Or.inr hsaved⟩
  refine ⟨hc, h.aligned.logical_eq hc.aligned ?_ ?_ ?_, hsaved⟩
  · rw [logical_some hs, logical_some hs']
  · rw [logical_some hs, logical_some hs']
  · intro i hi
    rw [logical_some hs] at hi
    have hoff := hu.offset
    simp only at hi
    rw [entryAt, entryAt, if_neg (by simp only; omega), if_neg (by omega)]

/-- The snapshot goes to the storage; if it is there already it is rejected. -/
theorem applySnapshot (h : l.Coupled) (hs : l.unstable.snapshot = some s) :
    ({ l with storage := (l.storage.applySnapshot s).2 } : RaftLog).Coupled ∧
      ({ l with storage := (l.storage.applySnapshot s).2 } : RaftLog).logical = l.logical ∧
      ({ l with storage := (l.storage.applySnapshot s).2 } : RaftLog).Saved s := by
  rw [MemoryStorage.applySnapshot]
  rcases (h.pending s hs).2 with hu | hv
  · have := hu.stored_lt
    rw [if_neg (by omega)]
    exact h.saveSnapshot hs hu rfl rfl rfl rfl
  · rw [if_pos hv.stored.ge]
    exact ⟨h, rfl, hv⟩

/-- A log that is stored as a whole. -/
theorem storedAll (h : l.Coupled) {st : MemoryStorage} (hd : st.dummy.index = l.logical.index)
    (hents : st.ents = l.logical.entries) (i : Nat) : ({ l with storage := st } : RaftLog).Persisted i := by
  have hlen := h.aligned.length_eq
  refine ⟨fun k hk hlt _ => ?_, fun hend => ?_⟩
  · simp only at hk hlt ⊢
    rw [hents, h.aligned.entries_get, entryAt, hd, if_neg (by omega)]
    congr 1
    omega
  · simp only [MemoryStorage.lastIndex, hents, hd] at hend ⊢
    omega

theorem storeAll (h : l.Coupled) (hb : l.storage.dummy.index = l.logical.index) {st : MemoryStorage}
    (hst : st = { l.storage with ents := l.logical.entries }) :
    ({ l with storage := st } : RaftLog).Coupled ∧ ({ l with storage := st } : RaftLog).logical = l.logical ∧
      ∀ i, ({ l with storage := st } : RaftLog).Persisted i := by
  have hlen := h.aligned.length_eq
  have hd : st.dummy = l.storage.dummy := by rw [hst]
  have hsnap : st.snapshot = l.storage.snapshot := by rw [hst]
  have hents : st.ents = l.logical.entries := by rw [hst]
  have hlast : st.lastIndex + 1 = l.unstable.offset + l.unstable.entries.length := by
    rw [MemoryStorage.lastIndex, hents, hd]
    omega
  have hindex : ({ l with storage := st } : RaftLog).logical.index = l.logical.index := by
    rw [logical, logical]
    cases l.unstable.snapshot <;> simp only [hd]
  have hterm : ({ l with storage := st } : RaftLog).logical.term = l.logical.term := by
    rw [logical, logical]
    cases l.unstable.snapshot <;> simp only [hd]
  have hc : ({ l with storage := st } : RaftLog).Coupled := by
    refine ⟨?_, h.indexed, ?_, h.committed_lt, h.applied_le, ?_, fun hn => ?_, fun s hs => ?_⟩
    · simp only [hents, hd, hb]
      exact h.aligned.entries_indexed
    · rw [hindex]
      exact h.base_le
    · simp only [hsnap]
      exact h.snapshot_le
    · have hj := h.joined hn
      refine ⟨?_, fun he => ?_, ?_, ?_, h.storedAll (by rw [hd, hb]) hents _⟩
      · simp only [hlast]
        omega
      · simp only at he
        simp only [hlast, he, List.length_nil]
        rfl
      · simp only [hd]
        exact hj.compacted
      · simp only [hd]
        exact hj.dummy_term
    · obtain ⟨happ, hu | hv⟩ := h.pending s hs
      · have := hu.dummy_lt
        have hs' : l.unstable.snapshot = some s := hs
        rw [hb, logical_some hs'] at this
        simp at this
      · refine ⟨happ, Or.inr ⟨?_, ?_, ?_, hv.offset_gt, ?_, fun he => ⟨(hv.empty he).1, ?_⟩⟩⟩
        · simp only [hsnap]
          exact hv.stored
        · simp only [hd]
          exact hv.dummy
        · simp only [hd]
          exact hv.dummy_term
        · simp only [hlast]
          omega
        · have hoff := (hv.empty he).1
          have hdv := hv.dummy
          simp only at he
          simp only [hents]
          rw [he, List.length_nil] at hlen
          exact List.eq_nil_of_length_eq_zero (by omega)
  refine ⟨hc, h.aligned.logical_eq hc.aligned hindex hterm fun i hi => ?_, fun i => h.storedAll (by rw [hd, hb]) hents i⟩
  rw [entryAt]
  simp only [hents, hd]
  split
  · rw [h.aligned.entries_get]
    congr 1
    omega
  · rw [entryAt, if_neg ‹_›]

/-- Storing what is unstable never fails and does not change the log. -/
theorem persist (h : l.Coupled) : ∃ st, l.persist = .ok { l with storage := st } ∧
    ({ l with storage := st } : RaftLog).Coupled ∧ ({ l with storage := st } : RaftLog).logical = l.logical ∧
    (∀ i, ({ l with storage := st } : RaftLog).Persisted i) ∧
    ∀ s, l.unstable.snapshot = some s → ({ l with storage := st } : RaftLog).Saved s := by
  cases hs : l.unstable.snapshot with
  | none =>
      have hb : l.storage.dummy.index = l.logical.index := by rw [logical_none hs]
      obtain ⟨hc, hl, hall⟩ := h.storeAll hb rfl
      refine ⟨_, ?_, hc, hl, hall, nofun⟩
      rw [RaftLog.persist, hs]
      simp only [h.append_storage hs]
      rfl
  | some s =>
      obtain ⟨h₁, hl₁, hv₁⟩ := h.applySnapshot hs
      -- the entries are stored as if the snapshot were not pending any more
      obtain ⟨h₂, hl₂⟩ := h₁.dropSnapshot hs hv₁
      have happend := h₂.append_storage rfl
      rw [hl₂] at happend
      have hb : (l.storage.applySnapshot s).2.dummy.index =
          ({ l with storage := (l.storage.applySnapshot s).2 } : RaftLog).logical.index := by
        rw [hv₁.dummy, hl₁, logical_some hs]
      obtain ⟨hc, hl, hall⟩ := h₁.storeAll hb rfl
      refine ⟨_, ?_, hc, hl.trans hl₁, hall, fun s' hs' => ?_⟩
      · rw [RaftLog.persist, hs]
        simp only [happend]
        rfl
      · obtain rfl := Option.some.inj hs'
        obtain ⟨-, hu | hv⟩ := hc.pending s hs
        · have := hu.dummy_lt
          have := hv₁.dummy
          simp only at *
          omega
        · exact hv

end Coupled

/-! ### What is reported stable -/

theorem stableTo_eq (u : Unstable) (i t : Nat) : u.stableTo i t =
    if u.offset ≤ i ∧ (u.entries[i - u.offset]?).map Entry.term = some t then
      { u with entries := u.entries.drop (i + 1 - u.offset), offset := i + 1 }
    else u := by
  rw [Unstable.stableTo]
  by_cases hi : u.offset ≤ i
  · rw [maybeTerm_unstable u hi]
    cases hterm : (u.entries[i - u.offset]?).map Entry.term with
    | none => rw [if_neg (by simp)]
    | some gt =>
        simp only
        by_cases ht : gt = t
        · rw [if_pos ⟨ht, hi⟩, if_pos ⟨hi, by rw [ht]⟩, show i - u.offset + 1 = i + 1 - u.offset by omega]
        · rw [if_neg (fun h => ht h.1), if_neg (fun h => ht (Option.some.inj h.2))]
  · rw [if_neg (fun h => hi h.1)]
    split
    · rfl
    · exact if_neg fun h => hi h.2

/-- The two reports of `advance` may be made in either order. -/
theorem stableSnapTo_stableTo (u : Unstable) (i t j : Nat) :
    (u.stableTo i t).stableSnapTo j = (u.stableSnapTo j).stableTo i t := by
  have hsnap : ∀ v : Unstable, v.stableSnapTo j =
      if v.snapshot.map (·.metadata.index) = some j then { v with snapshot := none } else v := by
    intro v
    rw [Unstable.stableSnapTo]
    cases v.snapshot with
    | none => rw [if_neg (by simp)]
    | some s => simp only [Option.map_some, Option.some.injEq]
  rw [stableTo_eq, stableTo_eq, hsnap, hsnap]
  by_cases h₁ : u.offset ≤ i ∧ (u.entries[i - u.offset]?).map Entry.term = some t
  · by_cases h₂ : u.snapshot.map (·.metadata.index) = some j
    · rw [if_pos h₁, if_pos h₂, if_pos h₂, if_pos h₁]
    · rw [if_pos h₁, if_neg h₂, if_neg h₂, if_pos h₁]
  · by_cases h₂ : u.snapshot.map (·.metadata.index) = some j
    · rw [if_neg h₁, if_pos h₂, if_neg h₁]
    · rw [if_neg h₁, if_neg h₂, if_neg h₁]

/-- The call finds the entry among the unstable ones. -/
def Takes (l : RaftLog) (i t : Nat) : Prop :=
  l.unstable.offset ≤ i ∧ (l.unstable.entries[i - l.unstable.offset]?).map Entry.term = some t

theorem stableTo_of_not_takes {i t : Nat} (h : ¬ l.Takes i t) : l.stableTo i t = l := by
  rw [Takes] at h
  rw [stableTo, stableTo_eq, if_neg h]

theorem stableTo_of_takes {i t : Nat} (h : l.Takes i t) : l.stableTo i t = { l with
    unstable := { l.unstable with
      entries := l.unstable.entries.drop (i + 1 - l.unstable.offset), offset := i + 1 } } := by
  rw [Takes] at h
  rw [stableTo, stableTo_eq, if_pos h]

theorem Takes.lt {i t : Nat} (h : l.Takes i t) : i < l.unstable.offset + l.unstable.entries.length := by
  obtain ⟨e, he, -⟩ := Option.map_eq_some_iff.mp h.2
  obtain ⟨hlt, -⟩ := List.getElem?_eq_some_iff.mp he
  have := h.1
  omega

/-- What is stored up to an unstable entry reaches it. -/
theorem Persisted.reaches {i : Nat} (h : l.Persisted i) (hoff : l.unstable.offset ≤ i)
    (hlt : i < l.unstable.offset + l.unstable.entries.length) : i ≤ l.storage.lastIndex := by
  rw [MemoryStorage.lastIndex]
  by_cases hd : l.storage.dummy.index < i
  · have he := h.entries i hoff hd le_rfl
    rw [List.getElem?_eq_getElem (by omega : i - l.unstable.offset < l.unstable.entries.length)] at he
    obtain ⟨hk, -⟩ := List.getElem?_eq_some_iff.mp he
    omega
  · omega

/-- Dropping stored entries from the unstable ones does not change the log. -/
theorem stable_logical {i : Nat} {u : Unstable} (h : l.Aligned) (hp : l.Persisted i)
    (hoff : l.unstable.offset ≤ i) (hlt : i < l.unstable.offset + l.unstable.entries.length)
    (hu : u = { l.unstable with entries := l.unstable.entries.drop (i + 1 - l.unstable.offset), offset := i + 1 }) :
    ({ l with unstable := u } : RaftLog).Aligned ∧ ({ l with unstable := u } : RaftLog).logical = l.logical := by
  subst hu
  have hreach := hp.reaches hoff hlt
  have hbase := h.base_lt
  have hlen : i + 1 + (l.unstable.entries.drop (i + 1 - l.unstable.offset)).length =
      l.unstable.offset + l.unstable.entries.length := by
    rw [List.length_drop]
    omega
  have hindexed : IndexedFrom (i + 1) (l.unstable.entries.drop (i + 1 - l.unstable.offset)) := by
    have := h.indexed.drop (i + 1 - l.unstable.offset)
    rwa [show l.unstable.offset + (i + 1 - l.unstable.offset) = i + 1 by omega] at this
  generalize hu : { l.unstable with
    entries := l.unstable.entries.drop (i + 1 - l.unstable.offset), offset := i + 1 } = u
  have huo : u.offset = i + 1 := by rw [← hu]
  have hue : u.entries = l.unstable.entries.drop (i + 1 - l.unstable.offset) := by rw [← hu]
  have hus : u.snapshot = l.unstable.snapshot := by rw [← hu]
  have hindex : ({ l with unstable := u } : RaftLog).logical.index = l.logical.index := by
    rw [logical, logical, hus]
    cases l.unstable.snapshot <;> rfl
  have hterm : ({ l with unstable := u } : RaftLog).logical.term = l.logical.term := by
    rw [logical, logical, hus]
    cases l.unstable.snapshot <;> rfl
  have ha : ({ l with unstable := u } : RaftLog).Aligned := by
    refine ⟨h.stored, ?_, ?_, Or.inr ?_, ?_⟩
    · simp only [huo, hue]
      exact hindexed
    · rw [hindex]
      exact h.dummy_le
    · simp only [huo]
      omega
    · rw [hindex]
      simp only [huo, hue, hlen]
      exact hbase
  refine ⟨ha, h.logical_eq ha hindex hterm fun j hj => ?_⟩
  have hd := h.dummy_le
  rw [entryAt, entryAt]
  simp only [huo, hue]
  by_cases hj₁ : j < i + 1
  · rw [if_pos hj₁]
    split
    · rfl
    · exact hp.entries j (by omega) (by omega) (by omega)
  · rw [if_neg hj₁, if_neg (by omega), List.getElem?_drop]
    congr 1
    omega

theorem stableSnapTo_appliedTo (l : RaftLog) (i j : Nat) :
    (l.appliedTo i).stableSnapTo j = (l.stableSnapTo j).appliedTo i := by
  rw [appliedTo, appliedTo]
  split <;> rfl

/-- The calls of `advance`, with the snapshot reported first. -/
theorem advanceLog_eq (rd : Ready) (hs : ∀ s, l.unstable.snapshot = some s → s.metadata.index ≠ 0) :
    RawNode.advanceLog l rd =
      let l := l.stableSnapTo rd.snapshot.metadata.index
      let l := if rd.appliedCursor > 0 then l.appliedTo rd.appliedCursor else l
      match rd.entries.getLast? with
      | some e => l.stableTo e.index e.term
      | none => l := by
  rw [RawNode.advanceLog]
  cases hb : rd.snapshot.isEmpty with
  | true =>
      have hstay : l.stableSnapTo rd.snapshot.metadata.index = l := by
        rw [Snapshot.isEmpty, beq_iff_eq] at hb
        rw [stableSnapTo, Unstable.stableSnapTo, hb]
        cases hsome : l.unstable.snapshot with
        | none => rfl
        | some s =>
            simp only
            rw [if_neg (hs s hsome)]
      rw [hstay]
      rfl
  | false =>
      have hcommute : ∀ l₁ : RaftLog, ∀ i t, (l₁.stableTo i t).stableSnapTo rd.snapshot.metadata.index =
          (l₁.stableSnapTo rd.snapshot.metadata.index).stableTo i t := by
        intro l₁ i t
        simp only [stableSnapTo, stableTo, stableSnapTo_stableTo]
      simp only [Bool.not_false, if_true]
      cases rd.entries.getLast? with
      | none =>
          simp only [apply_ite (fun l₁ : RaftLog => l₁.stableSnapTo rd.snapshot.metadata.index),
            stableSnapTo_appliedTo]
      | some e =>
          simp only [hcommute, apply_ite (fun l₁ : RaftLog => l₁.stableSnapTo rd.snapshot.metadata.index),
            stableSnapTo_appliedTo]

namespace Coupled

/-- A report of stored entries. Behind a pending snapshot the last unstable entry must stay. -/
theorem stableTo (h : l.Coupled) {i t : Nat} (hg : l.Takes i t → l.Persisted i ∧ ∀ s, l.unstable.snapshot = some s →
    l.storage.snapshot.metadata.index = s.metadata.index ∧ i < l.lastIndex) :
    (l.stableTo i t).Coupled ∧ (l.stableTo i t).logical = l.logical := by
  by_cases htakes : l.Takes i t
  swap
  · rw [stableTo_of_not_takes htakes]
    exact ⟨h, rfl⟩
  obtain ⟨hp, hpend⟩ := hg htakes
  have hoff := htakes.1
  have hlt := htakes.lt
  have hreach := hp.reaches hoff hlt
  rw [stableTo_of_takes htakes]
  obtain ⟨ha, hl⟩ := stable_logical h.aligned hp hoff hlt rfl
  have hlen : i + 1 + (l.unstable.entries.drop (i + 1 - l.unstable.offset)).length =
      l.unstable.offset + l.unstable.entries.length := by
    rw [List.length_drop]
    omega
  have hempty : l.unstable.entries.drop (i + 1 - l.unstable.offset) = [] →
      i + 1 = l.unstable.offset + l.unstable.entries.length := by
    intro he
    rw [he, List.length_nil] at hlen
    omega
  refine ⟨⟨ha.stored, ha.indexed, by rw [hl]; exact h.base_le, ?_, h.applied_le, h.snapshot_le, fun hn => ?_,
    fun s hs => ?_⟩, hl⟩
  · simp only [hlen]
    exact h.committed_lt
  · have hj := h.joined hn
    refine ⟨?_, fun he => ?_, fun hle => ?_, fun hle => ?_, fun k hk hd hka => ?_, fun hend => ?_⟩
    · simp only
      omega
    · have := hp.ends (hempty he)
      simp only
      omega
    · simp only at hle
      exact hj.compacted (by omega)
    · simp only at hle ⊢
      rw [List.getElem?_drop, ← hj.dummy_term (by omega)]
      congr 2
      omega
    · simp only at hk hd hka ⊢
      rw [List.getElem?_drop, hj.applied.entries k (by omega) hd hka]
      congr 1
      omega
    · simp only [hlen] at hend
      exact hj.applied.ends hend
  · have hs' : l.unstable.snapshot = some s := hs
    obtain ⟨happ, hu | hv⟩ := h.pending s hs'
    · have := hu.stored_lt
      have := (hpend s hs').1
      omega
    · have hgt := hv.offset_gt
      refine ⟨happ, Or.inr ⟨hv.stored, hv.dummy, hv.dummy_term, ?_, ?_, fun he => ?_⟩⟩
      · simp only
        omega
      · simp only
        omega
      · have hlast := (hpend s hs').2
        have hlen' := h.aligned.length_eq
        rw [h.lastIndex_eq, LogicalLog.lastIndex] at hlast
        have := hempty he
        omega

/-- A report of a stored snapshot. -/
theorem stableSnapTo (h : l.Coupled) {i : Nat} (hg : ∀ s, l.unstable.snapshot = some s → s.metadata.index = i →
    l.storage.snapshot.metadata.index = s.metadata.index) :
    (l.stableSnapTo i).Coupled ∧ (l.stableSnapTo i).logical = l.logical := by
  rw [RaftLog.stableSnapTo, Unstable.stableSnapTo]
  cases hs : l.unstable.snapshot with
  | none => exact ⟨h, rfl⟩
  | some s =>
      simp only
      split
      · rename_i hi
        obtain ⟨-, hu | hv⟩ := h.pending s hs
        · have := hu.stored_lt
          have := hg s hs hi
          omega
        · exact h.dropSnapshot hs hv
      · exact ⟨h, rfl⟩

theorem appliedTo (h : l.Coupled) {i : Nat} (hi : l.applied ≤ i) (hc : i ≤ l.committed)
    (hp : l.unstable.snapshot = none → l.Persisted i) (hs : ∀ s, l.unstable.snapshot = some s → i < s.metadata.index) :
    (l.appliedTo i).Coupled ∧ (l.appliedTo i).logical = l.logical := by
  rw [RaftLog.appliedTo]
  split
  · exact ⟨h, rfl⟩
  · exact ⟨h.moved le_rfl h.committed_lt hi hc hp hs, rfl⟩

end Coupled

/-! ### Compaction -/

/-- A compaction that succeeds makes the entry at its index the dummy. -/
theorem compact_cases {st st' : MemoryStorage} {i : Nat} {status : Status}
    (hidx : IndexedFrom (st.dummy.index + 1) st.ents) (h : st.compact i = .ok (status, st')) :
    i ≤ st.dummy.index ∧ st' = st ∨
      ∃ e, st.dummy.index < i ∧ st.ents[i - st.dummy.index - 1]? = some e ∧
        st' = { st with
          dummy := { st.dummy with index := i, term := e.term }
          ents := st.ents.drop (i - st.dummy.index) } := by
  unfold MemoryStorage.compact at h
  split at h
  · rename_i hle
    exact Or.inl ⟨hle, (Prod.mk.inj (Except.ok.inj h)).2.symm⟩
  rename_i hlt
  split at h
  · cases h
  obtain ⟨k, hk⟩ : ∃ k, i - st.dummy.index = k + 1 := ⟨i - st.dummy.index - 1, by omega⟩
  rw [hk] at h ⊢
  simp only [MemoryStorage.all, List.getElem?_cons_succ] at h
  split at h
  · cases h
  · rename_i e he
    have hi : e.index = i := by
      have := hidx k e he
      omega
    refine Or.inr ⟨e, by omega, he, ?_⟩
    rw [← (Prod.mk.inj (Except.ok.inj h)).2, hi]

namespace Coupled

theorem compact (h : l.Coupled) {i : Nat} {status : Status} {st : MemoryStorage} (hi : i ≤ l.applied)
    (hc : l.storage.compact i = .ok (status, st)) :
    ({ l with storage := st } : RaftLog).Coupled ∧
      ({ l with storage := st } : RaftLog).logical = l.logical.compact i := by
  have hdb := h.aligned.dummy_le
  have happ := h.applied_le
  rw [LogicalLog.compact]
  rcases compact_cases h.stored hc with ⟨hle, rfl⟩ | ⟨e, hlt, he, hst⟩
  · rw [if_pos (hle.trans hdb)]
    exact ⟨h, rfl⟩
  have hd : st.dummy.index = i := by rw [hst]
  have ht : st.dummy.term = e.term := by rw [hst]
  have hents : st.ents = l.storage.ents.drop (i - l.storage.dummy.index) := by rw [hst]
  have hsnap : st.snapshot = l.storage.snapshot := by rw [hst]
  obtain ⟨hk, -⟩ := List.getElem?_eq_some_iff.mp he
  have hlast : st.lastIndex = l.storage.lastIndex := by
    rw [MemoryStorage.lastIndex, MemoryStorage.lastIndex, hd, hents, List.length_drop]
    omega
  have hstored : IndexedFrom (st.dummy.index + 1) st.ents := by
    rw [hd, hents]
    have := h.stored.drop (i - l.storage.dummy.index)
    rwa [show l.storage.dummy.index + 1 + (i - l.storage.dummy.index) = i + 1 by omega] at this
  have hget : ∀ k, i < k → st.ents[k - st.dummy.index - 1]? = l.storage.ents[k - l.storage.dummy.index - 1]? := by
    intro k hik
    rw [hd, hents, List.getElem?_drop]
    congr 1
    omega
  cases hs : l.unstable.snapshot with
  | some s =>
      -- the base is the snapshot, and what is compacted lies below it
      have hs' : ({ l with storage := st } : RaftLog).unstable.snapshot = some s := hs
      obtain ⟨has, hu | hv⟩ := h.pending s hs
      swap
      · have := hv.dummy
        omega
      have hoff := hu.offset
      have hc' : ({ l with storage := st } : RaftLog).Coupled := by
        refine ⟨hstored, h.indexed, ?_, h.committed_lt, h.applied_le, ?_, fun hn => ?_, fun s' hsome => ?_⟩
        · have := h.base_le
          rw [logical_some hs] at this
          rw [logical_some hs']
          exact this
        · simp only [hsnap]
          exact h.snapshot_le
        · cases hs'.symm.trans hn
        · obtain rfl := Option.some.inj (hs'.symm.trans hsome)
          refine ⟨has, Or.inl ⟨?_, ?_, hu.offset⟩⟩
          · simp only [hsnap]
            exact hu.stored_lt
          · simp only [hd]
            omega
      refine ⟨hc', ?_⟩
      rw [if_pos (by rw [logical_some hs]; simp only; omega)]
      refine h.aligned.logical_eq hc'.aligned ?_ ?_ fun j hj => ?_
      · rw [logical_some hs, logical_some hs']
      · rw [logical_some hs, logical_some hs']
      · rw [logical_some hs] at hj
        simp only at hj
        rw [entryAt, entryAt, if_neg (by simp only; omega), if_neg (by omega)]
  | none =>
      have hs' : ({ l with storage := st } : RaftLog).unstable.snapshot = none := hs
      have hj := h.joined hs
      have hbase : l.logical.index = l.storage.dummy.index := by rw [logical_none hs]
      have hc' : ({ l with storage := st } : RaftLog).Coupled := by
        refine ⟨hstored, h.indexed, ?_, h.committed_lt, h.applied_le, ?_, fun _ => ?_, fun s hsome => ?_⟩
        · rw [logical_none hs']
          simp only [hd]
          omega
        · simp only [hsnap]
          exact h.snapshot_le
        · refine ⟨by simp only [hlast]; exact hj.offset_le, by simp only [hlast]; exact hj.offset_eq,
            fun _ => by simp only [hd]; exact hi, fun hoff => ?_, fun k hk hdk hka => ?_,
            by simp only [hlast]; exact hj.applied.ends⟩
          · simp only [hd] at hoff
            simp only [hd, ht]
            rw [← hj.applied.entries i hoff hlt hi, he]
            rfl
          · simp only [hd] at hdk
            simp only
            rw [hget k hdk]
            exact hj.applied.entries k hk (by omega) hka
        · cases hs'.symm.trans hsome
      refine ⟨hc', ?_⟩
      have hat : l.entryAt i = some e := by
        rw [entryAt]
        split
        · exact he
        · rw [← hj.applied.entries i (by omega) hlt hi, he]
      have hterm : l.logical.termOf i = e.term := by
        rw [LogicalLog.termOf, if_neg (by omega), if_neg (by omega), h.aligned.entries_get,
          show l.logical.index + 1 + (i - l.logical.index - 1) = i by omega, hat]
        rfl
      have hindex : ({ l with storage := st } : RaftLog).logical.index = i := by
        rw [logical_none hs']
        exact hd
      have hentries : ({ l with storage := st } : RaftLog).logical.entries =
          l.logical.entries.drop (i - l.logical.index) := by
        apply List.ext_getElem?
        intro k
        rw [hc'.aligned.entries_get, hindex, List.getElem?_drop, h.aligned.entries_get,
          show l.logical.index + 1 + (i - l.logical.index + k) = i + 1 + k by omega, entryAt, entryAt]
        simp only
        rw [hget _ (by omega)]
      rw [if_neg (by omega), hterm, ← hentries, ← hindex, ← ht]
      rw [logical_none hs']

end Coupled

end RaftLog

end RaftEtcd
