import Mathlib.Data.List.AList
import Mathlib.Data.Finset.Card
import Mathlib.Data.List.Sort

/-! Keyed collections that are updated in place: Mathlib's association lists with one value
type, and an update of the stored values that leaves the keys and their order alone. -/
universe u v

/-- The element at a position of the sorted list is not below `y` exactly when as many elements as stand
from that position on are not below `y`. -/
theorem List.le_insertionSort_iff (l : List ℕ) {k x y : ℕ} (hx : (l.insertionSort (· ≤ ·))[k]? = some x) :
    y ≤ x ↔ l.length - k ≤ l.countP fun z => y ≤ z := by
  have hsorted : (l.insertionSort (· ≤ ·)).Pairwise (· ≤ ·) := List.pairwise_insertionSort (· ≤ ·) l
  have hperm := List.perm_insertionSort (· ≤ ·) l
  obtain ⟨hk, hget⟩ := List.getElem?_eq_some_iff.mp hx
  rw [← hperm.countP_eq, ← hperm.length_eq]
  generalize l.insertionSort (· ≤ ·) = m at *
  constructor
  · intro hle
    have hall : (m.drop k).countP (fun z => y ≤ z) = (m.drop k).length := by
      rw [List.countP_eq_length]
      intro z hz
      rw [List.drop_eq_getElem_cons hk, hget] at hz
      rcases List.mem_cons.mp hz with rfl | hz
      · simpa using hle
      · have hpair := hsorted.drop (i := k)
        rw [List.drop_eq_getElem_cons hk, hget] at hpair
        simpa using hle.trans ((List.pairwise_cons.mp hpair).1 z hz)
    calc m.length - k = (m.drop k).length := List.length_drop.symm
      _ = (m.drop k).countP (fun z => y ≤ z) := hall.symm
      _ ≤ m.countP (fun z => y ≤ z) := (List.drop_sublist k _).countP_le
  · intro hcount
    by_contra hlt
    -- then nothing up to the position counts
    have hnone : (m.take (k + 1)).countP (fun z => y ≤ z) = 0 := by
      rw [List.countP_eq_zero]
      intro z hz
      rw [List.take_succ_eq_append_getElem hk, hget] at hz
      have hpair := hsorted.take (i := k + 1)
      rw [List.take_succ_eq_append_getElem hk, hget] at hpair
      have hzx : z ≤ x := by
        rcases List.mem_append.mp hz with hz | hz
        · exact (List.pairwise_append.mp hpair).2.2 z hz x (List.mem_singleton.mpr rfl)
        · exact (List.mem_singleton.mp hz).le
      simpa using lt_of_le_of_lt hzx (not_le.mp hlt)
    have hsplit : m.countP (fun z => y ≤ z) = (m.drop (k + 1)).countP (fun z => y ≤ z) := by
      rw [← Nat.zero_add (countP _ (m.drop _)), ← hnone, ← List.countP_append, List.take_append_drop]
    have hrest := List.countP_le_length (p := fun z => decide (y ≤ z)) (l := m.drop (k + 1))
    rw [List.length_drop] at hrest
    omega

theorem List.le_countP_insertionSort (l : List ℕ) {k x : ℕ} (hx : (l.insertionSort (· ≤ ·))[k]? = some x) :
    l.length - k ≤ l.countP fun y => x ≤ y := (l.le_insertionSort_iff hx).mp le_rfl

/-- An unordered map. The order of its entries is the order in which it is iterated. -/
abbrev AssocMap (κ : Type u) (α : Type v) := AList (fun _ : κ => α)

namespace AssocMap
variable {κ : Type u} {α : Type v}

/-- Replaces every value. -/
def mapVal (f : κ → α → α) (m : AssocMap κ α) : AssocMap κ α where
  entries := m.entries.map fun s => ⟨s.1, f s.1 s.2⟩
  nodupKeys := by
    have hk : (m.entries.map fun s => (⟨s.1, f s.1 s.2⟩ : Σ _ : κ, α)).keys = m.entries.keys := by
      simp only [List.keys, List.map_map]
      rfl
    rw [List.NodupKeys, hk]
    exact m.nodupKeys

@[simp] theorem keys_mapVal (f : κ → α → α) (m : AssocMap κ α) : (mapVal f m).keys = m.keys := by
  simp only [AList.keys, mapVal, List.keys, List.map_map]
  rfl

/-- The values in iteration order. -/
def values (m : AssocMap κ α) : List α := m.entries.map Sigma.snd

variable [DecidableEq κ]

private theorem dlookup_mapVal (f : κ → α → α) (l : List (Σ _ : κ, α)) (k : κ) :
    (l.map fun s => (⟨s.1, f s.1 s.2⟩ : Σ _ : κ, α)).dlookup k = (l.dlookup k).map (f k) := by
  induction l with
  | nil => rfl
  | cons s l ih =>
      obtain ⟨k', a⟩ := s
      by_cases h : k = k'
      · subst h
        simp
      · have hne : ∀ b : α, k ≠ (⟨k', b⟩ : Σ _ : κ, α).1 := fun _ => h
        rw [List.map_cons, List.dlookup_cons_ne _ _ (hne _), List.dlookup_cons_ne _ _ (hne _), ih]

@[simp] theorem lookup_mapVal (f : κ → α → α) (m : AssocMap κ α) (k : κ) :
    (mapVal f m).lookup k = (m.lookup k).map (f k) := dlookup_mapVal f m.entries k

/-- Replaces the value stored under one key. -/
def modify (k : κ) (f : α → α) (m : AssocMap κ α) : AssocMap κ α :=
  mapVal (fun k' a => if k' = k then f a else a) m

@[simp] theorem keys_modify (k : κ) (f : α → α) (m : AssocMap κ α) :
    (modify k f m).keys = m.keys := keys_mapVal _ m

@[simp] theorem lookup_modify_self (k : κ) (f : α → α) (m : AssocMap κ α) :
    (modify k f m).lookup k = (m.lookup k).map f := by
  rw [modify, lookup_mapVal]
  simp

theorem lookup_modify_ne {k k' : κ} (h : k' ≠ k) (f : α → α) (m : AssocMap κ α) :
    (modify k f m).lookup k' = m.lookup k' := by
  rw [modify, lookup_mapVal]
  simp [h]

theorem lookup_isSome_iff (m : AssocMap κ α) (k : κ) : (m.lookup k).isSome ↔ k ∈ m.keys := AList.lookup_isSome

theorem lookup_modify_cases {k k' : κ} {f : α → α} {m : AssocMap κ α} {a : α} (h : (modify k f m).lookup k' = some a) :
    (k' = k ∧ ∃ b, m.lookup k' = some b ∧ a = f b) ∨ k' ≠ k ∧ m.lookup k' = some a := by
  by_cases hk : k' = k
  · rw [hk, lookup_modify_self] at h
    obtain ⟨b, hb, rfl⟩ := Option.map_eq_some_iff.mp h
    exact Or.inl ⟨hk, b, hk ▸ hb, rfl⟩
  · rw [lookup_modify_ne hk] at h
    exact Or.inr ⟨hk, h⟩

theorem modify_modify (k : κ) (f g : α → α) (m : AssocMap κ α) : modify k g (modify k f m) = modify k (fun a => g (f a)) m := by
  apply AList.ext
  simp only [modify, mapVal, List.map_map]
  apply List.map_congr_left
  intro s _
  simp only [Function.comp_apply]
  split <;> rfl

theorem lookup_modify_isSome {k k' : κ} {f : α → α} {m : AssocMap κ α} :
    ((modify k f m).lookup k').isSome ↔ (m.lookup k').isSome := by
  rw [lookup_isSome_iff, lookup_isSome_iff, keys_modify]

private theorem dlookup_kreplace (k k' : κ) (a : α) (l : List (Σ _ : κ, α)) :
    (l.kreplace k a).dlookup k' = if k' = k then (l.dlookup k).map fun _ => a else l.dlookup k' := by
  induction l with
  | nil => simp [List.kreplace]
  | cons s l ih =>
      obtain ⟨c, b⟩ := s
      by_cases hc : k = c
      · subst hc
        rw [List.kreplace, List.lookmap_cons_some _ _ (b := ⟨k, a⟩) (by simp)]
        by_cases hk : k' = k
        · subst hk
          simp
        · have hne : ∀ b : α, k' ≠ (⟨k, b⟩ : Σ _ : κ, α).1 := fun _ => hk
          rw [List.dlookup_cons_ne _ _ (hne _), List.dlookup_cons_ne _ _ (hne _), if_neg hk]
      · have hrest := ih
        have hne : ∀ b : α, k ≠ (⟨c, b⟩ : Σ _ : κ, α).1 := fun _ => hc
        rw [List.kreplace, List.lookmap_cons_none _ _ (by simp [hc])]
        rw [List.kreplace] at hrest
        rw [List.dlookup_cons_ne _ _ (hne _)]
        by_cases hk : k' = c
        · subst hk
          rw [if_neg (Ne.symm hc), List.dlookup_cons_eq, List.dlookup_cons_eq]
        · have hne' : ∀ b : α, k' ≠ (⟨c, b⟩ : Σ _ : κ, α).1 := fun _ => hk
          rw [List.dlookup_cons_ne _ _ (hne' _), List.dlookup_cons_ne _ _ (hne' _), hrest]

theorem lookup_replace (m : AssocMap κ α) (k k' : κ) (a : α) :
    AList.lookup k' (m.replace k a) = if k' = k then (m.lookup k).map fun _ => a else m.lookup k' :=
  dlookup_kreplace k k' a m.entries

theorem toFinset_keys_insert (m : AssocMap κ α) (k : κ) (a : α) :
    (m.insert k a).keys.toFinset = insert k m.keys.toFinset := by
  ext k'
  rw [List.mem_toFinset, ← AList.mem_keys, AList.mem_insert, AList.mem_keys, Finset.mem_insert, List.mem_toFinset]

theorem toFinset_keys_erase (m : AssocMap κ α) (k : κ) : (m.erase k).keys.toFinset = m.keys.toFinset.erase k := by
  ext k'
  rw [List.mem_toFinset, ← AList.mem_keys, AList.mem_erase, AList.mem_keys, Finset.mem_erase, List.mem_toFinset]

/-- As many keys carry a value with a property as values have it. -/
theorem exists_finset_countP (m : AssocMap κ α) (p : α → Bool) :
    ∃ Q : Finset κ, (∀ k ∈ Q, ∃ a, m.lookup k = some a ∧ p a = true) ∧ Q.card = (values m).countP p := by
  have hnd : ((m.entries.filter fun s => p s.2).map Sigma.fst).Nodup := m.nodupKeys.sublist List.filter_sublist
  refine ⟨((m.entries.filter fun s => p s.2).map Sigma.fst).toFinset, ?_, ?_⟩
  · intro k hk
    simp only [List.mem_toFinset, List.mem_map, List.mem_filter] at hk
    obtain ⟨⟨k', a'⟩, ⟨hmem, hp⟩, rfl⟩ := hk
    exact ⟨a', AList.mem_lookup_iff.mpr hmem, hp⟩
  · rw [List.toFinset_card_of_nodup hnd, List.length_map, values, List.countP_map,
      List.countP_eq_length_filter]
    rfl

/-- Pairs with distinct keys that are inserted one after the other are found again. -/
theorem lookup_foldl_insert {l : List (Σ _ : κ, α)} (h : l.NodupKeys) (m : AssocMap κ α) (k : κ) :
    (l.foldl (fun m s => m.insert s.1 s.2) m).lookup k = (l.dlookup k).or (m.lookup k) := by
  induction l generalizing m with
  | nil => rfl
  | cons s l ih =>
      obtain ⟨k', a⟩ := s
      obtain ⟨hnew, hl⟩ := List.nodupKeys_cons.mp h
      rw [List.foldl_cons, ih hl]
      by_cases hk : k = k'
      · rw [hk, List.dlookup_cons_eq, AList.lookup_insert, List.dlookup_eq_none.mpr hnew]
        rfl
      · have hne : ∀ b : α, k ≠ (⟨k', b⟩ : Σ _ : κ, α).1 := fun _ => hk
        rw [List.dlookup_cons_ne _ _ (hne _), AList.lookup_insert_ne hk]

/-- The keys after inserting distinct new ones. -/
theorem keys_foldl_insert (f : κ → α) (ids : List κ) (m : AssocMap κ α)
    (h : (m.keys ++ ids).Nodup) :
    (ids.foldl (fun m id => m.insert id (f id)) m).keys.Perm (m.keys ++ ids) := by
  induction ids generalizing m with
  | nil =>
      rw [List.append_nil]
      exact .refl _
  | cons id ids ih =>
      have hid : id ∉ m.keys := by
        intro hm
        exact (List.nodup_append.mp h).2.2 id hm id (List.mem_cons_self ..) rfl
      have hkeys : (m.insert id (f id)).keys = id :: m.keys := by
        rw [AList.keys_insert, List.erase_of_not_mem hid]
      have hperm : (id :: m.keys ++ ids).Perm (m.keys ++ id :: ids) := (List.perm_middle).symm
      rw [List.foldl_cons]
      refine (ih _ ?_).trans ?_
      · rw [hkeys]
        exact (hperm.nodup_iff).mpr h
      · rw [hkeys]
        exact hperm

end AssocMap
