import RaftEtcd.WalReplay

/-! The log file seen from a snapshot. A process that starts at a snapshot finds the entries behind
it, whatever was overwritten below; and when the entries leave no gap behind one snapshot, they
leave none behind a later one, and the two logs agree as far as the first one goes. Everything here
is about the records one by one, since a crash can leave any first part of them. -/
namespace RaftEtcd

open MessagePack (Obj)
open Framing (scan)

/-! ### The entries behind a snapshot -/

/-- An entry above the snapshot replaces what was there from its index on. -/
def viewPut (x : Nat) (log : List Entry) (e : Entry) : List Entry :=
  if x < e.index then log.take (e.index - x - 1) ++ [e] else log

/-- The log that a process finds which starts at index `x`. -/
def view (x : Nat) (es : List Entry) : List Entry := es.foldl (viewPut x) []

def viewEnd (x : Nat) (es : List Entry) : Nat := x + (view x es).length

/-- No entry leaves a gap behind `x`. -/
def Fills (x : Nat) (es : List Entry) : Prop :=
  ∀ pre e, pre ++ [e] <+: es → x < e.index → e.index ≤ viewEnd x pre + 1

variable {x y : Nat} {es : List Entry} {e : Entry}

theorem view_concat (x : Nat) (es : List Entry) (e : Entry) : view x (es ++ [e]) = viewPut x (view x es) e := by
  rw [view, List.foldl_append]
  rfl

theorem fills_nil (x : Nat) : Fills x [] := by
  intro pre e hpre
  cases List.append_eq_nil_iff.mp (List.prefix_nil.mp hpre) |>.2

theorem fills_concat : Fills x (es ++ [e]) ↔ Fills x es ∧ (x < e.index → e.index ≤ viewEnd x es + 1) := by
  constructor
  · intro h
    exact ⟨fun pre e' hpre => h pre e' (hpre.trans (List.prefix_append _ _)), h es e (List.prefix_refl _)⟩
  · rintro ⟨hes, he⟩ pre e' hpre
    rcases List.prefix_concat_iff.mp hpre with heq | hpre
    · obtain ⟨rfl, hlast⟩ := List.append_inj' heq rfl
      obtain rfl := List.singleton_inj.mp hlast
      exact he
    · exact hes pre e' hpre

theorem viewEnd_concat_above (h : x < e.index) (hle : e.index ≤ viewEnd x es + 1) :
    viewEnd x (es ++ [e]) = e.index := by
  rw [viewEnd] at hle
  rw [viewEnd, view_concat, viewPut, if_pos h, List.length_append, List.length_take, List.length_singleton]
  omega

theorem viewEnd_concat_below (h : ¬ x < e.index) : viewEnd x (es ++ [e]) = viewEnd x es := by
  rw [viewEnd, view_concat, viewPut, if_neg h]
  rfl

theorem view_indexed (h : Fills x es) : IndexedFrom (x + 1) (view x es) := by
  induction es using List.reverseRecOn with
  | nil => exact .nil _
  | append_singleton es e ih =>
      obtain ⟨hes, he⟩ := fills_concat.mp h
      rw [view_concat, viewPut]
      split
      · rename_i hgt
        have hle := he hgt
        rw [viewEnd] at hle
        refine ((ih hes).take _).append ?_
        intro k e' hk
        rw [List.getElem?_singleton] at hk
        split at hk
        · obtain rfl := Option.some.inj hk
          rw [List.length_take]
          omega
        · cases hk
      · exact ih hes

theorem view_mem {e : Entry} (h : e ∈ view x es) : e ∈ es := by
  induction es using List.reverseRecOn with
  | nil => cases h
  | append_singleton es e' ih =>
      rw [view_concat, viewPut] at h
      split at h
      · rcases List.mem_append.mp h with h | h
        · exact List.mem_append_left _ (ih (List.mem_of_mem_take h))
        · exact List.mem_append_right _ h
      · exact List.mem_append_left _ (ih h)

/-- Entries one after the other replace what is there from the first one on. -/
theorem view_append {off : Nat} {es' : List Entry} (hx : x < off) (hidx : IndexedFrom off es') :
    view x (es ++ es') = if es' = [] then view x es else (view x es).take (off - x - 1) ++ es' := by
  induction es' using List.reverseRecOn with
  | nil => rw [List.append_nil, if_pos rfl]
  | append_singleton es' e ih =>
      have he : e.index = off + es'.length := hidx es'.length e (by simp)
      rw [← List.append_assoc, view_concat, ih (hidx.of_initial (List.prefix_append _ _)), viewPut,
        if_pos (by omega), if_neg (show ¬ es' ++ [e] = [] by simp)]
      split
      · rename_i hnil
        rw [hnil, List.nil_append, he, hnil, List.length_nil, Nat.add_zero]
      · rw [List.take_of_length_le (by rw [List.length_append, List.length_take]; omega), List.append_assoc]

/-- The slots of `read_all` are filled one after the other. -/
theorem replayEntries_view (start : WalSnapshot) (h : Fills start.index es) :
    replayEntries start es = (view start.index es).map some := by
  induction es using List.reverseRecOn with
  | nil => rfl
  | append_singleton es e ih =>
      obtain ⟨hes, he⟩ := fills_concat.mp h
      have hreplay : replayEntries start (es ++ [e]) = Wal.placeEntry start (replayEntries start es) e := by
        rw [replayEntries, List.foldl_append]
        rfl
      rw [hreplay, ih hes, view_concat, viewPut, Wal.placeEntry]
      by_cases hgt : start.index < e.index
      · have hle := he hgt
        rw [viewEnd] at hle
        rw [if_pos hgt, if_pos hgt, resizePtrs, ← List.map_take, List.length_map,
          show e.index - start.index - 1 - (view start.index es).length = 0 by omega, List.replicate_zero,
          List.append_nil, List.map_append]
        rfl
      · rw [if_neg hgt, if_neg hgt]

/-- Two views of the same entries. -/
structure Seen (x y : Nat) (es : List Entry) : Prop where
  fills : Fills y es
  ends : viewEnd x es ≤ viewEnd y es
  same : ∀ i, y < i → i ≤ viewEnd x es → (view y es)[i - y - 1]? = (view x es)[i - x - 1]?

theorem Fills.seen (h : Fills x es) (hxy : x ≤ y) : Seen x y es := by
  induction es using List.reverseRecOn with
  | nil =>
      refine ⟨fills_nil y, hxy, fun i hi hle => ?_⟩
      simp only [viewEnd, view, List.foldl_nil, List.length_nil] at hle
      omega
  | append_singleton es e ih =>
      obtain ⟨hes, he⟩ := fills_concat.mp h
      obtain ⟨hfill, hend, hsame⟩ := ih hes
      by_cases hx : x < e.index
      · have hle := he hx
        have hex := viewEnd_concat_above hx hle
        by_cases hy : y < e.index
        · -- both logs end with the new entry
          have hey := viewEnd_concat_above hy (show e.index ≤ viewEnd y es + 1 by omega)
          refine ⟨fills_concat.mpr ⟨hfill, fun _ => by omega⟩, by omega, fun i hi hlast => ?_⟩
          rw [hex] at hlast
          rw [viewEnd] at hle hend
          rw [view_concat, view_concat, viewPut, viewPut, if_pos hx, if_pos hy]
          by_cases hieq : i = e.index
          · rw [List.getElem?_append_right (by rw [List.length_take]; omega),
              List.getElem?_append_right (by rw [List.length_take]; omega), List.length_take, List.length_take,
              show i - y - 1 - min (e.index - y - 1) (view y es).length = 0 by rw [viewEnd] at hend; omega,
              show i - x - 1 - min (e.index - x - 1) (view x es).length = 0 by omega]
          · rw [List.getElem?_append_left (by rw [List.length_take]; rw [viewEnd] at hend; omega),
              List.getElem?_append_left (by rw [List.length_take]; omega),
              List.getElem?_take_of_lt (by omega), List.getElem?_take_of_lt (by omega)]
            exact hsame i hi (by rw [viewEnd]; omega)
        · -- the later snapshot covers the entry
          refine ⟨fills_concat.mpr ⟨hfill, fun h' => absurd h' hy⟩, ?_, fun i hi hlast => by omega⟩
          rw [viewEnd_concat_below hy, hex, viewEnd]
          omega
      · have hy : ¬ y < e.index := by omega
        refine ⟨fills_concat.mpr ⟨hfill, fun h' => absurd h' hy⟩, ?_, fun i hi hlast => ?_⟩
        · rw [viewEnd_concat_below hx, viewEnd_concat_below hy]
          exact hend
        · rw [viewEnd_concat_below hx] at hlast
          rw [view_concat, view_concat, viewPut, viewPut, if_neg hx, if_neg hy]
          exact hsame i hi hlast

/-! ### Records -/

/-- What a record holds. -/
inductive WalItem where
  | entry (e : Entry)
  | state (hs : HardState)
  | snapshot (s : WalSnapshot)

namespace WalItem

def value : WalItem → WalType × Obj
  | entry e => (walEntryType, e.toObj)
  | state hs => (walStateType, hs.toObj)
  | snapshot s => (walSnapshotType, s.toObj)

def entries : WalItem → List Entry
  | entry e => [e]
  | _ => []

def states : WalItem → List HardState
  | state hs => [hs]
  | _ => []

/-- The numbers fit their types, and the packed value fits a record. -/
def Fits (mp : Msgpack) (v : WalItem) : Prop :=
  MessagePack.Fits v.value.2 ∧ (mp.pack v.value.2).length ≤ maxWalRecordLen

theorem value_type (v : WalItem) : v.value.1 ≠ walInvalidType := by
  cases v <;> simp [value, walEntryType, walStateType, walSnapshotType, walInvalidType]

end WalItem

def itemEntries (vs : List WalItem) : List Entry := vs.flatMap WalItem.entries

/-- The last hard state. -/
def itemState (vs : List WalItem) : HardState := (vs.flatMap WalItem.states).getLast?.getD {}

/-- The index up to which the last hard state says that everything is committed. -/
def itemCommit (vs : List WalItem) : Nat := (itemState vs).commit

def itemBytes (mp : Msgpack) (crc : Bytes → UInt32) (vs : List WalItem) : Bytes :=
  valueBytes mp crc (vs.map WalItem.value)

section Items
variable {vs : List WalItem}

theorem itemEntries_append (vs vs' : List WalItem) : itemEntries (vs ++ vs') = itemEntries vs ++ itemEntries vs' :=
  List.flatMap_append

theorem itemBytes_append (mp : Msgpack) (crc : Bytes → UInt32) (vs vs' : List WalItem) :
    itemBytes mp crc (vs ++ vs') = itemBytes mp crc vs ++ itemBytes mp crc vs' := by
  rw [itemBytes, List.map_append, valueBytes_append]
  rfl

@[simp] theorem itemEntries_entry (vs : List WalItem) (e : Entry) : itemEntries (vs ++ [.entry e]) = itemEntries vs ++ [e] :=
  itemEntries_append vs _

@[simp] theorem itemEntries_state (vs : List WalItem) (hs : HardState) : itemEntries (vs ++ [.state hs]) = itemEntries vs := by
  rw [itemEntries_append]
  exact List.append_nil _

@[simp] theorem itemEntries_snapshot (vs : List WalItem) (s : WalSnapshot) :
    itemEntries (vs ++ [.snapshot s]) = itemEntries vs := by
  rw [itemEntries_append]
  exact List.append_nil _

theorem itemState_append (vs vs' : List WalItem) :
    itemState (vs ++ vs') = (vs'.flatMap WalItem.states).getLast?.getD (itemState vs) := by
  rw [itemState, List.flatMap_append, List.getLast?_append]
  cases (vs'.flatMap WalItem.states).getLast? <;> rfl

@[simp] theorem itemCommit_entry (vs : List WalItem) (e : Entry) : itemCommit (vs ++ [.entry e]) = itemCommit vs := by
  rw [itemCommit, itemState_append]
  rfl

@[simp] theorem itemCommit_state (vs : List WalItem) (hs : HardState) : itemCommit (vs ++ [.state hs]) = hs.commit := by
  rw [itemCommit, itemState_append]
  rfl

@[simp] theorem itemCommit_snapshot (vs : List WalItem) (s : WalSnapshot) :
    itemCommit (vs ++ [.snapshot s]) = itemCommit vs := by
  rw [itemCommit, itemState_append]
  rfl

end Items

/-! ### Records that a process can start from -/

/-- The records seen from the snapshot at `x` with term `t`: it is recorded, the entries leave no gap
behind it, what is committed lies between the snapshot and the end, and every later snapshot is
that of a committed entry. -/
structure Replayable (mp : Msgpack) (x t : Nat) (vs : List WalItem) : Prop where
  fits : ∀ v ∈ vs, v.Fits mp
  base : .snapshot { index := x, term := t } ∈ vs
  zero : x = 0 → t = 0
  fills : Fills x (itemEntries vs)
  ge : x ≤ itemCommit vs
  le : itemCommit vs ≤ viewEnd x (itemEntries vs)
  same : ∀ s : WalSnapshot, .snapshot s ∈ vs → s.index = x → s.term = t
  ahead : ∀ s : WalSnapshot, .snapshot s ∈ vs → x < s.index → s.index ≤ itemCommit vs ∧
    ∃ e, (view x (itemEntries vs))[s.index - x - 1]? = some e ∧ e.term = s.term

namespace Replayable
variable {mp : Msgpack} {t u : Nat} {vs : List WalItem}

/-- The file that was just created. -/
theorem created (h : (WalItem.snapshot {}).Fits mp) : Replayable mp 0 0 [.snapshot {}] where
  fits v hv := by
    rw [List.mem_singleton.mp hv]
    exact h
  base := List.mem_singleton.mpr rfl
  zero _ := rfl
  fills := fills_nil 0
  ge := le_rfl
  le := le_rfl
  same s hs _ := by
    cases List.mem_singleton.mp hs
    rfl
  ahead s hs hlt := by
    cases List.mem_singleton.mp hs
    cases hlt

/-- A process may start from any later snapshot that is recorded. -/
theorem rebase (h : Replayable mp x t vs) (hs : .snapshot { index := y, term := u } ∈ vs) (hxy : x ≤ y) :
    Replayable mp y u vs := by
  rcases Nat.eq_or_lt_of_le hxy with rfl | hlt
  · obtain rfl := h.same _ hs rfl
    exact h
  · obtain ⟨hfills, hend, hview⟩ := h.fills.seen hxy
    obtain ⟨hy, e, he, rfl⟩ := h.ahead _ hs hlt
    have hle := h.le
    refine ⟨h.fits, hs, fun h0 => by omega, hfills, hy, hle.trans hend, fun s hmem hidx => ?_, fun s hmem hidx => ?_⟩
    · obtain ⟨-, e', he', hterm⟩ := h.ahead s hmem (by omega)
      rw [hidx] at he'
      simp only at he
      obtain rfl := Option.some.inj (he.symm.trans he')
      exact hterm.symm
    · obtain ⟨hcom, e', he', hterm⟩ := h.ahead s hmem (by omega)
      refine ⟨hcom, e', ?_, hterm⟩
      rw [hview _ hidx (by omega)]
      exact he'

theorem mem_of_concat {v : WalItem} {s : WalSnapshot} (hv : v ≠ .snapshot s) (hs : .snapshot s ∈ vs ++ [v]) :
    .snapshot s ∈ vs := by
  rcases List.mem_append.mp hs with hs | hs
  · exact hs
  · exact absurd (List.mem_singleton.mp hs).symm hv

/-- An entry behind what is committed. -/
theorem addEntry (h : Replayable mp x t vs) {e : Entry} (hfit : (WalItem.entry e).Fits mp)
    (hlt : itemCommit vs < e.index) (hle : e.index ≤ viewEnd x (itemEntries vs) + 1) :
    Replayable mp x t (vs ++ [.entry e]) := by
  have hx : x < e.index := lt_of_le_of_lt h.ge hlt
  have hmem : ∀ s : WalSnapshot, .snapshot s ∈ vs ++ [.entry e] → .snapshot s ∈ vs := fun s => mem_of_concat nofun
  refine ⟨fun v hv => ?_, List.mem_append_left _ h.base, h.zero, ?_, ?_, ?_, fun s hs => h.same s (hmem s hs),
    fun s hs hxs => ?_⟩
  · rcases List.mem_append.mp hv with hv | hv
    · exact h.fits v hv
    · rw [List.mem_singleton.mp hv]
      exact hfit
  · rw [itemEntries_entry]
    exact fills_concat.mpr ⟨h.fills, fun _ => hle⟩
  · rw [itemCommit_entry]
    exact h.ge
  · rw [itemCommit_entry, itemEntries_entry, viewEnd_concat_above hx hle]
    exact hlt.le
  · obtain ⟨hcom, e', he', hterm⟩ := h.ahead s (hmem s hs) hxs
    rw [itemCommit_entry, itemEntries_entry, view_concat, viewPut, if_pos hx]
    refine ⟨hcom, e', ?_, hterm⟩
    have hlen := (List.getElem?_eq_some_iff.mp he').1
    rw [List.getElem?_append_left (by rw [List.length_take]; omega), List.getElem?_take_of_lt (by omega)]
    exact he'

/-- A hard state that commits no less, and nothing that is not there. -/
theorem addState (h : Replayable mp x t vs) {hs : HardState} (hfit : (WalItem.state hs).Fits mp)
    (hge : itemCommit vs ≤ hs.commit) (hle : hs.commit ≤ viewEnd x (itemEntries vs)) :
    Replayable mp x t (vs ++ [.state hs]) := by
  have hmem : ∀ s : WalSnapshot, .snapshot s ∈ vs ++ [.state hs] → .snapshot s ∈ vs := fun s => mem_of_concat nofun
  refine ⟨fun v hv => ?_, List.mem_append_left _ h.base, h.zero, ?_, ?_, ?_, fun s hs => h.same s (hmem s hs),
    fun s hs hxs => ?_⟩
  · rcases List.mem_append.mp hv with hv | hv
    · exact h.fits v hv
    · rw [List.mem_singleton.mp hv]
      exact hfit
  · rw [itemEntries_state]
    exact h.fills
  · rw [itemCommit_state]
    exact h.ge.trans hge
  · rw [itemCommit_state, itemEntries_state]
    exact hle
  · obtain ⟨hcom, he⟩ := h.ahead s (hmem s hs) hxs
    rw [itemCommit_state, itemEntries_state]
    exact ⟨hcom.trans hge, he⟩

/-- The snapshot of a committed entry. -/
theorem addSnapshot (h : Replayable mp x t vs) {s : WalSnapshot} (hfit : (WalItem.snapshot s).Fits mp)
    (hx : x < s.index) (hcom : s.index ≤ itemCommit vs)
    (hterm : ∃ e, (view x (itemEntries vs))[s.index - x - 1]? = some e ∧ e.term = s.term) :
    Replayable mp x t (vs ++ [.snapshot s]) := by
  have hmem : ∀ s' : WalSnapshot, .snapshot s' ∈ vs ++ [.snapshot s] → .snapshot s' ∈ vs ∨ s' = s := by
    intro s' hs'
    rcases List.mem_append.mp hs' with hs' | hs'
    · exact Or.inl hs'
    · exact Or.inr (WalItem.snapshot.inj (List.mem_singleton.mp hs'))
  refine ⟨fun v hv => ?_, List.mem_append_left _ h.base, h.zero, ?_, ?_, ?_, fun s' hs' hidx => ?_, fun s' hs' hxs => ?_⟩
  · rcases List.mem_append.mp hv with hv | hv
    · exact h.fits v hv
    · rw [List.mem_singleton.mp hv]
      exact hfit
  · rw [itemEntries_snapshot]
    exact h.fills
  · rw [itemCommit_snapshot]
    exact h.ge
  · rw [itemCommit_snapshot, itemEntries_snapshot]
    exact h.le
  · rcases hmem s' hs' with hs' | rfl
    · exact h.same s' hs' hidx
    · omega
  · rw [itemCommit_snapshot, itemEntries_snapshot]
    rcases hmem s' hs' with hs' | rfl
    · exact h.ahead s' hs' hxs
    · exact ⟨hcom, hterm⟩

/-- Entries one after the other behind what is committed. -/
theorem addEntries (h : Replayable mp x t vs) {off : Nat} {es : List Entry} (hfit : ∀ e ∈ es, (WalItem.entry e).Fits mp)
    (hidx : IndexedFrom off es) (hoff : es ≠ [] → itemCommit vs < off) (hle : off ≤ viewEnd x (itemEntries vs) + 1) :
    Replayable mp x t (vs ++ es.map .entry) ∧ itemCommit (vs ++ es.map .entry) = itemCommit vs ∧
      itemEntries (vs ++ es.map .entry) = itemEntries vs ++ es := by
  induction es using List.reverseRecOn with
  | nil =>
      rw [List.map_nil, List.append_nil, List.append_nil]
      exact ⟨h, rfl, rfl⟩
  | append_singleton es e ih =>
      have hlt := hoff (by simp)
      have hpart := hidx.of_initial (List.prefix_append es [e])
      obtain ⟨hes, hcom, hents⟩ := ih (fun e' he' => hfit e' (List.mem_append_left _ he')) hpart fun _ => hlt
      have he : e.index = off + es.length := hidx es.length e (by simp)
      have hx := h.ge
      rw [List.map_append, List.map_singleton, ← List.append_assoc]
      refine ⟨hes.addEntry (hfit e (by simp)) (by omega) ?_, (itemCommit_entry _ _).trans hcom, ?_⟩
      · rw [hents, viewEnd, view_append (by omega) hpart]
        rw [viewEnd] at hle
        split
        · rename_i hnil
          rw [hnil, List.length_nil] at he
          omega
        · rw [List.length_append, List.length_take]
          omega
      · rw [itemEntries_entry, hents, List.append_assoc]

/-- Only the entries, the last hard state and the snapshots count. -/
theorem congr (h : Replayable mp x t vs) {vs' : List WalItem} (hents : itemEntries vs' = itemEntries vs)
    (hcom : itemCommit vs' = itemCommit vs) (hsub : vs' ⊆ vs) (hbase : .snapshot { index := x, term := t } ∈ vs') :
    Replayable mp x t vs' where
  fits v hv := h.fits v (hsub hv)
  base := hbase
  zero := h.zero
  fills := by
    rw [hents]
    exact h.fills
  ge := by
    rw [hcom]
    exact h.ge
  le := by
    rw [hcom, hents]
    exact h.le
  same s hs := h.same s (hsub hs)
  ahead s hs := by
    rw [hcom, hents]
    exact h.ahead s (hsub hs)

theorem snapshot_le (h : Replayable mp x t vs) {s : WalSnapshot} (hs : .snapshot s ∈ vs) : s.index ≤ itemCommit vs := by
  rcases Nat.lt_or_ge x s.index with hlt | hge
  · exact (h.ahead s hs hlt).1
  · exact hge.trans h.ge

/-- A snapshot beyond everything that is committed takes the place of the log below it. -/
theorem install (h : Replayable mp x t vs) {s : WalSnapshot} {hs : HardState} (hlt : itemCommit vs < s.index)
    (hcom : hs.commit = s.index) (hstate : (WalItem.state hs).Fits mp) (hsnap : (WalItem.snapshot s).Fits mp) :
    Replayable mp s.index s.term (vs ++ [.state hs] ++ [.snapshot s]) := by
  have hold : ∀ s', .snapshot s' ∈ vs ++ [.state hs] ++ [.snapshot s] → s.index ≤ s'.index → s' = s := by
    intro s' hs' hle
    simp only [List.mem_append, List.mem_singleton, reduceCtorEq, or_false, WalItem.snapshot.injEq] at hs'
    rcases hs' with hs' | hs'
    · have := h.snapshot_le hs'
      omega
    · exact hs'
  obtain ⟨hfills, -, -⟩ := h.fills.seen (h.ge.trans hlt.le)
  refine ⟨fun v hv => ?_, by simp, fun h0 => by omega, ?_, ?_, ?_, fun s' hs' heq => ?_, fun s' hs' hgt => ?_⟩
  · simp only [List.mem_append, List.mem_singleton] at hv
    rcases hv with (hv | rfl) | rfl
    · exact h.fits v hv
    · exact hstate
    · exact hsnap
  · rw [itemEntries_snapshot, itemEntries_state]
    exact hfills
  · rw [itemCommit_snapshot, itemCommit_state, hcom]
  · rw [itemCommit_snapshot, itemCommit_state, hcom, viewEnd]
    exact Nat.le_add_right _ _
  · rw [hold s' hs' heq.ge]
  · rw [hold s' hs' hgt.le] at hgt
    exact absurd hgt (lt_irrefl _)

end Replayable

/-! ### Reading what a crash left -/

/-- The records of some values. -/
def itemRecords (mp : Msgpack) (vs : List WalItem) : List (WalType × Bytes) :=
  valueRecords mp (vs.map WalItem.value)

section Reading
variable {mp : Msgpack} {crc : Bytes → UInt32} {vs ws : List WalItem}

theorem itemBytes_records (mp : Msgpack) (crc : Bytes → UInt32) (vs : List WalItem) :
    itemBytes mp crc vs = (itemRecords mp vs).flatMap fun r => WalFile.recordBytes crc r.1 r.2 := by
  simp only [itemBytes, valueBytes, itemRecords, valueRecords, List.flatMap_map]

theorem itemRecords_append (mp : Msgpack) (vs ws : List WalItem) :
    itemRecords mp (vs ++ ws) = itemRecords mp vs ++ itemRecords mp ws := by
  rw [itemRecords, List.map_append, valueRecords_append]
  rfl

theorem itemRecords_short (h : ∀ v ∈ vs, v.Fits mp) : ∀ r ∈ itemRecords mp vs, ShortRecord r := by
  intro r hr
  rw [itemRecords, valueRecords, List.map_map] at hr
  obtain ⟨v, hv, rfl⟩ := List.mem_map.mp hr
  exact ⟨v.value_type, (h v hv).2⟩

/-- A record that is not all there stops the scan, and is cut off. -/
theorem ShortRecord.torn {r : WalType × Bytes} (h : ShortRecord r) {b : Bytes}
    (hb : b <+: WalFile.recordBytes crc r.1 r.2) (hlt : b.length < (WalFile.recordBytes crc r.1 r.2).length) :
    ∃ why, readRecord crc b = .stop why ∧ why.truncates = true := by
  rw [List.prefix_iff_eq_take.mp hb]
  rw [WalFile.recordBytes, List.length_append, WalRecord.bytes_length] at hlt
  generalize hr : setWalRecordLen { type := r.1, len0 := 0, len1 := 0, len2 := 0, crc := crc r.2 } r.2.length = record at *
  have hlen : walRecordLen record = r.2.length := by rw [← hr, walRecordLen_set, h.len]
  have htype : record.type ≠ walInvalidType := by rw [← hr]; exact h.1
  by_cases h8 : b.length < 8
  · refine ⟨.shortRecord, ?_, rfl⟩
    cases hof : WalRecord.ofBytes ((WalFile.recordBytes crc r.1 r.2).take b.length) with
    | none => rw [readRecord, hof]
    | some p =>
        have := WalRecord.ofBytes_length (show _ = some (p.1, p.2) from hof)
        rw [List.length_take] at this
        omega
  · refine ⟨.shortData, ?_, rfl⟩
    rw [WalFile.recordBytes, hr, List.take_append, WalRecord.bytes_length, List.take_of_length_le (by
      rw [WalRecord.bytes_length]; omega), readRecord, WalRecord.ofBytes_bytes]
    simp only [if_neg htype]
    rw [if_pos (by rw [List.length_take, hlen]; omega)]

/-- Of records that were written up to some byte, those that are all there are read, and the rest is
cut off. -/
theorem scan_torn {rs : List (WalType × Bytes)} (hrs : ∀ r ∈ rs, ShortRecord r) {b : Bytes}
    (hb : b <+: rs.flatMap fun r => WalFile.recordBytes crc r.1 r.2) :
    ∃ rs₁ rest stop, rs₁ <+: rs ∧ b = (rs₁.flatMap fun r => WalFile.recordBytes crc r.1 r.2) ++ rest ∧
      scan (walReader crc) b = ⟨rs₁, rest, stop⟩ ∧ (rest = [] ∨ ∃ why, stop = some why ∧ why.truncates = true) := by
  induction rs generalizing b with
  | nil =>
      obtain rfl := List.prefix_nil.mp hb
      exact ⟨[], [], none, List.prefix_refl _, rfl, rfl, Or.inl rfl⟩
  | cons r rs ih =>
      rw [List.flatMap_cons] at hb
      have hr := hrs r List.mem_cons_self
      by_cases hlt : b.length < (WalFile.recordBytes crc r.1 r.2).length
      · have hb' := List.prefix_of_prefix_length_le hb (List.prefix_append _ _) hlt.le
        by_cases hnil : b = []
        · subst hnil
          exact ⟨[], [], none, List.nil_prefix, rfl, rfl, Or.inl rfl⟩
        · obtain ⟨why, hstop, htrunc⟩ := hr.torn hb' hlt
          exact ⟨[], b, some why, List.nil_prefix, rfl, Framing.scan_stop hnil hstop, Or.inr ⟨why, rfl, htrunc⟩⟩
      · obtain ⟨b', rfl⟩ := List.prefix_of_prefix_length_le (List.prefix_append _ _) hb (by omega)
        obtain ⟨rs₁, rest, stop, hpre, rfl, hscan, hend⟩ := ih (fun r' hr' => hrs r' (List.mem_cons_of_mem _ hr'))
          ((List.prefix_append_right_inj _).mp hb)
        refine ⟨r :: rs₁, rest, stop, List.cons_prefix_cons.mpr ⟨rfl, hpre⟩, ?_, ?_, hend⟩
        · rw [List.flatMap_cons, List.append_assoc]
        · rw [Framing.scan_record (hr.read _), List.drop_left, hscan]
          rfl

/-- The file holds `vs` and a torn part of `ws`: what is read are the whole records. -/
theorem read_torn (hvs : ∀ v ∈ vs, v.Fits mp) (hws : ∀ v ∈ ws, v.Fits mp) {b : Bytes}
    (hlow : itemBytes mp crc vs <+: b) (hhigh : b <+: itemBytes mp crc (vs ++ ws)) (seq ftell : Nat) :
    ∃ pre, pre <+: ws ∧ itemBytes mp crc (vs ++ pre) <+: b ∧ processed crc b = itemRecords mp (vs ++ pre) ∧
      ((WalFile.open_ b seq ftell).afterRead crc).content = itemBytes mp crc (vs ++ pre) ∧
      ((WalFile.open_ b seq ftell).afterRead crc).dataBuffer = [] := by
  obtain ⟨b', rfl⟩ := hlow
  rw [itemBytes_append, List.prefix_append_right_inj, itemBytes_records mp crc ws] at hhigh
  obtain ⟨rs₁, rest, stop, hrs, rfl, hscan, hend⟩ := scan_torn (itemRecords_short hws) hhigh
  have hpre : ∃ pre, pre <+: ws ∧ rs₁ = itemRecords mp pre := by
    refine ⟨ws.take rs₁.length, List.take_prefix _ _, ?_⟩
    rw [List.prefix_iff_eq_take.mp hrs]
    simp only [itemRecords, valueRecords, List.map_take, List.length_take, List.length_map]
    congr 1
    have := hrs.length_le
    simp only [itemRecords, valueRecords, List.length_map] at this
    omega
  obtain ⟨pre, hpre, rfl⟩ := hpre
  rw [← itemBytes_records] at hscan ⊢
  have hreads := Framing.reads_written (R := walReader crc) (itemBytes mp crc pre ++ rest)
    fun r hr more => (itemRecords_short hvs r hr).read more
  rw [← itemBytes_records mp crc vs] at hreads
  have hall : scan (walReader crc) (itemBytes mp crc vs ++ (itemBytes mp crc pre ++ rest)) =
      ⟨itemRecords mp (vs ++ pre), rest, stop⟩ := by
    rw [hreads.scan_eq, hscan, itemRecords_append]
    rfl
  have hwhole : itemBytes mp crc (vs ++ pre) <+: itemBytes mp crc vs ++ (itemBytes mp crc pre ++ rest) := by
    rw [itemBytes_append, ← List.append_assoc]
    exact List.prefix_append _ _
  refine ⟨pre, hpre, hwhole, by rw [processed, hall], ?_⟩
  rw [WalFile.afterRead, WalFile.open_, hall, itemBytes_append]
  rcases hend with rfl | ⟨why, rfl, htrunc⟩
  · simp only [List.append_nil, List.length_nil, Nat.sub_zero, leaveFile]
    split
    · split
      · simp only [WalFile.truncate, List.take_length, and_self]
      · exact ⟨rfl, rfl⟩
    · exact ⟨rfl, rfl⟩
  · simp only [leaveFile, htrunc, if_true, WalFile.truncate, and_true]
    rw [← List.append_assoc, List.length_append, Nat.add_sub_cancel, List.take_left]

/-- What the records amount to for a reader that starts at a snapshot. -/
theorem handleAll_items (start : WalSnapshot) (vs : List WalItem) (h : ∀ v ∈ vs, mp.Restores v.value.2)
    (hagree : ∀ s : WalSnapshot, .snapshot s ∈ vs → s.index = start.index → s.term = start.term) (st : WalReading) :
    ∃ st', handleAll (Wal.handleRecord mp start) (itemRecords mp vs) st = .ok st' ∧
      st'.hs = (vs.flatMap WalItem.states).getLast?.getD st.hs ∧
      st'.ents = (itemEntries vs).foldl (Wal.placeEntry start) st.ents ∧
      (st.matchsnap = true ∨ (∃ s, .snapshot s ∈ vs) → st'.matchsnap = true) := by
  induction vs using List.reverseRecOn with
  | nil => exact ⟨st, rfl, rfl, rfl, fun hm => hm.elim id fun ⟨s, hs⟩ => nomatch hs⟩
  | append_singleton vs v ih =>
      obtain ⟨st₁, hall, hhs, hents, hmatch⟩ := ih (fun v' hv' => h v' (List.mem_append_left _ hv'))
        fun s hs => hagree s (List.mem_append_left _ hs)
      have hrest := h v (by simp)
      have hone : ∀ {st'}, Wal.handleRecord mp start v.value.1 (mp.pack v.value.2) st₁ = .ok st' →
          (Except.ok st₁ : Result _).bind (handleAll (Wal.handleRecord mp start) (itemRecords mp [v])) = .ok st' := by
        intro st' hv
        change handleAll (Wal.handleRecord mp start) [(v.value.1, mp.pack v.value.2)] st₁ = .ok st'
        rw [handleAll, List.foldlM_cons, hv]
        rfl
      rw [itemRecords_append, handleAll_append, hall, List.flatMap_append,
        itemEntries_append, List.foldl_append, ← hents, List.getLast?_append]
      have hkeep : (st.matchsnap = true ∨ ∃ s, WalItem.snapshot s ∈ vs ++ [v]) →
          (st₁.matchsnap = true ∨ ∃ s, v = .snapshot s) := by
        rintro (hm | ⟨s, hs⟩)
        · exact Or.inl (hmatch (Or.inl hm))
        · rcases List.mem_append.mp hs with hs | hs
          · exact Or.inl (hmatch (Or.inr ⟨s, hs⟩))
          · exact Or.inr ⟨s, (List.mem_singleton.mp hs).symm⟩
      cases v with
      | entry e =>
          refine ⟨Wal.handleEntryRecord start e st₁, hone (handleRecord_entry hrest st₁), hhs, rfl, fun hm => ?_⟩
          rcases hkeep hm with hm | ⟨s, hs⟩
          · exact hm
          · cases hs
      | state hs =>
          refine ⟨{ st₁ with hs := hs }, hone (handleRecord_state hrest st₁), rfl, rfl, fun hm => ?_⟩
          rcases hkeep hm with hm | ⟨s, hs⟩
          · exact hm
          · cases hs
      | snapshot s =>
          exact ⟨{ st₁ with matchsnap := true }, hone (handleRecord_snapshot hrest (hagree s (by simp)) st₁), hhs, rfl,
            fun _ => rfl⟩

/-- A process that starts at the snapshot finds the last hard state and the entries behind it, and
goes on behind the last whole record. -/
theorem Replayable.readAll (hmp : mp.Reliable) {t : Nat} (h : Replayable mp x t vs) {b : Bytes} {ftell : Nat}
    (hread : processed crc b = itemRecords mp vs)
    (hcontent : ((WalFile.open_ b 0 ftell).afterRead crc).content = itemBytes mp crc vs)
    (hbuffer : ((WalFile.open_ b 0 ftell).afterRead crc).dataBuffer = []) :
    ∃ w, (Wal.open_ [WalFile.open_ b 0 ftell] { index := x, term := t }).readAll mp crc =
        .ok (w, itemState vs, (view x (itemEntries vs)).map some) ∧ Stored w (itemBytes mp crc vs) [] := by
  have hrest : ∀ v ∈ vs, mp.Restores v.value.2 := fun v hv => (hmp.delimits _ (h.fits v hv).1).restores
  obtain ⟨st, hall, hhs, hents, hmatch⟩ := handleAll_items { index := x, term := t } vs hrest h.same { enti := 0 }
  refine ⟨{ Wal.open_ [WalFile.open_ b 0 ftell] { index := x, term := t } with
    files := [(WalFile.open_ b 0 ftell).afterRead crc], enti := st.enti }, ?_, ⟨_, rfl, hcontent, hbuffer⟩⟩
  have hprocessed : processed crc (WalFile.open_ b 0 ftell).content = itemRecords mp vs := hread
  simp only [Wal.readAll, Wal.open_, Wal.readFiles, readFile_processed, hprocessed, hall,
    hmatch (Or.inr ⟨_, h.base⟩), if_true, bind, Except.bind, hhs, hents]
  rw [← replayEntries_view { index := x, term := t } h.fills]
  rfl

end Reading

/-! ### Writing -/

section Writing
variable {mp : Msgpack} {crc : Bytes → UInt32} {w : Wal} {vs buf : List WalItem}

/-- The records of a hard state with entries. -/
def saveItems (hs : HardState) (ents : List Entry) : List WalItem :=
  ents.map .entry ++ if hs.isEmptyState then [] else [.state hs]

/-- Whatever part of a save is written, a process can start from it. -/
theorem Replayable.saves {x t off : Nat} {es : List Entry} {hs : HardState} (h : Replayable mp x t vs)
    (hfit : ∀ e ∈ es, (WalItem.entry e).Fits mp) (hstate : hs.isEmptyState = false → (WalItem.state hs).Fits mp)
    (hidx : IndexedFrom off es) (hoff : es ≠ [] → itemCommit vs < off) (hle : off ≤ viewEnd x (itemEntries vs) + 1)
    (hcom : hs.isEmptyState = false → itemCommit vs ≤ hs.commit ∧ hs.commit < off + es.length) :
    ∀ pre, pre <+: saveItems hs es → Replayable mp x t (vs ++ pre) := by
  intro pre hpre
  rcases List.prefix_or_prefix_of_prefix hpre (List.prefix_append _ _) with hents | ⟨rest, rfl⟩
  · -- some of the entries
    obtain ⟨es', hes', rfl⟩ : ∃ es', es' <+: es ∧ pre = es'.map .entry :=
      ⟨es.take pre.length, List.take_prefix _ _, by rw [List.map_take, ← List.prefix_iff_eq_take]; exact hents⟩
    refine (h.addEntries (fun e he => hfit e (hes'.subset he)) (hidx.of_initial hes') (fun hne => hoff ?_) hle).1
    rintro rfl
    exact hne (List.prefix_nil.mp hes')
  · obtain ⟨hall, hcommit, hents⟩ := h.addEntries hfit hidx hoff hle
    have hrest := (List.prefix_append_right_inj _).mp hpre
    rw [← List.append_assoc]
    cases hempty : hs.isEmptyState with
    | true =>
        rw [hempty, if_pos rfl] at hrest
        rw [List.prefix_nil.mp hrest, List.append_nil]
        exact hall
    | false =>
        rw [hempty, if_neg (by decide)] at hrest
        rcases List.prefix_concat_iff.mp (show rest <+: [] ++ [WalItem.state hs] from hrest) with rfl | hnil
        · obtain ⟨hge, hlt⟩ := hcom hempty
          refine hall.addState (hstate hempty) (hcommit.trans_le hge) ?_
          rw [hents]
          by_cases hnil : es = []
          · rw [hnil, List.length_nil] at hlt
            rw [hnil, List.append_nil]
            omega
          · have hx : x < off := lt_of_le_of_lt h.ge (hoff hnil)
            rw [viewEnd, view_append hx hidx, if_neg hnil, List.length_append, List.length_take]
            rw [viewEnd] at hle
            omega
        · rw [List.prefix_nil.mp hnil, List.append_nil]
          exact hall

theorem itemCommit_saves (vs : List WalItem) (hs : HardState) (es : List Entry) :
    itemCommit (vs ++ saveItems hs es) = if hs.isEmptyState then itemCommit vs else hs.commit := by
  have hents : itemState (vs ++ es.map .entry) = itemState vs := by
    have hnone : (es.map WalItem.entry).flatMap WalItem.states = [] :=
      List.flatMap_eq_nil_iff.mpr fun v hv => by
        obtain ⟨e, -, rfl⟩ := List.mem_map.mp hv
        rfl
    rw [itemState_append, hnone]
    rfl
  rw [saveItems, ← List.append_assoc]
  split
  · rw [List.append_nil, itemCommit, hents, itemCommit]
  · exact itemCommit_state _ hs

theorem itemEntries_saves (vs : List WalItem) (hs : HardState) (es : List Entry) :
    itemEntries (vs ++ saveItems hs es) = itemEntries vs ++ es := by
  have hents : itemEntries (es.map .entry) = es := by
    rw [itemEntries, List.flatMap_map]
    exact List.flatMap_singleton' es
  rw [itemEntries_append, saveItems, itemEntries_append, hents]
  split
  · exact congrArg _ (List.append_nil es)
  · exact congrArg _ (List.append_nil es)

theorem Stored.items {new : List WalItem}
    (h : Stored w (itemBytes mp crc vs) (itemBytes mp crc buf ++ itemBytes mp crc new)) :
    Stored w (itemBytes mp crc vs) (itemBytes mp crc (buf ++ new)) ∧
      Stored (w.modifyBack WalFile.sync) (itemBytes mp crc (vs ++ buf ++ new)) (itemBytes mp crc []) := by
  have hsync := h.sync
  rw [← itemBytes_append] at h hsync
  rw [← itemBytes_append, ← List.append_assoc] at hsync
  exact ⟨h, hsync⟩

/-- What is saved stands behind everything that was, in the buffer or in the file. -/
theorem Stored.save (h : Stored w (itemBytes mp crc vs) (itemBytes mp crc buf)) (hs : HardState) (ents : List Entry) :
    ∃ vs' buf', vs' ++ buf' = vs ++ buf ++ saveItems hs ents ∧ vs <+: vs' ∧
      Stored (w.save mp crc hs ents) (itemBytes mp crc vs') (itemBytes mp crc buf') ∧ (ents ≠ [] → buf' = []) := by
  obtain ⟨hents, -⟩ := Stored.saveEntries h mp crc ents
  obtain ⟨hall, -⟩ := hents.saveHardState mp crc hs
  have hvalues : valueBytes mp crc (ents.map fun e => (walEntryType, e.toObj)) ++
      valueBytes mp crc (if hs.isEmptyState then [] else [(walStateType, hs.toObj)]) =
      itemBytes mp crc (saveItems hs ents) := by
    rw [saveItems, itemBytes_append, itemBytes, itemBytes, List.map_map]
    congr 1
    split <;> rfl
  rw [List.append_assoc, hvalues] at hall
  obtain ⟨hwaits, hsynced⟩ := hall.items
  unfold Wal.save
  dsimp only
  split_ifs with hnone hsize hsync
  · rw [Bool.and_eq_true, List.isEmpty_iff] at hnone
    refine ⟨vs, buf, ?_, List.prefix_refl _, h, fun hne => absurd hnone.2 hne⟩
    rw [saveItems, hnone.2, if_pos hnone.1, List.map_nil, List.append_nil, List.append_nil]
  · exact ⟨_, [], List.append_nil _, by rw [List.append_assoc]; exact List.prefix_append _ _, hsynced, fun _ => rfl⟩
  · refine ⟨vs, buf ++ saveItems hs ents, (List.append_assoc _ _ _).symm, List.prefix_refl _, hwaits, fun hne => ?_⟩
    refine absurd ?_ hsync
    simp [isMustSync, hne]
  · exact ⟨_, [], List.append_nil _, by rw [List.append_assoc]; exact List.prefix_append _ _, hsynced, fun _ => rfl⟩

theorem Stored.saveSnapshot (h : Stored w (itemBytes mp crc vs) (itemBytes mp crc buf)) (snap : WalSnapshot) :
    Stored (w.saveSnapshot mp crc snap) (itemBytes mp crc (vs ++ buf ++ [.snapshot snap])) (itemBytes mp crc []) := by
  have happ : Stored (w.modifyBack fun f => f.append crc walSnapshotType (mp.pack snap.toObj)) (itemBytes mp crc vs)
      (itemBytes mp crc buf ++ itemBytes mp crc [.snapshot snap]) := Stored.append h mp crc (walSnapshotType, snap.toObj)
  obtain ⟨f, hfile⟩ := happ.file
  unfold Wal.saveSnapshot
  dsimp only
  split_ifs
  · refine (Stored.items ?_).2
    exact ⟨f, hfile⟩
  · exact happ.items.2

theorem Stored.backContent {content buffer : Bytes} (h : Stored w content buffer) : w.backContent = content := by
  obtain ⟨f, hfile, rfl, -⟩ := h.file
  rw [Wal.backContent, hfile]
  rfl

end Writing

end RaftEtcd
