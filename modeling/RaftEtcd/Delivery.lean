import RaftEtcd.Cluster
import RaftEtcd.LogicalLog.Stable
import RaftEtcd.NodeRun
import RaftEtcd.Refine.Durable

/-! What the application gets. It takes one `Ready` at a time, stores it and advances; between the
three the node goes on working, so by the time a `Ready` is advanced the log may have changed or be
replaced by a snapshot. -/
namespace RaftEtcd

/-- A node and the application that drives it. -/
structure Driver where
  node : RawNode
  /-- The `Ready` that is not advanced yet, and whether it is stored. -/
  outstanding : Option (Ready × Bool) := none
  /-- Every `Ready` so far, with the log it was made from. -/
  handed : List (RaftLog × Ready) := []

namespace Driver

def log (s : Driver) : RaftLog := s.node.raft.raftLog

def setStorage (s : Driver) (st : MemoryStorage) : Driver :=
  { s with node := { s.node with raft := { s.node.raft with raftLog := { s.log with storage := st } } } }

/-- How far the storage may be compacted: the entries that the application has applied are those
that the node counts as applied and those of a `Ready` that is stored. -/
def MayCompact (s : Driver) (i : Nat) : Prop :=
  i ≤ s.log.applied ∨ ∃ rd, s.outstanding = some (rd, true) ∧ i ≤ rd.appliedCursor

end Driver

/-- A call on the node. Peers number the entries they send and say in which term they lead. -/
def NodeAction.IsCall : NodeAction → Prop
  | .step msg => (msg.type.isFromLeader = true → msg.term ≠ 0) ∧ msg.Numbered
  | .ready | .advance _ | .store _ => False
  | _ => True

inductive Driver.Step : Driver → Driver → Prop
  | call {s : Driver} {a : NodeAction} {n : RawNode} :
      a.IsCall → s.node.run a = .ok n → Step s { s with node := n }
  | ready {s : Driver} {rd : Ready} {n : RawNode} :
      s.outstanding = none → s.node.ready = .ok (rd, n) →
        Step s { node := n, outstanding := some (rd, false), handed := s.handed ++ [(s.log, rd)] }
  | persist {s : Driver} {rd : Ready} {st : MemoryStorage} :
      s.outstanding = some (rd, false) → persist s.log.storage rd = .ok st →
        Step s { s.setStorage st with outstanding := some (rd, true) }
  | advance {s : Driver} {rd : Ready} :
      s.outstanding = some (rd, true) → Step s { s with node := s.node.advance rd, outstanding := none }
  | compact {s : Driver} {i : Nat} {status : Status} {st : MemoryStorage} :
      s.MayCompact i → s.log.storage.compact i = .ok (status, st) → Step s (s.setStorage st)
  | createSnapshot {s : Driver} {i : Nat} {cs : Option ConfState} {data : Bytes} {status : Status}
      {snap : Snapshot} {st : MemoryStorage} :
      s.log.storage.createSnapshot i cs data = .ok (status, snap, st) → Step s (s.setStorage st)

def Driver.Runs : Driver → Driver → Prop := Relation.ReflTransGen Driver.Step

namespace Ready

/-- Where the entries of a `Ready` start for an application that has everything up to `d`. -/
def start (rd : Ready) (d : Nat) : Nat := if rd.snapshot.isEmpty then d else rd.snapshot.metadata.index

def reaches (d : Nat) (rd : Ready) : Nat := rd.start d + rd.committedEntries.length

/-- The entries come right behind what is there; a snapshot jumps ahead of it first. -/
def Continues (rd : Ready) (d : Nat) : Prop :=
  (rd.snapshot.isEmpty = false → d < rd.snapshot.metadata.index) ∧ IndexedFrom (rd.start d + 1) rd.committedEntries

end Ready

/-- Each `Ready` continues where the one before it ended. -/
def Delivers : Nat → List Ready → Prop
  | _, [] => True
  | d, rd :: rds => rd.Continues d ∧ Delivers (rd.reaches d) rds

theorem delivers_append {d : Nat} {rds : List Ready} {rd : Ready} :
    Delivers d (rds ++ [rd]) ↔ Delivers d rds ∧ rd.Continues (rds.foldl Ready.reaches d) := by
  induction rds generalizing d with
  | nil => simp [Delivers]
  | cons rd' rds ih => simp only [List.cons_append, Delivers, ih, List.foldl_cons, and_assoc]

namespace RaftLog
variable {l : RaftLog} {low high : Nat} {es es' : List Entry}

/-- What the storage gives, unless it refuses. -/
theorem entries_cases {st : MemoryStorage} {maxSize : Nat} {out : List Entry} {status : Status}
    (h : st.entries low high maxSize out = .ok (status, es)) : low < high ∧ (status.isOk = false ∧ es = out ∨
      status = .ok ∧ st.dummy.index ≤ low ∧ high ≤ st.lastIndex + 1 ∧ st.ents ≠ [] ∧
        es = entryLimitSize maxSize (out ++ (st.all.drop (low - st.dummy.index)).take
          (high - st.dummy.index - (low - st.dummy.index)))) := by
  unfold MemoryStorage.entries at h
  split at h
  · cases h
  rename_i hlt
  refine ⟨Decidable.not_not.mp hlt, ?_⟩
  split at h
  · obtain ⟨rfl, rfl⟩ := Prod.mk.inj (Except.ok.inj h)
    exact Or.inl ⟨rfl, rfl⟩
  split at h
  · cases h
  split at h
  · obtain ⟨rfl, rfl⟩ := Prod.mk.inj (Except.ok.inj h)
    exact Or.inl ⟨rfl, rfl⟩
  · rename_i hlow hhigh hne
    obtain ⟨rfl, rfl⟩ := Prod.mk.inj (Except.ok.inj h)
    exact Or.inr ⟨rfl, by omega, by omega, hne, rfl⟩

theorem sliceUnstable_cases {maxSize : Nat} {out : List Entry} {status : Status}
    (h : l.sliceUnstable low high maxSize out = .ok (status, es)) :
    l.unstable.offset < high ∧ max low l.unstable.offset < high ∧
        high ≤ l.unstable.offset + l.unstable.entries.length ∧
        es = entryLimitSize maxSize (out ++
          (l.unstable.entries.drop (max low l.unstable.offset - l.unstable.offset)).take
            (high - max low l.unstable.offset)) ∨
      high ≤ l.unstable.offset ∧ es = entryLimitSize maxSize out := by
  unfold sliceUnstable at h
  split at h
  · rename_i hgt
    obtain ⟨piece, hpiece, h⟩ := bind_ok h
    obtain ⟨hlt, -, hend, rfl⟩ := Unstable.slice_cases hpiece
    exact Or.inl ⟨hgt, hlt, hend, (Prod.mk.inj (Except.ok.inj h)).2.symm⟩
  · exact Or.inr ⟨by omega, (Prod.mk.inj (Except.ok.inj h)).2.symm⟩

/-- How a slice that starts with nothing comes about: of the stored entries, of the unstable ones, or of both. -/
inductive Sliced (l : RaftLog) (low high maxSize : Nat) : Status → List Entry → Prop where
  | fails {status : Status} (fails : status.isOk = false) : Sliced l low high maxSize status []
  | nothing (eq : low = high) : Sliced l low high maxSize .ok []
  | stored {es : List Entry} (below : low < l.unstable.offset)
      (read : l.storage.entries low (min high l.unstable.offset) maxSize [] = .ok (.ok, es))
      (short : es.length < min high l.unstable.offset - low) : Sliced l low high maxSize .ok es
  | both {status : Status} {out es : List Entry} (below : low < l.unstable.offset)
      (read : l.storage.entries low (min high l.unstable.offset) maxSize [] = .ok (.ok, out))
      (full : min high l.unstable.offset - low ≤ out.length)
      (rest : l.sliceUnstable low high maxSize out = .ok (status, es)) : Sliced l low high maxSize status es
  | unstable {status : Status} {es : List Entry} (above : l.unstable.offset ≤ low) (lt : low < high)
      (rest : l.sliceUnstable low high maxSize [] = .ok (status, es)) : Sliced l low high maxSize status es

theorem slice_sliced {maxSize : Nat} {status : Status} (h : l.slice low high maxSize [] = .ok (status, es)) :
    low ≤ high ∧ l.Sliced low high maxSize status es := by
  unfold slice at h
  obtain ⟨st, hcheck, h⟩ := bind_ok h
  have hle : low ≤ high := by
    rw [mustCheckOutOfBounds] at hcheck
    split at hcheck
    · cases hcheck
    · omega
  refine ⟨hle, ?_⟩
  split at h
  · rename_i hbad
    obtain ⟨rfl, rfl⟩ := Prod.mk.inj (Except.ok.inj h)
    exact .fails (by simpa using hbad)
  split at h
  · rename_i heq
    obtain ⟨rfl, rfl⟩ := Prod.mk.inj (Except.ok.inj h)
    exact .nothing heq
  rename_i hne
  split at h
  · rename_i hlow
    obtain ⟨⟨st₁, out⟩, hent, h⟩ := bind_ok h
    rcases (entries_cases hent).2 with ⟨hbad, rfl⟩ | ⟨rfl, -⟩
    · simp only [hbad, Bool.not_false, if_true] at h
      obtain ⟨rfl, rfl⟩ := Prod.mk.inj (Except.ok.inj h)
      exact .fails hbad
    · simp only [Status.isOk, Bool.not_true, Bool.false_eq_true, if_false] at h
      split at h
      · rename_i hshort
        obtain ⟨rfl, rfl⟩ := Prod.mk.inj (Except.ok.inj h)
        exact .stored hlow hent hshort
      · rename_i hfull
        exact .both hlow hent (Nat.not_lt.mp hfull) h
  · rename_i hlow
    exact .unstable (Nat.not_lt.mp hlow) (by omega) h

/-- Consecutive entries of the log. -/
structure Piece (l : RaftLog) (low high : Nat) (es : List Entry) : Prop where
  indexed : IndexedFrom low es
  fits : low + es.length ≤ high
  mem : ∀ e ∈ es, e ∈ l.logical.entries

theorem Piece.initial (h : l.Piece low high es) (hp : es' <+: es) : l.Piece low high es' where
  indexed := h.indexed.of_initial hp
  fits := by
    have := hp.length_le
    have := h.fits
    omega
  mem e he := h.mem e (hp.subset he)

theorem Piece.append {mid : Nat} (h : l.Piece low mid es) (h' : l.Piece mid high es') (hend : low + es.length = mid) :
    l.Piece low high (es ++ es') where
  indexed := h.indexed.append (by rw [hend]; exact h'.indexed)
  fits := by
    have := h'.fits
    rw [List.length_append]
    omega
  mem e he := by
    rcases List.mem_append.mp he with he | he
    · exact h.mem e he
    · exact h'.mem e he

section Slices
variable (hst : IndexedFrom (l.storage.dummy.index + 1) l.storage.ents)
  (hu : IndexedFrom l.unstable.offset l.unstable.entries)

include hst in
theorem storedPiece (hd : l.storage.dummy.index < low) (hb : l.logical.index < low) (hle : low ≤ high)
    (hhigh : high ≤ l.unstable.offset) : l.Piece low high
      ((l.storage.all.drop (low - l.storage.dummy.index)).take
        (high - l.storage.dummy.index - (low - l.storage.dummy.index))) := by
  obtain ⟨k, hk⟩ : ∃ k, low - l.storage.dummy.index = k + 1 := ⟨low - l.storage.dummy.index - 1, by omega⟩
  rw [hk, MemoryStorage.all, List.drop_succ_cons]
  have hidx : IndexedFrom low ((l.storage.ents.drop k).take (high - l.storage.dummy.index - (k + 1))) := by
    have := (hst.drop k).take (high - l.storage.dummy.index - (k + 1))
    rwa [show l.storage.dummy.index + 1 + k = low by omega] at this
  refine ⟨hidx, ?_, fun e he => ?_⟩
  · rw [List.length_take]
    omega
  · obtain ⟨j, hj⟩ := List.getElem?_of_mem he
    have hej := hidx j e hj
    rw [List.getElem?_take] at hj
    split at hj
    swap
    · cases hj
    rw [List.getElem?_drop] at hj
    rw [logical_entries, log]
    refine List.mem_filter.mpr ⟨List.mem_append_left _ ?_, by simpa using by omega⟩
    refine List.mem_of_getElem? (i := k + j) ?_
    rw [List.getElem?_take_of_lt (by rw [MemoryStorage.firstIndex]; omega)]
    exact hj

include hu in
theorem unstablePiece (hoff : l.unstable.offset ≤ low) (hb : l.logical.index < low) (hle : low ≤ high) :
    l.Piece low high ((l.unstable.entries.drop (low - l.unstable.offset)).take (high - low)) := by
  have hidx : IndexedFrom low ((l.unstable.entries.drop (low - l.unstable.offset)).take (high - low)) := by
    have := (hu.drop (low - l.unstable.offset)).take (high - low)
    rwa [show l.unstable.offset + (low - l.unstable.offset) = low by omega] at this
  refine ⟨hidx, ?_, fun e he => ?_⟩
  · rw [List.length_take]
    omega
  · obtain ⟨j, hj⟩ := List.getElem?_of_mem he
    have hej := hidx j e hj
    rw [logical_entries, log]
    exact List.mem_filter.mpr ⟨List.mem_append_right _ (List.mem_of_mem_drop (List.mem_of_mem_take he)),
      by simpa using by omega⟩

include hu in
theorem sliceUnstable_piece {maxSize : Nat} {out : List Entry} {status : Status} (hb : l.logical.index < low)
    (hout : l.Piece low (min high (max low l.unstable.offset)) out)
    (hfull : low + out.length = min high (max low l.unstable.offset))
    (h : l.sliceUnstable low high maxSize out = .ok (status, es)) : l.Piece low high es := by
  rcases sliceUnstable_cases h with ⟨hgt, -, -, rfl⟩ | ⟨hle, rfl⟩
  · refine Piece.initial ?_ (entryLimitSize_initial _ _)
    have hmid : min high (max low l.unstable.offset) = max low l.unstable.offset := by omega
    rw [hmid] at hout hfull
    exact hout.append (unstablePiece hu (by omega) (by omega) (by omega)) hfull
  · refine Piece.initial ⟨hout.indexed, ?_, hout.mem⟩ (entryLimitSize_initial _ _)
    omega

include hst hu in
/-- Whatever a slice returns are entries of the log from its lower end on. -/
theorem slice_piece {maxSize : Nat} {status : Status} (hd : l.storage.dummy.index < low)
    (hb : l.logical.index < low) (h : l.slice low high maxSize [] = .ok (status, es)) : l.Piece low high es := by
  obtain ⟨hle, hs⟩ := slice_sliced h
  have hnil : l.Piece low high [] := ⟨.nil _, by simpa using hle, nofun⟩
  have hread : ∀ {out : List Entry}, low < l.unstable.offset →
      l.storage.entries low (min high l.unstable.offset) maxSize [] = .ok (.ok, out) →
      l.Piece low (min high l.unstable.offset) out := by
    intro out hlow hent
    rcases (entries_cases hent).2 with ⟨hbad, -⟩ | ⟨-, -, -, -, rfl⟩
    · cases hbad
    · exact (storedPiece hst hd hb (by omega) (by omega)).initial (entryLimitSize_initial maxSize _)
  cases hs with
  | fails bad => exact hnil
  | nothing eq => exact hnil
  | stored below read short =>
      have hout := hread below read
      have := hout.fits
      exact ⟨hout.indexed, by omega, hout.mem⟩
  | both below read full rest =>
      have hout := hread below read
      have := hout.fits
      have hmin : min high l.unstable.offset = min high (max low l.unstable.offset) := by omega
      refine sliceUnstable_piece hu hb ?_ (by omega) rest
      rw [← hmin]
      exact hout
  | unstable above lt rest =>
      exact sliceUnstable_piece hu hb ⟨.nil _, by simp only [List.length_nil]; omega, nofun⟩
        (by simp only [List.length_nil]; omega) rest

include hst hu in
/-- The next entries to apply are those behind the applied ones and behind the base of the log. -/
theorem nextEntries_piece (hd : l.storage.dummy.index ≤ l.logical.index)
    (hle : max l.applied l.logical.index ≤ l.committed) (h : l.nextEntries = .ok es) :
    l.Piece (max l.applied l.logical.index + 1) (l.committed + 1) es := by
  rw [nextEntries, firstIndex_eq, LogicalLog.firstIndex, Nat.succ_max_succ l.applied l.logical.index] at h
  simp only at h
  split at h
  · obtain ⟨⟨status, out⟩, hslice, h⟩ := bind_ok h
    have hpiece := slice_piece hst hu (by omega) (by omega) hslice
    simp only at h
    split at h
    · cases h
    · obtain rfl := Except.ok.inj h
      exact hpiece
  · obtain rfl := Except.ok.inj h
    exact ⟨.nil _, by simp only [List.length_nil]; omega, fun _ he => absurd he List.not_mem_nil⟩

include hst hu in
/-- No two entries of a log carry the same index. -/
theorem entry_of_mem {e : Entry} (he : e ∈ l.logical.entries) : l.logical.entry e.index = some e := by
  have hpart : ∀ e ∈ l.log, (∃ k, l.storage.ents[k]? = some e ∧ e.index = l.storage.dummy.index + 1 + k ∧
      e.index < l.unstable.offset) ∨
      ∃ k, l.unstable.entries[k]? = some e ∧ e.index = l.unstable.offset + k := by
    intro e he
    rcases List.mem_append.mp he with he | he
    · obtain ⟨k, hk⟩ := List.getElem?_of_mem he
      rw [List.getElem?_take] at hk
      split at hk
      · rename_i hlt
        have := hst k e hk
        rw [MemoryStorage.firstIndex] at hlt
        exact Or.inl ⟨k, hk, this, by omega⟩
      · cases hk
    · obtain ⟨k, hk⟩ := List.getElem?_of_mem he
      exact Or.inr ⟨k, hk, hu k e hk⟩
  rw [LogicalLog.entry]
  cases hfind : l.logical.entries.find? (·.index == e.index) with
  | none => exact absurd (List.find?_eq_none.mp hfind e he) (by simp)
  | some e' =>
      have hidx : e'.index = e.index := by simpa using List.find?_some hfind
      have hmem := List.mem_of_find?_eq_some hfind
      rw [logical_entries] at he hmem
      rcases hpart e (List.mem_of_mem_filter he) with ⟨k, hk, h1, h2⟩ | ⟨k, hk, h1⟩ <;>
        rcases hpart e' (List.mem_of_mem_filter hmem) with ⟨k', hk', h1', h2'⟩ | ⟨k', hk', h1'⟩
      · obtain rfl : k = k' := by omega
        exact hk'.symm.trans hk
      · omega
      · omega
      · obtain rfl : k = k' := by omega
        exact hk'.symm.trans hk

end Slices

theorem entryLimitSize_ne_nil {maxSize : Nat} (h : es ≠ []) : entryLimitSize maxSize es ≠ [] := by
  cases es with
  | nil => exact absurd rfl h
  | cons e es => exact List.cons_ne_nil _ _

theorem sliceUnstable_ne_nil {maxSize : Nat} {out : List Entry} {status : Status}
    (h : l.sliceUnstable low high maxSize out = .ok (status, es))
    (hout : out ≠ [] ∨ l.unstable.offset ≤ low ∧ low < high) : es ≠ [] := by
  rcases sliceUnstable_cases h with ⟨-, hlt, hend, rfl⟩ | ⟨hle, rfl⟩
  · refine entryLimitSize_ne_nil ?_
    rcases hout with hout | ⟨hlow, -⟩
    · exact List.append_ne_nil_of_left_ne_nil hout _
    · refine List.append_ne_nil_of_right_ne_nil _ (List.ne_nil_of_length_pos ?_)
      rw [List.length_take, List.length_drop]
      omega
  · refine entryLimitSize_ne_nil (hout.resolve_right ?_)
    omega

/-- The size limit always lets the first entry through. -/
theorem slice_ne_nil {maxSize : Nat} {status : Status} (hlt : low < high)
    (h : l.slice low high maxSize [] = .ok (status, es)) (hok : status.isOk = true) : es ≠ [] := by
  have hread : ∀ {high : Nat} {out : List Entry}, l.storage.entries low high maxSize [] = .ok (.ok, out) → out ≠ [] := by
    intro high out hent
    obtain ⟨hlt, ⟨hbad, -⟩ | ⟨-, hdummy, hend, hne, rfl⟩⟩ := entries_cases hent
    · cases hbad
    -- the range starts inside the stored entries, so its first entry is there
    refine entryLimitSize_ne_nil (List.append_ne_nil_of_right_ne_nil _ (List.ne_nil_of_length_pos ?_))
    have hall : l.storage.all.length = l.storage.ents.length + 1 := rfl
    have hlast : l.storage.lastIndex = l.storage.dummy.index + l.storage.ents.length := rfl
    rw [List.length_take, List.length_drop]
    omega
  cases (slice_sliced h).2 with
  | fails bad =>
      rw [hok] at bad
      cases bad
  | nothing eq => omega
  | stored below read short => exact hread read
  | both below read full rest => exact sliceUnstable_ne_nil rest (Or.inl (hread read))
  | unstable above lt rest => exact sliceUnstable_ne_nil rest (Or.inr ⟨above, hlt⟩)

/-- `has_next_entries` announces what `next_entries` returns. -/
theorem nextEntries_announced (h : l.nextEntries = .ok es) : es = [] ↔ l.hasNextEntries = false := by
  unfold nextEntries at h
  simp only at h
  unfold hasNextEntries
  split at h
  · rename_i hnext
    obtain ⟨⟨status, out⟩, hslice, h⟩ := bind_ok h
    simp only at h
    split at h
    · cases h
    rename_i hgood
    obtain rfl := Except.ok.inj h
    refine ⟨fun hnil => absurd hnil (slice_ne_nil hnext hslice (by simpa using hgood)), fun hno => ?_⟩
    rw [decide_eq_false_iff_not] at hno
    exact absurd hnext hno
  · rename_i hnone
    obtain rfl := Except.ok.inj h
    simpa using hnone

end RaftLog

/-! ### The storage -/

namespace MemoryStorage
variable {st st' : MemoryStorage}

/-- Appending touches nothing but the entries. -/
theorem append_frame {es : List Entry} (h : st.append es = .ok st') : ∃ ents, st' = { st with ents := ents } := by
  unfold append at h
  split at h
  · exact ⟨_, (Except.ok.inj h).symm⟩
  simp only at h
  split at h
  · exact ⟨_, (Except.ok.inj h).symm⟩
  split at h
  · cases h
  split at h
  · exact ⟨_, (Except.ok.inj h).symm⟩
  · cases h

/-- Entries that reach behind the dummy replace what is stored from their first index on, but for those that
are compacted already; others change nothing. -/
theorem append_cases {i : Nat} {es : List Entry} (hes : IndexedFrom i es) (h : st.append es = .ok st') :
    (es = [] ∨ i + es.length ≤ st.dummy.index + 1) ∧ st' = st ∨
      st.dummy.index + 1 < i + es.length ∧ i - (st.dummy.index + 1) ≤ st.ents.length ∧
        st' = { st with ents := st.ents.take (i - (st.dummy.index + 1)) ++ es.drop (st.dummy.index + 1 - i) } := by
  unfold append at h
  split at h
  · exact Or.inl ⟨Or.inl rfl, (Except.ok.inj h).symm⟩
  rename_i e rest
  have he : e.index = i := hes.cons.1
  simp only [he, firstIndex] at h
  split at h
  · rename_i hlow
    exact Or.inl ⟨Or.inr (by omega), (Except.ok.inj h).symm⟩
  rename_i hhigh
  have hdrop := hes.drop (st.dummy.index + 1 - i)
  split at h
  · cases h
  rename_i e' rest' heq
  rw [heq] at hdrop
  have he' : e'.index = i + (st.dummy.index + 1 - i) := hdrop.cons.1
  have hplace : e'.index - st.dummy.index - 1 = i - (st.dummy.index + 1) := by omega
  split at h
  · refine Or.inr ⟨by omega, by omega, ?_⟩
    rw [heq, ← hplace]
    exact (Except.ok.inj h).symm
  · cases h

/-- Appended entries go where their indexes say. -/
theorem append_numbered {i : Nat} {es : List Entry} (hst : IndexedFrom (st.dummy.index + 1) st.ents)
    (hes : IndexedFrom i es) (h : st.append es = .ok st') :
    st'.dummy = st.dummy ∧ IndexedFrom (st.dummy.index + 1) st'.ents := by
  rcases append_cases hes h with ⟨-, rfl⟩ | ⟨-, hroom, rfl⟩
  · exact ⟨rfl, hst⟩
  · refine ⟨rfl, (hst.take _).append ?_⟩
    rw [List.length_take, show st.dummy.index + 1 + min (i - (st.dummy.index + 1)) st.ents.length =
      i + (st.dummy.index + 1 - i) by omega]
    exact hes.drop _

theorem createSnapshot_keeps {i : Nat} {cs : Option ConfState} {data : Bytes} {status : Status} {snap : Snapshot}
    (h : st.createSnapshot i cs data = .ok (status, snap, st')) : st'.dummy = st.dummy ∧ st'.ents = st.ents := by
  rcases st.createSnapshot_cases i cs data with
    ⟨-, _, -, hold⟩ | ⟨-, -, _, herror⟩ | ⟨-, -, -, _, snap₁, -, -, -, -, hnew⟩
  · obtain ⟨-, hst⟩ := Prod.mk.inj (Prod.mk.inj (Except.ok.inj (hold.symm.trans h))).2
    rw [← hst]
    exact ⟨rfl, rfl⟩
  · cases herror.symm.trans h
  · obtain ⟨-, hst⟩ := Prod.mk.inj (Prod.mk.inj (Except.ok.inj (hnew.symm.trans h))).2
    rw [← hst]
    exact ⟨rfl, rfl⟩

end MemoryStorage

/-- The storage once the snapshot of a `Ready` is in it. -/
def MemoryStorage.withSnapshot (st : MemoryStorage) (snap : Snapshot) : MemoryStorage :=
  if snap.isEmpty then st else (st.applySnapshot snap).2

theorem withSnapshot_cases (st : MemoryStorage) (snap : Snapshot) :
    snap.isEmpty = true ∧ st.withSnapshot snap = st ∨
      snap.isEmpty = false ∧ (snap.metadata.index ≤ st.snapshot.metadata.index ∧ st.withSnapshot snap = st ∨
        st.snapshot.metadata.index < snap.metadata.index ∧ (st.withSnapshot snap).snapshot = snap ∧
          (st.withSnapshot snap).dummy.index = snap.metadata.index ∧ (st.withSnapshot snap).ents = []) := by
  unfold MemoryStorage.withSnapshot
  cases hempty : snap.isEmpty with
  | true => exact Or.inl ⟨rfl, rfl⟩
  | false =>
      refine Or.inr ⟨rfl, ?_⟩
      simp only [Bool.false_eq_true, if_false, MemoryStorage.applySnapshot]
      split
      · rename_i hold
        exact Or.inl ⟨hold, rfl⟩
      · rename_i hnew
        exact Or.inr ⟨Nat.not_le.mp hnew, rfl, rfl, rfl⟩

/-- Storing a `Ready` is storing its snapshot and appending its entries; the hard state is of no interest here. -/
theorem persist_eq (st : MemoryStorage) (rd : Ready) :
    ∃ st₁ : MemoryStorage, st₁.snapshot = (st.withSnapshot rd.snapshot).snapshot ∧
      st₁.dummy = (st.withSnapshot rd.snapshot).dummy ∧ st₁.ents = (st.withSnapshot rd.snapshot).ents ∧
      persist st rd = st₁.append rd.entries := by
  refine ⟨_, ?_, ?_, ?_, rfl⟩ <;> unfold MemoryStorage.withSnapshot MemoryStorage.applySnapshot <;>
    by_cases hhard : rd.hardState.isEmptyState = true <;> by_cases hempty : rd.snapshot.isEmpty = true <;>
    simp only [hhard, hempty, if_true, if_false, Bool.false_eq_true, MemoryStorage.setHardState] <;> split <;> rfl

theorem persist_appends {st st' : MemoryStorage} {rd : Ready} (h : persist st rd = .ok st') :
    ∃ st₁ : MemoryStorage, st₁.snapshot = (st.withSnapshot rd.snapshot).snapshot ∧
      st₁.dummy = (st.withSnapshot rd.snapshot).dummy ∧ st₁.ents = (st.withSnapshot rd.snapshot).ents ∧
      st₁.append rd.entries = .ok st' := by
  obtain ⟨st₁, hsnapshot, hdummy, hents, heq⟩ := persist_eq st rd
  exact ⟨st₁, hsnapshot, hdummy, hents, heq ▸ h⟩

/-- Storing a `Ready` keeps the stored entries numbered, and moves the dummy to its snapshot at most. -/
theorem persist_numbered {st st' : MemoryStorage} {rd : Ready} {i : Nat}
    (hst : IndexedFrom (st.dummy.index + 1) st.ents) (hes : IndexedFrom i rd.entries) (h : persist st rd = .ok st') :
    IndexedFrom (st'.dummy.index + 1) st'.ents ∧
      (st'.dummy.index = st.dummy.index ∨ st'.dummy.index = rd.snapshot.metadata.index ∧ rd.snapshot.isEmpty = false) := by
  obtain ⟨st₁, -, hdummy, hents, happend⟩ := persist_appends h
  have hsnap : IndexedFrom (st₁.dummy.index + 1) st₁.ents ∧
      (st₁.dummy.index = st.dummy.index ∨ st₁.dummy.index = rd.snapshot.metadata.index ∧ rd.snapshot.isEmpty = false) := by
    rw [hdummy, hents]
    rcases withSnapshot_cases st rd.snapshot with ⟨-, hsame⟩ | ⟨hfull, ⟨-, hsame⟩ | ⟨-, -, hat, hnil⟩⟩
    · rw [hsame]
      exact ⟨hst, Or.inl rfl⟩
    · rw [hsame]
      exact ⟨hst, Or.inl rfl⟩
    · rw [hnil]
      exact ⟨.nil _, Or.inr ⟨hat, hfull⟩⟩
  obtain ⟨hd₂, hst₂⟩ := MemoryStorage.append_numbered hsnap.1 hes happend
  rw [hd₂]
  exact ⟨hst₂, hsnap.2⟩

/-! ### What has been delivered -/

/-- How the `Ready` that is out and a pending snapshot relate to what has been delivered. -/
structure Handing (l : RaftLog) (rd : Ready) (d : Nat) : Prop where
  nothing : rd.appliedCursor = 0 → d ≤ max l.applied l.storage.dummy.index ∧ rd.snapshot.isEmpty = true
  cursor : 0 < rd.appliedCursor → rd.appliedCursor = d
  snapshot_le : rd.snapshot.metadata.index ≤ d
  entries : ∃ i, IndexedFrom i rd.entries
  pending : ∀ snap, l.unstable.snapshot = some snap → l.applied < snap.metadata.index ∧
    snap.metadata.index ≤ l.committed ∧ (snap.metadata.index = rd.snapshot.metadata.index ∨ d < snap.metadata.index)

/-- When nothing is out, the log continues where the application stands. -/
structure Waiting (l : RaftLog) (d : Nat) : Prop where
  ahead : d ≤ max l.applied l.storage.dummy.index
  pending : ∀ snap, l.unstable.snapshot = some snap → d < snap.metadata.index ∧ snap.metadata.index ≤ l.committed

/-- The application has everything up to `d`. -/
structure Delivered (s : Driver) (d : Nat) : Prop where
  stored : IndexedFrom (s.log.storage.dummy.index + 1) s.log.storage.ents
  unstable : IndexedFrom s.log.unstable.offset s.log.unstable.entries
  applied_le : s.log.applied ≤ d
  dummy_le : s.log.storage.dummy.index ≤ d
  le_committed : d ≤ s.log.committed
  waiting : s.outstanding = none → Waiting s.log d
  handing : ∀ rd stored, s.outstanding = some (rd, stored) → Handing s.log rd d

variable {s s' : Driver} {d : Nat}

/-- A snapshot that comes in is ahead of everything that has been delivered. -/
theorem Waiting.grows {l l' : RaftLog} (h : Waiting l d) (hg : l.Grows True l') (hd : d ≤ l.committed) :
    Waiting l' d where
  ahead := by
    rw [hg.applied, hg.storage]
    exact h.ahead
  pending snap hs := by
    rcases hg.snapshot with heq | ⟨snap', hs', hlt, hle⟩
    · obtain ⟨h1, h2⟩ := h.pending snap (heq ▸ hs)
      exact ⟨h1, h2.trans hg.committed⟩
    · obtain rfl := Option.some.inj (hs.symm.trans hs')
      exact ⟨by omega, hle⟩

theorem Handing.grows {l l' : RaftLog} {rd : Ready} (h : Handing l rd d) (hg : l.Grows True l')
    (hd : d ≤ l.committed) (ha : l.applied ≤ d) : Handing l' rd d where
  nothing := by
    rw [hg.applied, hg.storage]
    exact h.nothing
  cursor := h.cursor
  snapshot_le := h.snapshot_le
  entries := h.entries
  pending snap hs := by
    rw [hg.applied]
    rcases hg.snapshot with heq | ⟨snap', hs', hlt, hle⟩
    · obtain ⟨h1, h2, h3⟩ := h.pending snap (heq ▸ hs)
      exact ⟨h1, h2.trans hg.committed, h3⟩
    · obtain rfl := Option.some.inj (hs.symm.trans hs')
      exact ⟨by omega, hle, Or.inr (by omega)⟩

/-- Nothing that the node does by itself changes what has been delivered. -/
theorem Delivered.grows {n : RawNode} (h : Delivered s d) (hg : s.log.Grows True n.raft.raftLog) :
    Delivered { s with node := n } d where
  stored := by
    rw [Driver.log, hg.storage]
    exact h.stored
  unstable := hg.indexed trivial h.unstable
  applied_le := by
    rw [Driver.log, hg.applied]
    exact h.applied_le
  dummy_le := by
    rw [Driver.log, hg.storage]
    exact h.dummy_le
  le_committed := h.le_committed.trans hg.committed
  waiting hout := (h.waiting hout).grows hg h.le_committed
  handing rd stored hout := (h.handing rd stored hout).grows hg h.le_committed h.applied_le

/-- Storing something changes only where the stored log starts, and not beyond what has been delivered. -/
theorem Delivered.setStorage (h : Delivered s d) {st : MemoryStorage} {out : Option (Ready × Bool)}
    (hst : IndexedFrom (st.dummy.index + 1) st.ents) (hle : st.dummy.index ≤ d)
    (hkeep : s.log.storage.dummy.index ≤ st.dummy.index ∨
      ∃ rd stored, s.outstanding = some (rd, stored) ∧ rd.appliedCursor ≠ 0)
    (hout : out.map Prod.fst = s.outstanding.map Prod.fst) :
    Delivered { s.setStorage st with outstanding := out } d where
  stored := hst
  unstable := h.unstable
  applied_le := h.applied_le
  dummy_le := hle
  le_committed := h.le_committed
  waiting hnone := by
    simp only at hnone
    rw [hnone, Option.map_none, eq_comm, Option.map_eq_none_iff] at hout
    have hw := h.waiting hout
    refine ⟨?_, hw.pending⟩
    have := hw.ahead
    rcases hkeep with hge | ⟨rd, stored, hsome, -⟩
    · change d ≤ max s.log.applied st.dummy.index
      omega
    · cases hout.symm.trans hsome
  handing rd stored hsome := by
    simp only at hsome
    rw [hsome, Option.map_some, eq_comm, Option.map_eq_some_iff] at hout
    obtain ⟨⟨rd', stored'⟩, hout, rfl⟩ := hout
    have hh := h.handing rd' stored' hout
    refine ⟨fun hzero => ⟨?_, (hh.nothing hzero).2⟩, hh.cursor, hh.snapshot_le, hh.entries, hh.pending⟩
    have := (hh.nothing hzero).1
    rcases hkeep with hge | ⟨rd, stored, hsome', hne⟩
    · change d ≤ max s.log.applied st.dummy.index
      omega
    · obtain ⟨rfl, -⟩ := Prod.mk.inj (Option.some.inj (hout.symm.trans hsome'))
      exact absurd hzero hne

section Calls
variable {n n' : RawNode} {r r' : Raft}

/-- What a call is: in a message of a leader there is its term, and the entries are numbered. -/
inductive Called (n : RawNode) (a : NodeAction) (n' : RawNode) : Prop
  | refuses (same : n' = n)
  | steps (msg : Message) (message : a.message n = some msg) (led : msg.type.isFromLeader = true → msg.term ≠ 0)
      (numbered : msg.Numbered) (r' : Raft) (st : Status) (step : n.raft.step msg = .ok (r', st))
      (node : n' = { n with raft := r' })
  | ticks (r' : Raft) (tick : n.raft.tick = .ok r') (node : n' = { n with raft := r' })
  | configures (cc : ConfChange) (cs : ConfState) (apply : n.applyConfChange cc = .ok (n', cs))

theorem call_called {a : NodeAction} (ha : a.IsCall) (h : n.run a = .ok n') : Called n a n' := by
  cases run_operates h with
  | refuses message same => exact .refuses same
  | steps msg message r' st step node =>
      rcases message_own message with rfl | hown
      · exact .steps msg message ha.1 ha.2 r' st step node
      · refine .steps msg message (fun hty => ?_) (fun hty => ?_) r' st step node
        · rw [hown] at hty
          cases hty
        · rw [hty] at hown
          cases hown
  | ticks action r' tick node => exact .ticks r' tick node
  | configures cc action cs apply => exact .configures cc cs apply
  | readies action rd ready =>
      subst action
      cases ha
  | advances rd action node =>
      subst action
      cases ha
  | stores storage action node =>
      subst action
      cases ha

theorem call_grows {a : NodeAction} (ha : a.IsCall) (h : n.run a = .ok n') :
    n.raft.raftLog.Grows True n'.raft.raftLog := by
  cases call_called ha h with
  | refuses same =>
      rw [same]
      exact .refl _
  | steps msg message led numbered r' st step node =>
      rw [node]
      exact (step_handles led step).log.mono fun _ => numbered
  | ticks r' tick node =>
      rw [node]
      exact (tick_evolves tick).log
  | configures cc cs apply => exact (applyConfChange_advances apply).log

end Calls

/-! ### Ready and advance -/

/-- A log that waits for the application goes on behind what has been delivered, or behind the
snapshot that is pending. -/
theorem Delivered.start_cases (h : Delivered s d) (hout : s.outstanding = none) {snap : Snapshot}
    (hsnap : snap = s.log.unstable.snapshot.getD {}) :
    s.log.storage.dummy.index ≤ s.log.logical.index ∧
      (snap.metadata.index = 0 ∧ s.log.unstable.snapshot = none ∧ max s.log.applied s.log.logical.index = d ∨
        s.log.unstable.snapshot = some snap ∧ max s.log.applied s.log.logical.index = snap.metadata.index ∧
          d < snap.metadata.index ∧ snap.metadata.index ≤ s.log.committed) := by
  have hw := h.waiting hout
  have h1 := h.applied_le
  have h2 := h.dummy_le
  cases hs : s.log.unstable.snapshot with
  | none =>
      have := hw.ahead
      rw [hs] at hsnap
      rw [RaftLog.logical_none hs]
      refine ⟨le_rfl, Or.inl ⟨by rw [hsnap]; rfl, rfl, ?_⟩⟩
      simp only
      omega
  | some snap' =>
      obtain rfl : snap = snap' := by rw [hsnap, hs]; rfl
      obtain ⟨hlt, hle⟩ := hw.pending snap hs
      rw [RaftLog.logical_some hs]
      refine ⟨?_, Or.inr ⟨rfl, ?_, hlt, hle⟩⟩
      · simp only
        omega
      · simp only
        omega

theorem ready_spec {n n' : RawNode} {rd : Ready} (h : n.ready = .ok (rd, n')) :
    n.raft.raftLog.nextEntries = .ok rd.committedEntries ∧ rd.entries = n.raft.raftLog.unstable.entries ∧
      rd.snapshot = n.raft.raftLog.unstable.snapshot.getD {} ∧ n'.raft.raftLog = n.raft.raftLog := by
  have hlog := (ready_keeps h).raftLog
  obtain ⟨rd₁, hrd, h⟩ := bind_ok h
  obtain rfl := (Prod.mk.inj (Except.ok.inj h)).1
  obtain ⟨ces, hces, hrd⟩ := bind_ok hrd
  obtain rfl := Except.ok.inj hrd
  exact ⟨hces, rfl, rfl, hlog⟩

/-- What a `Ready` will be counted as when it is advanced. -/
theorem Ready.cursor_cases {rd : Ready} (hidx : IndexedFrom (rd.start d + 1) rd.committedEntries) :
    rd.appliedCursor = rd.snapshot.metadata.index ∧ rd.reaches d = rd.start d ∨
      0 < rd.appliedCursor ∧ rd.appliedCursor = rd.reaches d := by
  rw [appliedCursor, reaches]
  cases hlast : rd.committedEntries.getLast? with
  | none =>
      have hnil := List.getLast?_eq_none_iff.mp hlast
      exact Or.inl ⟨rfl, by rw [hnil, List.length_nil, Nat.add_zero]⟩
  | some e =>
      rw [List.getLast?_eq_getElem?] at hlast
      have he := hidx _ e hlast
      obtain ⟨hlt, -⟩ := List.getElem?_eq_some_iff.mp hlast
      simp only
      exact Or.inr ⟨by omega, by omega⟩

theorem Delivered.ready (h : Delivered s d) {rd : Ready} {n : RawNode} (hout : s.outstanding = none)
    (hrd : s.node.ready = .ok (rd, n)) :
    rd.Continues d ∧ (∀ e ∈ rd.committedEntries, s.log.logical.entry e.index = some e) ∧
      Delivered { node := n, outstanding := some (rd, false), handed := s.handed ++ [(s.log, rd)] } (rd.reaches d) := by
  obtain ⟨hnext, hents, hsnap, hlog⟩ := ready_spec hrd
  obtain ⟨hd, hcases⟩ := h.start_cases hout hsnap
  have happ := h.applied_le
  have hcom := h.le_committed
  have hdd := h.dummy_le
  have hstart : rd.start d = max s.log.applied s.log.logical.index ∧ d ≤ rd.start d ∧
      rd.snapshot.metadata.index ≤ rd.start d ∧ rd.start d ≤ s.log.committed ∧
      (rd.snapshot.isEmpty = false → d < rd.snapshot.metadata.index) := by
    rw [Ready.start, Snapshot.isEmpty]
    rcases hcases with ⟨h0, -, hmax⟩ | ⟨-, hmax, hlt, hle⟩
    · rw [h0, hmax, if_pos (by rfl)]
      exact ⟨rfl, le_rfl, Nat.zero_le _, hcom, fun hfull => absurd hfull (by decide)⟩
    · rw [if_neg (by rw [beq_iff_eq]; omega), hmax]
      exact ⟨rfl, hlt.le, le_rfl, hle, fun _ => hlt⟩
  obtain ⟨hmax, hge, hsl, hle, hjump⟩ := hstart
  have hpiece := RaftLog.nextEntries_piece h.stored h.unstable hd (hmax ▸ hle) hnext
  rw [← hmax] at hpiece
  have hreach : rd.start d ≤ rd.reaches d ∧ rd.reaches d ≤ s.log.committed := by
    have := hpiece.fits
    rw [Ready.reaches]
    omega
  refine ⟨⟨hjump, hpiece.indexed⟩, fun e he => RaftLog.entry_of_mem h.stored h.unstable (hpiece.mem e he), ?_⟩
  have hnlog : ({ node := n, outstanding := some (rd, false), handed := s.handed ++ [(s.log, rd)] } : Driver).log =
      s.log := hlog
  refine ⟨by rw [hnlog]; exact h.stored, by rw [hnlog]; exact h.unstable, by rw [hnlog]; omega,
    by rw [hnlog]; omega, by rw [hnlog]; exact hreach.2, fun hnone => (by cases hnone), ?_⟩
  rintro rd' stored hrd'
  obtain ⟨rfl, rfl⟩ := Prod.mk.inj (Option.some.inj hrd')
  rw [hnlog]
  have hcursor := Ready.cursor_cases hpiece.indexed
  refine ⟨fun hzero => ?_, fun hpos => ?_, by omega, ⟨_, hents ▸ h.unstable⟩, fun snap hs => ?_⟩
  · have hsnap0 : rd.snapshot.metadata.index = 0 := by omega
    have hahead := (h.waiting hout).ahead
    refine ⟨?_, by rw [Snapshot.isEmpty, hsnap0]; rfl⟩
    rcases hcases with ⟨-, -, hmaxd⟩ | ⟨-, -, hlt, -⟩
    · omega
    · omega
  · rcases hcases with ⟨h0, -, -⟩ | ⟨-, hmaxd, -, -⟩
    · omega
    · omega
  · obtain ⟨h1, h2⟩ := (h.waiting hout).pending snap hs
    rcases hcases with ⟨-, hnone, -⟩ | ⟨hsome, -⟩
    · cases hnone.symm.trans hs
    · obtain rfl := Option.some.inj (hsome.symm.trans hs)
      exact ⟨by omega, h2, Or.inl rfl⟩

/-- What `advance` leaves of the log. -/
theorem advanceLog_leaves {l : RaftLog} (rd : Ready)
    (hs : ∀ snap, l.unstable.snapshot = some snap → snap.metadata.index ≠ 0) :
    (RawNode.advanceLog l rd).storage = l.storage ∧
      (RawNode.advanceLog l rd).applied = (if rd.appliedCursor > 0 then rd.appliedCursor else l.applied) ∧
      (IndexedFrom l.unstable.offset l.unstable.entries →
        IndexedFrom (RawNode.advanceLog l rd).unstable.offset (RawNode.advanceLog l rd).unstable.entries) ∧
      ∀ snap, (RawNode.advanceLog l rd).unstable.snapshot = some snap → l.unstable.snapshot = some snap ∧
        snap.metadata.index ≠ rd.snapshot.metadata.index := by
  rw [RaftLog.advanceLog_eq rd hs]
  have hsnap : ∀ snap, (l.unstable.stableSnapTo rd.snapshot.metadata.index).snapshot = some snap →
      l.unstable.snapshot = some snap ∧ snap.metadata.index ≠ rd.snapshot.metadata.index := by
    intro snap h
    rw [Unstable.stableSnapTo] at h
    cases hsome : l.unstable.snapshot with
    | none =>
        rw [hsome] at h
        simp only at h
        cases hsome.symm.trans h
    | some snap' =>
        rw [hsome] at h
        simp only at h
        split at h
        · cases h
        · obtain rfl := Option.some.inj (hsome.symm.trans h)
          exact ⟨rfl, ‹_›⟩
  have hparts : (l.unstable.stableSnapTo rd.snapshot.metadata.index).offset = l.unstable.offset ∧
      (l.unstable.stableSnapTo rd.snapshot.metadata.index).entries = l.unstable.entries := by
    rw [Unstable.stableSnapTo]
    split
    · exact ⟨rfl, rfl⟩
    · split <;> exact ⟨rfl, rfl⟩
  have happ : (if rd.appliedCursor > 0 then (l.stableSnapTo rd.snapshot.metadata.index).appliedTo rd.appliedCursor
      else l.stableSnapTo rd.snapshot.metadata.index) =
      { l.stableSnapTo rd.snapshot.metadata.index with
        applied := if rd.appliedCursor > 0 then rd.appliedCursor else l.applied } := by
    split
    · rw [RaftLog.appliedTo, if_neg (by omega)]
    · rfl
  simp only
  rw [happ]
  cases rd.entries.getLast? with
  | none => exact ⟨rfl, rfl, fun hi => by simpa [RaftLog.stableSnapTo, hparts] using hi, hsnap⟩
  | some e =>
      refine ⟨rfl, rfl, fun hi => ?_, fun snap h => ?_⟩
      · rw [← hparts.1, ← hparts.2] at hi
        simp only [RaftLog.stableTo, RaftLog.stableSnapTo, RaftLog.stableTo_eq]
        split
        · rename_i htakes
          have := hi.drop (e.index + 1 - (l.unstable.stableSnapTo rd.snapshot.metadata.index).offset)
          rwa [Nat.add_sub_cancel' (by omega)] at this
        · exact hi
      · simp only [RaftLog.stableTo, RaftLog.stableSnapTo, RaftLog.stableTo_eq] at h
        split at h
        · exact hsnap snap h
        · exact hsnap snap h

theorem Delivered.advance (h : Delivered s d) {rd : Ready} (hout : s.outstanding = some (rd, true)) :
    Delivered { s with node := s.node.advance rd, outstanding := none } d := by
  have hh := h.handing rd true hout
  have hne : ∀ snap, s.log.unstable.snapshot = some snap → snap.metadata.index ≠ 0 := by
    intro snap hs
    have := (hh.pending snap hs).1
    omega
  obtain ⟨hstore, happ, hidx, hsnap⟩ := advanceLog_leaves rd hne
  have hcom := advanceLog_committed s.log rd
  have hlog : ({ s with node := s.node.advance rd, outstanding := none } : Driver).log =
      RawNode.advanceLog s.log rd := rfl
  have h1 := h.applied_le
  have h2 := h.dummy_le
  have happlied : (RawNode.advanceLog s.log rd).applied ≤ d ∧
      d ≤ max (RawNode.advanceLog s.log rd).applied s.log.storage.dummy.index := by
    rw [happ]
    split
    · have := hh.cursor (by omega)
      omega
    · have := hh.nothing (by omega)
      omega
  refine ⟨by rw [hlog, hstore]; exact h.stored, by rw [hlog]; exact hidx h.unstable, by rw [hlog]; exact happlied.1,
    by rw [hlog, hstore]; exact h2, by rw [hlog, hcom]; exact h.le_committed, fun _ => ?_, nofun⟩
  rw [hlog]
  refine ⟨by rw [hstore]; exact happlied.2, fun snap hs => ?_⟩
  obtain ⟨hs', hdiff⟩ := hsnap snap hs
  obtain ⟨-, hle, heq | hlt⟩ := hh.pending snap hs'
  · exact absurd heq hdiff
  · exact ⟨hlt, hcom ▸ hle⟩

theorem Delivered.persist (h : Delivered s d) {rd : Ready} {st : MemoryStorage}
    (hout : s.outstanding = some (rd, false)) (hst : RaftEtcd.persist s.log.storage rd = .ok st) :
    Delivered { s.setStorage st with outstanding := some (rd, true) } d := by
  have hh := h.handing rd false hout
  obtain ⟨i, hents⟩ := hh.entries
  obtain ⟨hidx, hd⟩ := persist_numbered h.stored hents hst
  have h1 := h.dummy_le
  have h2 := hh.snapshot_le
  refine h.setStorage hidx (by omega) ?_ (by rw [hout]; rfl)
  rcases hd with heq | ⟨-, hne⟩
  · exact Or.inl heq.ge
  · refine Or.inr ⟨rd, false, hout, fun hzero => ?_⟩
    cases hne.symm.trans (hh.nothing hzero).2

theorem Delivered.compact (h : Delivered s d) {i : Nat} {status : Status} {st : MemoryStorage}
    (hi : s.MayCompact i) (hst : s.log.storage.compact i = .ok (status, st)) : Delivered (s.setStorage st) d := by
  have hid : i ≤ d := by
    rcases hi with hi | ⟨rd, hout, hi⟩
    · exact hi.trans h.applied_le
    · have := (h.handing rd true hout).cursor
      omega
  rcases RaftLog.compact_cases h.stored hst with ⟨-, rfl⟩ | ⟨e, hlt, -, rfl⟩
  · exact h.setStorage h.stored h.dummy_le (Or.inl le_rfl) rfl
  · refine h.setStorage ?_ hid (Or.inl hlt.le) rfl
    have := h.stored.drop (i - s.log.storage.dummy.index)
    rwa [show s.log.storage.dummy.index + 1 + (i - s.log.storage.dummy.index) = i + 1 by omega] at this

/-- Along every run. -/
structure Delivery (d₀ : Nat) (s : Driver) : Prop where
  delivers : Delivers d₀ (s.handed.map Prod.snd)
  logged : ∀ p ∈ s.handed, ∀ e ∈ p.2.committedEntries, p.1.logical.entry e.index = some e
  delivered : Delivered s ((s.handed.map Prod.snd).foldl Ready.reaches d₀)

theorem Delivery.step {d₀ : Nat} (h : Delivery d₀ s) (hstep : Driver.Step s s') : Delivery d₀ s' := by
  obtain ⟨hdel, hlog, hd⟩ := h
  cases hstep with
  | call ha hrun => exact ⟨hdel, hlog, hd.grows (call_grows ha hrun)⟩
  | @ready rd n hout hrd =>
      obtain ⟨hcont, hentry, hd'⟩ := hd.ready hout hrd
      refine ⟨?_, ?_, ?_⟩
      · rw [List.map_append]
        exact delivers_append.mpr ⟨hdel, hcont⟩
      · intro p hp
        rcases List.mem_append.mp hp with hp | hp
        · exact hlog p hp
        · obtain rfl := List.mem_singleton.mp hp
          exact hentry
      · rw [List.map_append, List.foldl_append]
        exact hd'
  | persist hout hst => exact ⟨hdel, hlog, hd.persist hout hst⟩
  | advance hout => exact ⟨hdel, hlog, hd.advance hout⟩
  | compact hi hst => exact ⟨hdel, hlog, hd.compact hi hst⟩
  | createSnapshot hst =>
      obtain ⟨hdummy, hents⟩ := MemoryStorage.createSnapshot_keeps hst
      refine ⟨hdel, hlog, hd.setStorage ?_ ?_ (Or.inl (by rw [hdummy])) rfl⟩
      · rw [hdummy, hents]
        exact hd.stored
      · rw [hdummy]
        exact hd.dummy_le

section Start
variable {c : Config} {r r' : Raft} {n : RawNode}

/-- The log of a node as the constructor leaves it. -/
theorem new_log (h : Raft.new c = .ok r) :
    r.raftLog.storage = c.storage ∧ r.raftLog.unstable = { offset := c.storage.lastIndex + 1 } ∧
      r.raftLog.applied = (if c.applied > 0 then c.applied else c.storage.dummy.index) ∧
      max c.storage.hardState.commit c.storage.dummy.index ≤ r.raftLog.committed ∧
      c.storage.hardState.commit ≤ c.storage.lastIndex := by
  unfold Raft.new at h
  obtain ⟨⟨peers, learners⟩, -, h⟩ := bind_ok h
  obtain ⟨r₁, h₁, h⟩ := bind_ok h
  obtain ⟨r₂, h₂, h⟩ := bind_ok h
  obtain rfl := Except.ok.inj h
  obtain ⟨lprs, lr, rfl, -⟩ := addLearners_spec _ h₁
  have hlog : ∃ com, r₂.raftLog = { RaftLog.new c.storage c.maxCommittedSizePerReady with committed := com } ∧
      max c.storage.hardState.commit c.storage.dummy.index ≤ com ∧
      c.storage.hardState.commit ≤ c.storage.lastIndex := by
    split at h₂
    · unfold Raft.loadState at h₂
      split at h₂
      · cases h₂
      · rename_i hrange
        obtain rfl := Except.ok.inj h₂
        refine ⟨_, rfl, ?_⟩
        simp only [RaftLog.new, MemoryStorage.firstIndex, RaftLog.lastIndex, Unstable.maybeLastIndex, ne_eq,
          not_true_eq_false, if_false, Option.map_none] at hrange
        omega
    · rename_i hempty
      obtain rfl := Except.ok.inj h₂
      have hzero : c.storage.hardState = {} := HardState.eq_of_isEmptyState (by simpa using hempty)
      rw [hzero]
      exact ⟨_, rfl, by simp [MemoryStorage.firstIndex], Nat.zero_le _⟩
  obtain ⟨com, hlog, hcom⟩ := hlog
  simp only [Raft.becomeFollower, Raft.reset_raftLog]
  split
  · simp only [hlog, RaftLog.appliedTo]
    rw [if_neg (by omega)]
    exact ⟨rfl, rfl, rfl, hcom⟩
  · rw [hlog]
    exact ⟨rfl, rfl, rfl, hcom⟩

/-- A log over a storage, with nothing unstable. -/
theorem delivered_of_log (hst : IndexedFrom (c.storage.dummy.index + 1) c.storage.ents)
    (happ : c.applied ≤ max c.storage.hardState.commit c.storage.dummy.index)
    (hstore : n.raft.raftLog.storage = c.storage)
    (hidx : IndexedFrom n.raft.raftLog.unstable.offset n.raft.raftLog.unstable.entries)
    (hsnap : n.raft.raftLog.unstable.snapshot = none)
    (hn : n.raft.raftLog.applied = if c.applied > 0 then c.applied else c.storage.dummy.index)
    (hcom : max c.storage.hardState.commit c.storage.dummy.index ≤ n.raft.raftLog.committed) :
    Delivery (max c.applied c.storage.dummy.index) { node := n } := by
  have hmax : max n.raft.raftLog.applied c.storage.dummy.index = max c.applied c.storage.dummy.index := by
    rw [hn]
    split <;> omega
  refine ⟨trivial, nofun, ?_, hidx, ?_, ?_, ?_, fun _ => ⟨?_, fun snap hs => ?_⟩, nofun⟩
  · rw [Driver.log, hstore]
    exact hst
  · change n.raft.raftLog.applied ≤ max c.applied c.storage.dummy.index
    omega
  · change n.raft.raftLog.storage.dummy.index ≤ max c.applied c.storage.dummy.index
    rw [hstore]
    omega
  · change max c.applied c.storage.dummy.index ≤ n.raft.raftLog.committed
    omega
  · change max c.applied c.storage.dummy.index ≤ max n.raft.raftLog.applied n.raft.raftLog.storage.dummy.index
    rw [hstore]
    omega
  · cases hsnap.symm.trans hs

theorem restartNode_delivery (hst : IndexedFrom (c.storage.dummy.index + 1) c.storage.ents)
    (happ : c.applied ≤ max c.storage.hardState.commit c.storage.dummy.index)
    (h : RawNode.restartNode c = .ok n) : Delivery (max c.applied c.storage.dummy.index) { node := n } := by
  obtain ⟨r, hr, h⟩ := bind_ok h
  obtain rfl := Except.ok.inj h
  obtain ⟨hstore, hun, ha, hcom, hlast⟩ := new_log hr
  refine delivered_of_log hst happ hstore ?_ ?_ ha hcom
  · rw [RawNode.ofRaft, hun]
    exact .nil _
  · rw [RawNode.ofRaft, hun]

theorem addNodes_log (ids : List (Nat × Bytes)) (h : ids.foldlM (fun r peer => r.addNode peer.1) r = .ok r') :
    r'.raftLog = r.raftLog := by
  induction ids generalizing r with
  | nil =>
      obtain rfl := Except.ok.inj h
      rfl
  | cons peer ids ih =>
      rw [List.foldlM_cons] at h
      obtain ⟨r₁, h₁, h⟩ := bind_ok h
      rw [ih h, (addNodeOrLearner_spec h₁).1.raftLog]

theorem bootstrapEntries_indexed (serialize : ConfChange → Bytes) (peers : List (Nat × Bytes)) :
    IndexedFrom 1 (RawNode.bootstrapEntries serialize peers) := by
  intro k e hk
  rw [RawNode.bootstrapEntries, List.getElem?_mapIdx, Option.map_eq_some_iff] at hk
  obtain ⟨peer, -, rfl⟩ := hk
  exact Nat.add_comm k 1

theorem append_snapshot {l l' : RaftLog} {es : List Entry} (h : l.append es = .ok l') :
    l'.unstable.snapshot = l.unstable.snapshot := by
  unfold RaftLog.append at h
  split at h
  · obtain rfl := Except.ok.inj h
    rfl
  · split at h
    · cases h
    · obtain ⟨u, hu, h⟩ := bind_ok h
      obtain rfl := Except.ok.inj h
      exact (RaftLog.truncateAndAppend_spec hu).1

theorem startNode_delivery {serialize : ConfChange → Bytes} {peers : List (Nat × Bytes)}
    (hst : IndexedFrom (c.storage.dummy.index + 1) c.storage.ents)
    (happ : c.applied ≤ max c.storage.hardState.commit c.storage.dummy.index)
    (h : RawNode.startNode serialize c peers = .ok n) :
    Delivery (max c.applied c.storage.dummy.index) { node := n } := by
  obtain ⟨r, hr, h⟩ := bind_ok h
  obtain ⟨hstore, hun, ha, hcom, hlast⟩ := new_log hr
  have hnil : IndexedFrom r.raftLog.unstable.offset r.raftLog.unstable.entries := by
    rw [hun]
    exact .nil _
  simp only at h
  split at h
  · rename_i hzero
    obtain ⟨log, happend, h⟩ := bind_ok h
    obtain ⟨r₁, h₁, h⟩ := bind_ok h
    obtain rfl := Except.ok.inj h
    have hlog := addNodes_log peers h₁
    simp only [Raft.becomeFollower, Raft.reset_raftLog] at happend
    have hgrow := RaftLog.append_grows (W := True)
      (fun _ => ⟨1, le_rfl, bootstrapEntries_indexed serialize peers⟩) happend
    refine delivered_of_log hst happ ?_ ?_ ?_ ?_ ?_ <;> rw [RawNode.ofRaft, hlog]
    · exact hgrow.storage.trans hstore
    · exact hgrow.indexed trivial hnil
    · exact (append_snapshot happend).trans (by rw [hun])
    · exact hgrow.applied.trans ha
    · rw [hzero] at hlast
      rw [MemoryStorage.lastIndex] at hzero
      simp only
      omega
  · obtain rfl := Except.ok.inj h
    refine delivered_of_log hst happ hstore hnil ?_ ha hcom
    rw [RawNode.ofRaft, hun]

theorem started_delivery (hst : IndexedFrom (c.storage.dummy.index + 1) c.storage.ents)
    (happ : c.applied ≤ max c.storage.hardState.commit c.storage.dummy.index)
    (h : RawNode.restartNode c = .ok n ∨ ∃ serialize peers, RawNode.startNode serialize c peers = .ok n) :
    Delivery (max c.applied c.storage.dummy.index) { node := n } := by
  rcases h with h | ⟨serialize, peers, h⟩
  · exact restartNode_delivery hst happ h
  · exact startNode_delivery hst happ h

/-- The first entries of a log without any. -/
theorem append_first {l : RaftLog} {es : List Entry} (hu : l.unstable = { offset := 1 }) (hcom : l.committed = 0)
    (hes : IndexedFrom 1 es) : l.append es = .ok { l with unstable := { offset := 1, entries := es } } := by
  cases es with
  | nil =>
      rw [← hu]
      rfl
  | cons e es =>
      have he : e.index = 1 := hes.cons.1
      simp [RaftLog.append, he, hcom, hu, Unstable.truncateAndAppend, bind, Except.bind]

/-- The log of a node that starts with its peers on an empty storage. -/
theorem startNode_log {c : Config} {r : Raft} {n : RawNode} {serialize : ConfChange → Bytes} {peers : List (Nat × Bytes)}
    (hr : Raft.new c = .ok r) (hlast : c.storage.lastIndex = 0) (hu : r.raftLog.unstable = { offset := 1 })
    (hcom : r.raftLog.committed = 0) (h : RawNode.startNode serialize c peers = .ok n) :
    n.raft.raftLog = { r.raftLog with
      unstable := { offset := 1, entries := RawNode.bootstrapEntries serialize peers }
      committed := peers.length } ∧ n.prevHardState = {} := by
  unfold RawNode.startNode at h
  rw [hr] at h
  simp only [bind, Except.bind, hlast, if_true] at h
  have hlog : (r.becomeFollower 1 0).raftLog = r.raftLog := by simp [Raft.becomeFollower]
  rw [hlog, append_first hu hcom (bootstrapEntries_indexed serialize peers)] at h
  obtain ⟨r₁, h₁, h⟩ := bind_ok h
  obtain rfl := Except.ok.inj h
  refine ⟨?_, rfl⟩
  change r₁.raftLog = _
  rw [addNodes_log peers h₁]
  simp [RawNode.bootstrapEntries]

end Start

/-- A voter that is alone on a fresh storage. -/
def loneVoter : Config := { serverSettings false with id := 1, peers := [1] }

end RaftEtcd
