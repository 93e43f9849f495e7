import RaftEtcd.Proto

/-! `raft/storage.cpp`: the in-memory image of the stable log. The vector `entries_` always
starts with a dummy entry that carries the index and term just below the stored log; it is a
field of its own here, so that an empty vector cannot be built. -/
namespace RaftEtcd

structure MemoryStorage where
  hardState : HardState := {}
  snapshot : Snapshot := {}
  dummy : Entry := {}
  ents : List Entry := []

namespace MemoryStorage

/-- `entries_[1..]` is `ents`, `entries_[0]` the dummy. -/
def all (st : MemoryStorage) : List Entry := st.dummy :: st.ents

def lastIndex (st : MemoryStorage) : Nat := st.dummy.index + st.ents.length

def firstIndex (st : MemoryStorage) : Nat := st.dummy.index + 1

def setHardState (st : MemoryStorage) (hs : HardState) : MemoryStorage := { st with hardState := hs }

/-- Appends the entries of `[low, high)` to the caller's vector and limits the whole of it. -/
def entries (st : MemoryStorage) (low high maxSize : Nat) (out : List Entry) :
    Result (Status × List Entry) :=
  if ¬ low < high then .error "assert(low < high)"
  else if low < st.dummy.index then
    .ok (.invalidArgument "requested index is unavailable due to campaction", out)
  else if high > st.lastIndex + 1 then .error "entries' hi(%lu) is out of bound last_index(%lu)"
  else if st.ents = [] then .ok (.invalidArgument "request entry at index is unavailable", out)
  else
    let i := low - st.dummy.index
    let j := high - st.dummy.index
    .ok (.ok, entryLimitSize maxSize (out ++ (st.all.drop i).take (j - i)))

def term (st : MemoryStorage) (i : Nat) : Except Status Nat :=
  if i < st.dummy.index then
    .error (.invalidArgument "requested index is unavailable due to compaction")
  else
    match st.all[i - st.dummy.index]? with
    | none => .error (.invalidArgument "requested entry at index is unavailable")
    | some e => .ok e.term

def compact (st : MemoryStorage) (compactIndex : Nat) : Result (Status × MemoryStorage) :=
  if compactIndex ≤ st.dummy.index then
    .ok (.invalidArgument "requested idnex is unavailable due to compaction", st)
  else if compactIndex > st.lastIndex then .error "compact %lu is out of lastindex(%lu)"
  else
    let i := compactIndex - st.dummy.index
    match st.all[i]? with
    | none => .error "entries_[i] out of range"
    | some e =>
        .ok (.ok, { st with
          dummy := { st.dummy with index := e.index, term := e.term }
          ents := st.ents.drop i })

/-- Replaces the stored tail from the first given index on. -/
def append (st : MemoryStorage) (entries : List Entry) : Result MemoryStorage :=
  match entries with
  | [] => .ok st
  | e :: _ =>
      let first := st.firstIndex
      if e.index + entries.length - 1 < first then .ok st
      else
        -- entries below the compacted prefix are dropped first
        match entries.drop (first - e.index) with
        | [] => .error "entries[0] out of range"
        | e' :: es =>
            let offset := e'.index - st.dummy.index
            if st.ents.length + 1 ≥ offset then
              .ok { st with ents := st.ents.take (offset - 1) ++ e' :: es }
            else .error "missing log entry [last:%lu,append at:%lu,"

def createSnapshot (st : MemoryStorage) (index : Nat) (cs : Option ConfState) (data : Bytes) :
    Result (Status × Snapshot × MemoryStorage) :=
  if index ≤ st.snapshot.metadata.index then
    .ok (.invalidArgument "request index is older than the existing snapshot", {}, st)
  else if index > st.lastIndex then .error "snaphot %lu is out of bound lastindex(%lu)"
  else if index < st.dummy.index then .error "entries_[index - offset] out of range"
  else
    match st.all[index - st.dummy.index]? with
    | none => .error "entries_[index - offset] out of range"
    | some e =>
        let metadata := { st.snapshot.metadata with index := index, term := e.term }
        let metadata := match cs with
          | none => metadata
          | some cs => { metadata with confState := cs }
        let snapshot : Snapshot := { data := data, metadata := metadata }
        .ok (.ok, snapshot, { st with snapshot := snapshot })

def applySnapshot (st : MemoryStorage) (snapshot : Snapshot) : Status × MemoryStorage :=
  if st.snapshot.metadata.index ≥ snapshot.metadata.index then
    (.invalidArgument "requested index is older than the existing snapshot", st)
  else
    (.ok, { st with
      snapshot := snapshot
      dummy := { term := snapshot.metadata.term, index := snapshot.metadata.index }
      ents := [] })

/-- What `create_snapshot` does: an index up to the last snapshot is refused, one that no element stands for
cannot be looked up, and from another one the term is taken. -/
theorem createSnapshot_cases (st : MemoryStorage) (index : Nat) (cs : Option ConfState) (data : Bytes) :
    (index ≤ st.snapshot.metadata.index ∧ ∃ status, status.isOk = false ∧
        st.createSnapshot index cs data = .ok (status, {}, st)) ∨
      (st.snapshot.metadata.index < index ∧ (st.lastIndex < index ∨ index < st.dummy.index) ∧
        ∃ text, st.createSnapshot index cs data = .error text) ∨
      (st.snapshot.metadata.index < index ∧ st.dummy.index ≤ index ∧ index ≤ st.lastIndex ∧
        ∃ (e : Entry) (snap : Snapshot), st.all[index - st.dummy.index]? = some e ∧ snap.metadata.index = index ∧
          snap.metadata.term = e.term ∧ snap.data = data ∧
          st.createSnapshot index cs data = .ok (.ok, snap, { st with snapshot := snap })) := by
  unfold createSnapshot
  by_cases hold : index ≤ st.snapshot.metadata.index
  · rw [if_pos hold]
    exact Or.inl ⟨hold, _, rfl, rfl⟩
  rw [if_neg hold]
  have hnew := Nat.not_le.mp hold
  by_cases hlast : index > st.lastIndex
  · rw [if_pos hlast]
    exact Or.inr (Or.inl ⟨hnew, Or.inl hlast, _, rfl⟩)
  rw [if_neg hlast]
  by_cases hlow : index < st.dummy.index
  · rw [if_pos hlow]
    exact Or.inr (Or.inl ⟨hnew, Or.inr hlow, _, rfl⟩)
  rw [if_neg hlow]
  have hin : index - st.dummy.index < st.all.length := by
    rw [all, List.length_cons]
    rw [lastIndex] at hlast
    omega
  rw [List.getElem?_eq_getElem hin]
  refine Or.inr (Or.inr ⟨hnew, Nat.not_lt.mp hlow, Nat.not_lt.mp hlast, _, _, rfl, ?_, ?_, rfl, rfl⟩)
  · cases cs <;> rfl
  · cases cs <;> rfl

end MemoryStorage

end RaftEtcd
