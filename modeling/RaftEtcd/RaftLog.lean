import RaftEtcd.Storage

/-! `raft/unstable.cpp` and `raft/raft_log.cpp`: a log split over the stable storage and the
entries that the next `Ready` still has to hand out. -/
namespace RaftEtcd

structure Unstable where
  snapshot : Option Snapshot := none
  entries : List Entry := []
  offset : Nat

namespace Unstable

def maybeFirstIndex (u : Unstable) : Option Nat := u.snapshot.map fun s => s.metadata.index + 1

def maybeLastIndex (u : Unstable) : Option Nat :=
  if u.entries ≠ [] then some (u.offset + u.entries.length - 1)
  else u.snapshot.map fun s => s.metadata.index

def maybeTerm (u : Unstable) (index : Nat) : Option Nat :=
  if index < u.offset then
    match u.snapshot with
    | none => none
    | some s => if s.metadata.index = index then some s.metadata.term else none
  else
    match u.maybeLastIndex with
    | none => none
    | some last => if index > last then none else (u.entries[index - u.offset]?).map Entry.term

def stableTo (u : Unstable) (index term : Nat) : Unstable :=
  match u.maybeTerm index with
  | none => u
  | some gt =>
      if gt = term ∧ index ≥ u.offset then
        { u with entries := u.entries.drop (index - u.offset + 1), offset := index + 1 }
      else u

def stableSnapTo (u : Unstable) (index : Nat) : Unstable :=
  match u.snapshot with
  | none => u
  | some s => if s.metadata.index = index then { u with snapshot := none } else u

def restore (_u : Unstable) (snapshot : Snapshot) : Unstable :=
  { snapshot := some snapshot, entries := [], offset := snapshot.metadata.index + 1 }

def slice (u : Unstable) (low high : Nat) : Result (List Entry) :=
  if ¬ high > low then .error "assert(high > low)"
  else if low < u.offset ∨ high > u.offset + u.entries.length then
    .error "unstable.slice[%lu,%lu) out of bound [%lu,%lu]"
  else .ok ((u.entries.drop (low - u.offset)).take (high - low))

def truncateAndAppend (u : Unstable) (entries : List Entry) : Result Unstable :=
  match entries with
  | [] => .ok u
  | e :: _ =>
      let after := e.index
      if after = u.entries.length + u.offset then .ok { u with entries := u.entries ++ entries }
      else if after ≤ u.offset then .ok { u with offset := after, entries := entries }
      else do
        let kept ← u.slice u.offset after
        .ok { u with entries := kept ++ entries }

end Unstable

structure RaftLog where
  storage : MemoryStorage
  unstable : Unstable
  committed : Nat
  applied : Nat
  maxNextEntsSize : Nat

namespace RaftLog

/-- The constructor. -/
def new (storage : MemoryStorage) (maxNextEntsSize : Nat) : RaftLog :=
  { storage := storage
    unstable := { offset := storage.lastIndex + 1 }
    committed := storage.firstIndex - 1
    applied := storage.firstIndex - 1
    maxNextEntsSize := maxNextEntsSize }

/-- The whole log: the stored entries below the unstable ones, then these. -/
def log (l : RaftLog) : List Entry :=
  l.storage.ents.take (l.unstable.offset - l.storage.firstIndex) ++ l.unstable.entries

def firstIndex (l : RaftLog) : Nat :=
  match l.unstable.maybeFirstIndex with
  | some i => i
  | none => l.storage.firstIndex

def lastIndex (l : RaftLog) : Nat :=
  match l.unstable.maybeLastIndex with
  | some i => i
  | none => l.storage.lastIndex

/-- An index outside the log has term 0, and that is not an error. -/
def term (l : RaftLog) (index : Nat) : Except Status Nat :=
  if index < l.firstIndex - 1 ∨ index > l.lastIndex then .ok 0
  else
    match l.unstable.maybeTerm index with
    | some t => .ok t
    | none => l.storage.term index

def matchTerm (l : RaftLog) (index t : Nat) : Bool :=
  match l.term index with
  | .ok t' => t == t'
  | .error _ => false

def lastTerm (l : RaftLog) : Result Nat :=
  match l.term l.lastIndex with
  | .ok t => .ok t
  | .error _ => .error "assert(status.is_ok())"

/-- Whether a log that ends at `(lasti, term)` is at least as up to date as this one. -/
def isUpToDate (l : RaftLog) (lasti term : Nat) : Result Bool := do
  let lt ← l.lastTerm
  .ok (term > lt || (term == lt && lasti ≥ l.lastIndex))

def mustCheckOutOfBounds (l : RaftLog) (low high : Nat) : Result Status :=
  if ¬ high ≥ low then .error "assert(high >= low)"
  else if low < l.firstIndex then
    .ok (.invalidArgument "requested index is unavailable due to compaction")
  else if high > l.lastIndex + 1 then .error "slice[%lu,%lu) out of bound [%lu,%lu]"
  else .ok .ok

/-- The unstable half of `slice`. -/
def sliceUnstable (l : RaftLog) (low high maxSize : Nat) (out : List Entry) :
    Result (Status × List Entry) := do
  let out ←
    if high > l.unstable.offset then do
      let es ← l.unstable.slice (max low l.unstable.offset) high
      .ok (out ++ es)
    else .ok out
  .ok (.ok, entryLimitSize maxSize out)

def slice (l : RaftLog) (low high maxSize : Nat) (out : List Entry) :
    Result (Status × List Entry) := do
  let status ← l.mustCheckOutOfBounds low high
  if !status.isOk then .ok (status, out)
  else if low = high then .ok (.ok, out)
  else if low < l.unstable.offset then do
    let (status, out) ← l.storage.entries low (min high l.unstable.offset) maxSize out
    if !status.isOk then .ok (status, out)
    else if out.length < min high l.unstable.offset - low then .ok (.ok, out)
    else l.sliceUnstable low high maxSize out
  else l.sliceUnstable low high maxSize out

def entries (l : RaftLog) (index maxSize : Nat) (out : List Entry) : Result (Status × List Entry) :=
  if index > l.lastIndex then .ok (.ok, out) else l.slice index (l.lastIndex + 1) maxSize out

/-- The index of the first given entry that the log does not hold, or 0. -/
def findConflict (l : RaftLog) : List Entry → Nat
  | [] => 0
  | e :: es => if !l.matchTerm e.index e.term then e.index else l.findConflict es

def append (l : RaftLog) (entries : List Entry) : Result RaftLog :=
  match entries with
  | [] => .ok l
  | e :: _ =>
      if e.index - 1 < l.committed then .error "after(%lu) is out of range [committed(%lu)]\",after ,committed"
      else do
        let unstable ← l.unstable.truncateAndAppend entries
        .ok { l with unstable := unstable }

/-- Never decreases the commit index. -/
def commitTo (l : RaftLog) (toCommit : Nat) : Result RaftLog :=
  if l.committed < toCommit then
    if l.lastIndex < toCommit then
      .error "to_commit(%lu) is out of range [lastIndex(%lu)]. was the raft log corrupted,truncated or lost?"
    else .ok { l with committed := toCommit }
  else .ok l

/-- `none` when the entry before the given ones is not in the log; otherwise the last index
that the given entries cover. -/
def maybeAppend (l : RaftLog) (index logTerm committed : Nat) (entries : List Entry) :
    Result (RaftLog × Option Nat) :=
  if l.matchTerm index logTerm then do
    let lastnewi := index + entries.length
    let ci := l.findConflict entries
    let l ←
      if ci = 0 then .ok l
      else if ci ≤ l.committed then
        .error "entry %lu conflict with committed entry [committed(%lu)]"
      else l.append (entries.drop (ci - (index + 1)))
    let l ← l.commitTo (min committed lastnewi)
    .ok (l, some lastnewi)
  else .ok (l, none)

def nextEntries (l : RaftLog) : Result (List Entry) :=
  let off := max (l.applied + 1) l.firstIndex
  if l.committed + 1 > off then do
    let (status, out) ← l.slice off (l.committed + 1) l.maxNextEntsSize []
    if !status.isOk then .error "unexpected error when getting unapplied entries" else .ok out
  else .ok []

def hasNextEntries (l : RaftLog) : Bool :=
  l.committed + 1 > max (l.applied + 1) l.firstIndex

def maybeCommit (l : RaftLog) (maxIndex term : Nat) : Result (RaftLog × Bool) :=
  if maxIndex > l.committed then
    match l.term maxIndex with
    | .error _ => .error "t is used uninitialised"
    | .ok t =>
        if t = term then do
          let l ← l.commitTo maxIndex
          .ok (l, true)
        else .ok (l, false)
  else .ok (l, false)

def restore (l : RaftLog) (snapshot : Snapshot) : RaftLog :=
  { l with committed := snapshot.metadata.index, unstable := l.unstable.restore snapshot }

def snapshot (l : RaftLog) : Snapshot :=
  match l.unstable.snapshot with
  | some s => s
  | none => l.storage.snapshot

/-- An index out of range is only logged. -/
def appliedTo (l : RaftLog) (index : Nat) : RaftLog :=
  if index = 0 then l else { l with applied := index }

def stableTo (l : RaftLog) (index term : Nat) : RaftLog :=
  { l with unstable := l.unstable.stableTo index term }

def stableSnapTo (l : RaftLog) (index : Nat) : RaftLog :=
  { l with unstable := l.unstable.stableSnapTo index }

end RaftLog

end RaftEtcd
