import Mathlib.Data.Finset.Card
import RaftEtcd.Proto

/-! `raft/progress.cpp` and `raft/readonly.cpp`: what a leader remembers about each peer, and
the read requests it has not answered yet. -/
namespace RaftEtcd

structure InFlights where
  start : Nat := 0
  count : Nat := 0
  size : Nat
  buffer : List Nat := []
  deriving DecidableEq, Repr

namespace InFlights

def new (maxInflightsMsgs : Nat) : InFlights := { size := maxInflightsMsgs % 2 ^ 32 }

/-- The buffer keeps its memory. -/
def reset (w : InFlights) : InFlights := { w with start := 0, count := 0 }

def isFull (w : InFlights) : Bool := w.size == w.count

/-- `std::vector::resize`. -/
def resize (l : List Nat) (n : Nat) : List Nat := (l ++ List.replicate (n - l.length) 0).take n

def add (w : InFlights) (inflight : Nat) : Result InFlights :=
  if w.isFull then .error "cannot add into a full inflights"
  else
    let next := if w.start + w.count ≥ w.size then w.start + w.count - w.size else w.start + w.count
    let buffer :=
      if next ≥ w.buffer.length then
        let newSize := w.buffer.length * 2 % 2 ^ 32
        let newSize := if newSize = 0 then 1 else if newSize > w.size then w.size else newSize
        resize w.buffer newSize
      else w.buffer
    if next < buffer.length then
      .ok { w with buffer := buffer.set next inflight, count := w.count + 1 }
    else .error "buffer[next] out of range"

/-- The scan of `free_to`: from position `idx`, over at most `n` elements, the number of
elements not above `upTo` and the position after them. -/
def freeScan (w : InFlights) (upTo : Nat) : Nat → Nat → Nat → Result (Nat × Nat)
  | 0, i, idx => .ok (i, idx)
  | n + 1, i, idx =>
      match w.buffer[idx]? with
      | none => .error "buffer[idx] out of range"
      | some b =>
          if upTo < b then .ok (i, idx)
          else w.freeScan upTo n (i + 1) (if idx + 1 ≥ w.size then idx + 1 - w.size else idx + 1)

def freeTo (w : InFlights) (upTo : Nat) : Result InFlights :=
  if w.count = 0 then .ok w
  else
    match w.buffer[w.start]? with
    | none => .error "buffer[start] out of range"
    | some b =>
        if upTo < b then .ok w
        else do
          let (i, idx) ← w.freeScan upTo w.count 0 w.start
          let count := w.count - i
          .ok { w with count := count, start := if count = 0 then 0 else idx }

/-- Passes the position `start`, not the element stored there. -/
def freeFirstOne (w : InFlights) : Result InFlights := w.freeTo w.start

end InFlights

inductive ProgressState where
  | probe | replicate | snapshot
  deriving DecidableEq, Repr

/-- The field `match` of the source is `matched` here. -/
structure Progress where
  matched : Nat := 0
  next : Nat := 0
  state : ProgressState := .probe
  paused : Bool := false
  pendingSnapshot : Nat := 0
  recentActive : Bool := false
  inflights : InFlights
  isLearner : Bool := false
  deriving DecidableEq, Repr

namespace Progress

def new (maxInflights : Nat) : Progress := { inflights := .new maxInflights }

def resetState (p : Progress) (state : ProgressState) : Progress :=
  { p with paused := false, pendingSnapshot := 0, state := state, inflights := p.inflights.reset }

def becomeReplicate (p : Progress) : Progress :=
  { p.resetState .replicate with next := p.matched + 1 }

def becomeProbe (p : Progress) : Progress :=
  if p.state = .snapshot then
    { p.resetState .probe with next := max (p.matched + 1) (p.pendingSnapshot + 1) }
  else { p.resetState .probe with next := p.matched + 1 }

def becomeSnapshot (p : Progress) (snapshoti : Nat) : Progress :=
  { p.resetState .snapshot with pendingSnapshot := snapshoti }

def isPaused (p : Progress) : Bool :=
  match p.state with
  | .probe => p.paused
  | .replicate => p.inflights.isFull
  | .snapshot => true

def setPause (p : Progress) : Progress := { p with paused := true }

def resume (p : Progress) : Progress := { p with paused := false }

/-- False for an outdated acknowledgement. -/
def maybeUpdate (p : Progress) (n : Nat) : Progress × Bool :=
  let q := if p.matched < n then { p with matched := n, paused := false } else p
  (if q.next < n + 1 then { q with next := n + 1 } else q, p.matched < n)

def optimisticUpdate (p : Progress) (n : Nat) : Progress := { p with next := n + 1 }

/-- False for a rejection that comes out of order. -/
def maybeDecreasesTo (p : Progress) (rejected last : Nat) : Progress × Bool :=
  if p.state = .replicate then
    if rejected ≤ p.matched then (p, false) else ({ p with next := p.matched + 1 }, true)
  else if p.next - 1 ≠ rejected then (p, false)
  else
    let next := min rejected (last + 1)
    ({ p with next := if next < 1 then 1 else next, paused := false }, true)

def needSnapshotAbort (p : Progress) : Bool :=
  p.state = .snapshot && p.matched ≥ p.pendingSnapshot

def snapshotFailure (p : Progress) : Progress := { p with pendingSnapshot := 0 }

end Progress

inductive ReadOnlyOption where
  | safe | leaseBased
  deriving DecidableEq, Repr

structure ReadState where
  index : Nat
  requestCtx : Bytes
  deriving DecidableEq, Repr

structure ReadIndexStatus where
  req : Message := {}
  index : Nat
  acks : Finset Nat := ∅

structure ReadOnly where
  option : ReadOnlyOption
  pendingReadIndex : AList (fun _ : Bytes => ReadIndexStatus) := ∅
  readIndexQueue : List Bytes := []

namespace ReadOnly

def lastPendingRequestCtx (ro : ReadOnly) : Bytes := ro.readIndexQueue.getLastD []

def recvAck (ro : ReadOnly) (msg : Message) : ReadOnly × Nat :=
  match ro.pendingReadIndex.lookup msg.context with
  | none => (ro, 0)
  | some rs =>
      let rs := { rs with acks := insert msg.from_ rs.acks }
      ({ ro with pendingReadIndex := ro.pendingReadIndex.replace msg.context rs },
        (rs.acks.card + 1) % 2 ^ 32)

/-- The requests of the queue up to `ctx`, and whether `ctx` was met. -/
def collect (ro : ReadOnly) (ctx : Bytes) : List Bytes → Result (List ReadIndexStatus × Bool)
  | [] => .ok ([], false)
  | okctx :: rest =>
      match ro.pendingReadIndex.lookup okctx with
      | none => .error "cannot find corresponding read state from pending map"
      | some rs =>
          if okctx = ctx then .ok ([rs], true)
          else do
            let (rss, found) ← ro.collect ctx rest
            .ok (rs :: rss, found)

/-- Removes the answered requests under the key that their stored message carries. -/
def erasePending (pending : AList (fun _ : Bytes => ReadIndexStatus)) :
    List ReadIndexStatus → Result (AList (fun _ : Bytes => ReadIndexStatus))
  | [] => .ok pending
  | rs :: rss =>
      match rs.req.entries with
      | [] => .error "req.entries[0] out of range"
      | e :: _ => erasePending (pending.erase e.data) rss

def advance (ro : ReadOnly) (msg : Message) : Result (ReadOnly × List ReadIndexStatus) := do
  let (rss, found) ← ro.collect msg.context ro.readIndexQueue
  if found then do
    let pending ← erasePending ro.pendingReadIndex rss
    .ok ({ ro with pendingReadIndex := pending, readIndexQueue := ro.readIndexQueue.drop rss.length },
      rss)
  else .ok (ro, rss)

/-- `Message::operator=` of `proto.h` compares its two sides and assigns nothing, so the
statement `status->req = *msg` leaves the request of the new status default-constructed. -/
def addRequest (ro : ReadOnly) (index : Nat) (msg : Message) : Result ReadOnly :=
  match msg.entries with
  | [] => .error "entries[0] out of range"
  | e :: _ =>
      match ro.pendingReadIndex.lookup e.data with
      | some _ => .ok ro
      | none =>
          .ok { ro with
            pendingReadIndex := ro.pendingReadIndex.insert e.data { index := index }
            readIndexQueue := ro.readIndexQueue ++ [e.data] }

end ReadOnly

end RaftEtcd
