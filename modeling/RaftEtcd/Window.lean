import RaftEtcd.Lib.Ring
import RaftEtcd.Progress

/-! The window of a peer: the ring buffer of `InFlights` holds the last indexes of the messages that
are not acknowledged yet, in the order in which they were sent. It grows up to its size only. -/
namespace RaftEtcd

namespace InFlights
variable {w w' : InFlights} {upTo n i idx : Nat}

/-- The indexes in the window, the oldest first. -/
def sent (w : InFlights) : List Nat := Ring.held w.buffer w.size w.start w.count

/-- The occupied slots are in the buffer, which has wrapped around only if it has its full size. -/
structure Laid (w : InFlights) : Prop where
  buffer_le : w.buffer.length ≤ w.size
  count_le : w.count ≤ w.size
  start : w.start < w.size ∨ w.start = 0 ∧ w.count = 0
  filled : w.start + w.count ≤ w.buffer.length ∨ w.buffer.length = w.size

namespace Laid

theorem slot_lt (h : w.Laid) {k : Nat} (hk : k < w.count) : Ring.slot w.size w.start k < w.buffer.length := by
  have hcount := h.count_le
  have hbuffer := h.buffer_le
  have hstart : w.start < w.size := h.start.resolve_right fun hzero => by omega
  rcases h.filled with hfilled | hfull
  · rw [Ring.slot, if_neg (by omega)]
    omega
  · rw [hfull]
    exact Ring.slot_lt hstart (by omega)

theorem length (h : w.Laid) : w.sent.length = w.count := by
  rcases h.start with hstart | ⟨-, hzero⟩
  · exact Ring.held_length hstart h.count_le fun k hk => h.slot_lt hk
  · rw [sent, hzero]
    rfl

theorem empty (h : w.Laid) : w.sent = [] ↔ w.count = 0 := by
  rw [← List.length_eq_zero_iff, h.length]

theorem new (size : Nat) : (InFlights.new size).Laid where
  buffer_le := Nat.zero_le _
  count_le := Nat.zero_le _
  start := by
    rcases Nat.eq_zero_or_pos (size % 2 ^ 32) with hzero | hpos
    · exact Or.inr ⟨rfl, rfl⟩
    · exact Or.inl hpos
  filled := Or.inl (Nat.zero_le _)

theorem reset (h : w.Laid) : w.reset.Laid where
  buffer_le := h.buffer_le
  count_le := Nat.zero_le _
  start := by
    rcases Nat.eq_zero_or_pos w.size with hzero | hpos
    · exact Or.inr ⟨rfl, rfl⟩
    · exact Or.inl hpos
  filled := Or.inl (Nat.zero_le _)

end Laid

/-- And the size leaves room to be doubled in 32 bits. -/
structure Sound (w : InFlights) : Prop where
  size_le : w.size ≤ 2 ^ 31
  buffer_le : w.buffer.length ≤ w.size
  count_le : w.count ≤ w.size
  start : w.start < w.size ∨ w.start = 0 ∧ w.count = 0
  filled : w.start + w.count ≤ w.buffer.length ∨ w.buffer.length = w.size

theorem Sound.laid (h : w.Sound) : w.Laid := ⟨h.buffer_le, h.count_le, h.start, h.filled⟩

theorem Laid.sound (h : w.Laid) (hsize : w.size ≤ 2 ^ 31) : w.Sound := ⟨hsize, h.buffer_le, h.count_le, h.start, h.filled⟩

theorem Sound.new {size : Nat} (h : size % 2 ^ 32 ≤ 2 ^ 31) : (InFlights.new size).Sound := (Laid.new size).sound h

theorem Sound.reset (h : w.Sound) : w.reset.Sound := h.laid.reset.sound h.size_le

@[simp] theorem reset_sent (w : InFlights) : w.reset.sent = [] := rfl

theorem resize_length (l : List Nat) (n : Nat) : (resize l n).length = n := by
  simp only [resize, List.length_take, List.length_append, List.length_replicate]
  omega

theorem resize_getElem? {l : List Nat} {k : Nat} (hn : l.length ≤ n) (hk : k < l.length) : (resize l n)[k]? = l[k]? := by
  rw [resize, List.getElem?_take_of_lt (by omega), List.getElem?_append_left hk]

/-- The slot behind the last one is taken, in a buffer that may have been enlarged. -/
theorem Laid.push (h : w.Laid) (hcount : w.count < w.size) (buffer : List Nat) (hle : buffer.length ≤ w.size)
    (hkept : ∀ k < w.buffer.length, buffer[k]? = w.buffer[k]?)
    (hin : Ring.slot w.size w.start w.count < buffer.length)
    (hfilled : w.start + (w.count + 1) ≤ buffer.length ∨ buffer.length = w.size) (last : Nat) :
    let w' := { w with buffer := buffer.set (Ring.slot w.size w.start w.count) last, count := w.count + 1 }
    w'.Laid ∧ w'.sent = w.sent ++ [last] := by
  have hstart : w.start < w.size := by
    rcases h.start with hlt | ⟨hzero, -⟩
    · exact hlt
    · omega
  constructor
  · refine ⟨?_, hcount, Or.inl hstart, ?_⟩
    · rw [List.length_set]
      exact hle
    · rw [List.length_set]
      exact hfilled
  · have hpush := Ring.held_push hstart hcount hin last
    refine hpush.trans ?_
    congr 1
    exact Ring.held_congr hstart h.count_le fun k hk => hkept _ (h.slot_lt hk)

/-- When the slot is not in the buffer, the occupied slots fill the buffer and have not wrapped around. -/
theorem Laid.end_of_buffer (h : w.Laid) (hcount : w.count < w.size)
    (hroom : Ring.slot w.size w.start w.count ≥ w.buffer.length) :
    Ring.slot w.size w.start w.count = w.start + w.count ∧ w.start + w.count = w.buffer.length ∧
      w.buffer.length < w.size := by
  have hbuffer := h.buffer_le
  unfold Ring.slot at hroom ⊢
  rcases h.filled with hfilled | heq
  · by_cases hwrap : w.start + w.count ≥ w.size
    · rw [if_pos hwrap] at hroom
      omega
    · rw [if_neg hwrap] at hroom ⊢
      omega
  · rcases h.start with hlt | ⟨hzero, -⟩
    · split at hroom <;> omega
    · split at hroom <;> omega

/-- A message that is added comes last. -/
theorem Laid.add (h : w.Laid) {last : Nat} (hadd : w.add last = .ok w') :
    w.isFull = false ∧ w'.Laid ∧ w'.sent = w.sent ++ [last] ∧ w'.size = w.size := by
  have hbuffer := h.buffer_le
  cases hfull : w.isFull with
  | true =>
      rw [InFlights.add, hfull] at hadd
      cases hadd
  | false =>
      have hcount : w.count < w.size := by
        have hle := h.count_le
        have hne : w.size ≠ w.count := by simpa [isFull] using hfull
        omega
      have hslot : (if w.start + w.count ≥ w.size then w.start + w.count - w.size else w.start + w.count) =
          Ring.slot w.size w.start w.count := rfl
      unfold InFlights.add at hadd
      rw [hfull, if_neg (by decide)] at hadd
      simp only [hslot] at hadd
      by_cases hroom : Ring.slot w.size w.start w.count ≥ w.buffer.length
      · obtain ⟨hnowrap, hend, hlt⟩ := h.end_of_buffer hcount hroom
        rw [if_pos hroom] at hadd
        generalize hsize : (if w.buffer.length * 2 % 2 ^ 32 = 0 then 1
          else if w.buffer.length * 2 % 2 ^ 32 > w.size then w.size else w.buffer.length * 2 % 2 ^ 32) = size' at hadd
        have hle : size' ≤ w.size := by
          rw [← hsize]
          split
          · omega
          split <;> omega
        have hlength := resize_length w.buffer size'
        split at hadd
        · rename_i hin
          rw [hlength] at hin
          obtain ⟨hlaid, hsent⟩ := h.push hcount (resize w.buffer size') (by omega)
            (fun k hk => resize_getElem? (by omega) hk) (by omega) (Or.inl (by omega)) last
          rw [← Except.ok.inj hadd]
          exact ⟨rfl, hlaid, hsent, rfl⟩
        · cases hadd
      · rw [if_neg hroom, if_pos (Nat.not_le.mp hroom)] at hadd
        have hfilled : w.start + (w.count + 1) ≤ w.buffer.length ∨ w.buffer.length = w.size := by
          unfold Ring.slot at hroom
          rcases h.filled with hfilled | heq
          · split at hroom
            · exact Or.inr (by omega)
            · exact Or.inl (by omega)
          · exact Or.inr heq
        obtain ⟨hlaid, hsent⟩ := h.push hcount w.buffer hbuffer (fun _ _ => rfl) (Nat.not_le.mp hroom) hfilled last
        rw [← Except.ok.inj hadd]
        exact ⟨rfl, hlaid, hsent, rfl⟩

/-- As long as the window is not full, another message fits. -/
theorem add_ok (h : w.Sound) (hfull : w.isFull = false) (last : Nat) :
    ∃ w', w.add last = .ok w' ∧ w'.Sound ∧ w'.sent = w.sent ++ [last] ∧ w'.size = w.size := by
  have hsize := h.size_le
  have hcount : w.count < w.size := by
    have hle := h.count_le
    have hne : w.size ≠ w.count := by simpa [isFull] using hfull
    omega
  have hslot : (if w.start + w.count ≥ w.size then w.start + w.count - w.size else w.start + w.count) =
      Ring.slot w.size w.start w.count := rfl
  have hadd : ∃ w', w.add last = .ok w' := by
    unfold add
    rw [hfull, if_neg (by decide)]
    simp only [hslot]
    by_cases hroom : Ring.slot w.size w.start w.count ≥ w.buffer.length
    · obtain ⟨hnowrap, hend, hlt⟩ := h.laid.end_of_buffer hcount hroom
      rw [if_pos hroom, resize_length, if_pos]
      · exact ⟨_, rfl⟩
      split
      · omega
      split
      · omega
      · omega
    · rw [if_neg hroom, if_pos (Nat.not_le.mp hroom)]
      exact ⟨_, rfl⟩
  obtain ⟨w', hadd⟩ := hadd
  obtain ⟨-, hlaid, hsent, hsize'⟩ := h.laid.add hadd
  exact ⟨w', hadd, hlaid.sound (hsize' ▸ hsize), hsent, hsize'⟩

/-- The scan stops at the first index that is not acknowledged. -/
theorem freeScan_ok (hidx : idx < w.size) (hn : n ≤ w.size)
    (hin : ∀ k < n, Ring.slot w.size idx k < w.buffer.length) (upTo i : Nat) :
    ∃ m ≤ n, w.freeScan upTo n i idx = .ok (i + m, Ring.slot w.size idx m) ∧
      Ring.held w.buffer w.size (Ring.slot w.size idx m) (n - m) =
        (Ring.held w.buffer w.size idx n).dropWhile (· ≤ upTo) := by
  induction n generalizing i idx with
  | zero => exact ⟨0, le_rfl, by rw [freeScan, Ring.slot_zero hidx, Nat.add_zero], rfl⟩
  | succ n ih =>
      have hfirst := hin 0 (Nat.succ_pos n)
      rw [Ring.slot_zero hidx] at hfirst
      have hget := List.getElem?_eq_getElem hfirst
      rw [freeScan, Ring.held, hget]
      by_cases hlt : upTo < w.buffer[idx]
      · refine ⟨0, Nat.zero_le _, ?_, ?_⟩
        · rw [Ring.slot_zero hidx]
          simp only [if_pos hlt, Nat.add_zero]
        · rw [Ring.slot_zero hidx, Nat.sub_zero, Ring.held, hget]
          simp [Nat.not_le.mpr hlt]
      · have hnext := Ring.next_lt hidx
        obtain ⟨m, hm, hscan, hheld⟩ := ih hnext (by omega) (fun k hk => by
          rw [Ring.slot_next hidx (by omega)]
          exact hin (k + 1) (by omega)) (i + 1)
        refine ⟨m + 1, by omega, ?_, ?_⟩
        · rw [← Ring.slot_next hidx (by omega), show i + (m + 1) = i + 1 + m by omega, ← hscan]
          simp only [if_neg hlt]
          rfl
        · rw [← Ring.slot_next hidx (by omega), Nat.succ_sub_succ, hheld]
          simp [Nat.not_lt.mp hlt]

/-- An acknowledgement frees the messages up to its index. -/
theorem Laid.freeTo (h : w.Laid) (upTo : Nat) :
    ∃ w', w.freeTo upTo = .ok w' ∧ w'.Laid ∧ w'.sent = w.sent.dropWhile (· ≤ upTo) ∧ w'.size = w.size := by
  unfold InFlights.freeTo
  by_cases hzero : w.count = 0
  · rw [if_pos hzero, h.empty.mpr hzero]
    exact ⟨w, rfl, h, h.empty.mpr hzero, rfl⟩
  rw [if_neg hzero]
  have hstart : w.start < w.size := h.start.resolve_right fun hnone => hzero hnone.2
  have hfirst := h.slot_lt (Nat.pos_of_ne_zero hzero)
  rw [Ring.slot_zero hstart] at hfirst
  obtain ⟨m, hm, hscan, hheld⟩ := freeScan_ok hstart h.count_le (fun k hk => h.slot_lt hk) upTo 0
  rw [List.getElem?_eq_getElem hfirst]
  simp only
  by_cases hlt : upTo < w.buffer[w.start]
  · rw [if_pos hlt]
    refine ⟨w, rfl, h, ?_, rfl⟩
    obtain ⟨count, hcount⟩ := Nat.exists_eq_succ_of_ne_zero hzero
    rw [sent, hcount, Ring.held, List.getElem?_eq_getElem hfirst]
    simp [Nat.not_le.mpr hlt]
  · rw [if_neg hlt, hscan]
    refine ⟨_, rfl, ?_, ?_, rfl⟩
    · have hbuffer := h.buffer_le
      have hcount := h.count_le
      refine ⟨h.buffer_le, by simp only; omega, ?_, ?_⟩
      · simp only
        split
        · exact Or.inl (by omega)
        · exact Or.inl (Ring.slot_lt hstart (by omega))
      · simp only
        split
        · exact Or.inl (by omega)
        · unfold Ring.slot
          rcases h.filled with hfilled | heq
          · split
            · exact Or.inr (by omega)
            · exact Or.inl (by omega)
          · exact Or.inr heq
    · unfold sent
      rw [← hheld, Nat.zero_add]
      by_cases hall : w.count - m = 0
      · simp only [hall, if_true]
        rfl
      · simp only [hall, if_false]

theorem freeTo_ok (h : w.Sound) (upTo : Nat) :
    ∃ w', w.freeTo upTo = .ok w' ∧ w'.Sound ∧ w'.sent = w.sent.dropWhile (· ≤ upTo) ∧ w'.size = w.size := by
  obtain ⟨w', hfree, hlaid, hsent, hsize⟩ := h.laid.freeTo upTo
  exact ⟨w', hfree, hlaid.sound (hsize ▸ h.size_le), hsent, hsize⟩

/-! ### The window as a queue -/

/-- What is done to a window. -/
inductive Op where
  | add (inflight : Nat)
  | freeTo (upTo : Nat)
  | reset

namespace Op

def run (w : InFlights) : Op → Result InFlights
  | add inflight => w.add inflight
  | freeTo upTo => w.freeTo upTo
  | reset => .ok w.reset

/-- What it means for the queue of the indexes in flight. -/
def act (q : List Nat) : Op → List Nat
  | add inflight => q ++ [inflight]
  | freeTo upTo => q.dropWhile (· ≤ upTo)
  | reset => []

end Op

/-- Nothing is added to a queue that is full already. -/
def Fits (size : Nat) (q : List Nat) : List Op → Prop
  | [] => True
  | op :: ops => (∀ inflight, op = .add inflight → q.length < size) ∧ Fits size (op.act q) ops

/-- Read from the start on, around the end of the buffer, the window holds the queue. -/
structure Reads (w : InFlights) (q : List Nat) : Prop where
  count : w.count = q.length
  slots : ∀ k x, q[k]? = some x → w.buffer[(w.start + k) % w.size]? = some x

/-- A window that holds a queue. -/
structure Holds (w : InFlights) (size : Nat) (q : List Nat) : Prop where
  sound : w.Sound
  sent : w.sent = q
  size : w.size = size

namespace Holds
variable {size : Nat} {q : List Nat}

theorem length (h : w.Holds size q) : q.length = w.count := by
  rw [← h.sent, h.sound.laid.length]

theorem isFull_iff (h : w.Holds size q) : w.isFull = true ↔ q.length = size := by
  rw [isFull, beq_iff_eq, h.length, h.size]
  exact eq_comm

theorem reads (h : w.Holds size q) : w.Reads q := by
  refine ⟨h.length.symm, fun k x hk => ?_⟩
  have hcount := h.sound.count_le
  have hlt : k < w.count := by
    rw [← h.length]
    exact (List.getElem?_eq_some_iff.mp hk).1
  have hstart : w.start < w.size := by
    rcases h.sound.start with hlt | ⟨-, hzero⟩
    · exact hlt
    · omega
  have hslot : w.sent[k]? = w.buffer[(w.start + k) % w.size]? := by
    rw [InFlights.sent, Ring.held_getElem? hstart hcount (fun j hj => h.sound.laid.slot_lt hj) hlt,
      Ring.slot_eq_mod hstart (by omega)]
  rw [← hslot, h.sent]
  exact hk

/-- Each operation does to the queue what it is meant to do. -/
theorem step (h : w.Holds size q) {op : Op} (hroom : ∀ inflight, op = .add inflight → q.length < size) :
    ∃ w', op.run w = .ok w' ∧ w'.Holds size (op.act q) := by
  cases op with
  | add inflight =>
      have hfull : w.isFull = false := by
        have hlt := hroom inflight rfl
        cases hfull : w.isFull with
        | false => rfl
        | true =>
            have := h.isFull_iff.mp hfull
            omega
      obtain ⟨w', hadd, hsound, hsent, hsize⟩ := add_ok h.sound hfull inflight
      exact ⟨w', hadd, hsound, by rw [hsent, h.sent]; rfl, hsize.trans h.size⟩
  | freeTo upTo =>
      obtain ⟨w', hfree, hsound, hsent, hsize⟩ := freeTo_ok h.sound upTo
      exact ⟨w', hfree, hsound, by rw [hsent, h.sent]; rfl, hsize.trans h.size⟩
  | reset => exact ⟨w.reset, rfl, h.sound.reset, rfl, h.size⟩

theorem run (h : w.Holds size q) {ops : List Op} (hops : Fits size q ops) :
    ∃ w', ops.foldlM Op.run w = .ok w' ∧ w'.Holds size (ops.foldl Op.act q) := by
  induction ops generalizing w q with
  | nil => exact ⟨w, rfl, h⟩
  | cons op ops ih =>
      obtain ⟨hroom, hops⟩ := hops
      obtain ⟨w₁, hrun, hheld⟩ := h.step hroom
      obtain ⟨w', hrest, hheld'⟩ := ih hheld hops
      refine ⟨w', ?_, hheld'⟩
      rw [List.foldlM_cons, hrun]
      exact hrest

end Holds

end InFlights

/-- Whatever is added, freed and reset, in whatever order, the window is the queue of what is in flight: it
reads as this queue, it is full exactly if the queue is, and no slot outside the buffer is touched. -/
theorem window_is_bounded_queue {size : Nat} (hpos : 1 ≤ size) (hsize : size < 2 ^ 31) {ops : List InFlights.Op}
    (hops : InFlights.Fits size [] ops) :
    ∃ w, ops.foldlM InFlights.Op.run (InFlights.new size) = .ok w ∧ w.Reads (ops.foldl InFlights.Op.act []) ∧
      (w.isFull = true ↔ (ops.foldl InFlights.Op.act []).length = size) ∧
      (ops.foldl InFlights.Op.act []).length ≤ size := by
  have hmod : size % 2 ^ 32 = size := Nat.mod_eq_of_lt (by omega)
  have hnew : (InFlights.new size).Holds size [] := ⟨.new (by omega), rfl, hmod⟩
  obtain ⟨w, hrun, hheld⟩ := hnew.run hops
  refine ⟨w, hrun, hheld.reads, hheld.isFull_iff, ?_⟩
  rw [hheld.length, ← hheld.size]
  exact hheld.sound.count_le

/-- The buffer has grown to two slots when the start moves on, and wraps around once it has all three. -/
theorem window_is_bounded_queue_wrapped :
    ∃ w, [.add 4, .add 6, .freeTo 5, .add 7, .add 9].foldlM InFlights.Op.run (InFlights.new 3) = .ok w ∧
      w.Reads [6, 7, 9] ∧ w.isFull = true := by
  obtain ⟨w, hrun, hreads, hfull, -⟩ := @window_is_bounded_queue 3 (by decide) (by decide)
    [.add 4, .add 6, .freeTo 5, .add 7, .add 9] (by simp [InFlights.Fits, InFlights.Op.act])
  exact ⟨w, hrun, hreads, hfull.mpr rfl⟩

end RaftEtcd
