import RaftEtcd.FlowControl
import RaftEtcd.Indexing
import RaftEtcd.Reign

/-! The messages in flight to a replicating peer: their last indexes increase, lie between what the peer has and
what it gets next, and end right before the latter. -/
namespace RaftEtcd
variable {r r' : Raft} {msg : Message}

section Increasing
variable {l : List Nat} {n : Nat}

theorem lt_of_mem_dropWhile (h : l.Pairwise (· < ·)) : ∀ x ∈ l.dropWhile (· ≤ n), n < x := by
  induction l with
  | nil => simp
  | cons y l ih =>
      by_cases hy : y ≤ n
      · rw [List.dropWhile_cons_of_pos (by simpa using hy)]
        exact ih h.of_cons
      · rw [List.dropWhile_cons_of_neg (by simpa using hy)]
        intro x hx
        rcases List.mem_cons.mp hx with rfl | hx
        · exact Nat.not_le.mp hy
        · exact (Nat.not_le.mp hy).trans (List.rel_of_pairwise_cons h hx)

/-- What is left when the first elements go ends as before. -/
theorem getLast?_dropWhile {p : Nat → Bool} {x : Nat} (h : (l.dropWhile p).getLast? = some x) : l.getLast? = some x := by
  obtain ⟨front, hfront⟩ := List.dropWhile_suffix p (l := l)
  rw [← hfront, List.getLast?_append, h]
  rfl

end Increasing

/-- What a leader keeps between its peer and the window of a peer to which it replicates. -/
structure Progress.Pipelined (p : Progress) : Prop where
  behind : p.matched < p.next
  increasing : p.inflights.sent.Pairwise (· < ·)
  within : ∀ x ∈ p.inflights.sent, p.matched < x ∧ x < p.next
  ends : ∀ x, p.inflights.sent.getLast? = some x → x + 1 = p.next

namespace Progress.Pipelined
variable {p : Progress} {n : Nat}

theorem empty (hsent : p.inflights.sent = []) (hbehind : p.matched < p.next) : p.Pipelined where
  behind := hbehind
  increasing := hsent ▸ List.Pairwise.nil
  within x hx := by
    rw [hsent] at hx
    cases hx
  ends x hx := by
    rw [hsent] at hx
    cases hx

/-- Another message goes out, which ends at `i`. -/
theorem sends (h : p.Pipelined) {w : InFlights} {i : Nat} (hi : p.next ≤ i) (hw : w.sent = p.inflights.sent ++ [i]) :
    Pipelined { p.optimisticUpdate i with inflights := w } where
  behind := by
    have := h.behind
    change p.matched < i + 1
    omega
  increasing := by
    simp only [hw]
    refine List.pairwise_append.mpr ⟨h.increasing, List.pairwise_singleton _ _, fun x hx y hy => ?_⟩
    have := (h.within x hx).2
    rw [List.mem_singleton.mp hy]
    omega
  within x hx := by
    have hbehind := h.behind
    simp only [hw, Progress.optimisticUpdate] at hx ⊢
    rcases List.mem_append.mp hx with hx | hx
    · have := h.within x hx
      omega
    · rw [List.mem_singleton.mp hx]
      omega
  ends x hx := by
    simp only [hw, Progress.optimisticUpdate, List.getLast?_concat] at hx ⊢
    rw [Option.some.inj hx]

/-- The oldest messages leave the window, and what the peer has moves up to those at most. -/
theorem frees (h : p.Pipelined) {w : InFlights} {matched next upTo : Nat} (hw : w.sent = p.inflights.sent.dropWhile (· ≤ upTo))
    (hmatched : matched ≤ max p.matched upTo) (hbehind : matched < next) (hnext : next = max p.next (matched + 1)) :
    Pipelined { p with matched := matched, next := next, inflights := w } where
  behind := hbehind
  increasing := by
    simp only [hw]
    exact h.increasing.sublist (List.dropWhile_sublist _)
  within x hx := by
    simp only [hw] at hx ⊢
    have hold := h.within x ((List.dropWhile_sublist _).subset hx)
    have hfreed := lt_of_mem_dropWhile h.increasing x hx
    omega
  ends x hx := by
    simp only [hw] at hx ⊢
    have hlast := h.ends x (getLast?_dropWhile hx)
    have hmem := List.mem_of_getLast? hx
    have hfreed := lt_of_mem_dropWhile h.increasing x hmem
    have := (h.within x ((List.dropWhile_sublist _).subset hmem)).1
    omega

end Progress.Pipelined

/-- A window as the leader has made it, with the messages in order while it replicates. -/
structure Progress.Paced (size : Nat) (p : Progress) : Prop where
  laid : p.inflights.Laid
  size_eq : p.inflights.size = size % 2 ^ 32
  pipelined : p.state = .replicate → p.Pipelined

/-- An acknowledgement moves both indexes up. -/
theorem Progress.maybeUpdate_eq (p : Progress) (n : Nat) : p.maybeUpdate n =
    ({ p with matched := max p.matched n, next := max p.next (n + 1), paused := if p.matched < n then false else p.paused },
      decide (p.matched < n)) := by
  have hnext : ∀ next, (if next < n + 1 then n + 1 else next) = max next (n + 1) := by
    intro next
    split <;> omega
  unfold Progress.maybeUpdate
  by_cases hlt : p.matched < n
  · simp only [if_pos hlt, max_eq_right hlt.le, ← hnext]
    split
    · rfl
    · rfl
  · simp only [if_neg hlt, max_eq_left (Nat.not_lt.mp hlt), ← hnext]
    split
    · rfl
    · rfl

/-- A rejection moves the next index alone. -/
theorem Progress.maybeDecreasesTo_same (p : Progress) (rejected hint : Nat) :
    (p.maybeDecreasesTo rejected hint).1.matched = p.matched ∧ (p.maybeDecreasesTo rejected hint).1.inflights = p.inflights := by
  unfold Progress.maybeDecreasesTo
  split
  · split <;> exact ⟨rfl, rfl⟩
  · split <;> exact ⟨rfl, rfl⟩

namespace Progress.Paced
variable {size : Nat} {p p' : Progress}

theorem of_idle (hlaid : p.inflights.Laid) (hsize : p.inflights.size = size % 2 ^ 32) (hstate : p.state ≠ .replicate) :
    p.Paced size := ⟨hlaid, hsize, fun h => absurd h hstate⟩

theorem probes (hlaid : p.inflights.Laid) (hsize : p.inflights.size = size % 2 ^ 32) : p.becomeProbe.Paced size := by
  unfold Progress.becomeProbe
  split
  · exact .of_idle hlaid.reset hsize nofun
  · exact .of_idle hlaid.reset hsize nofun

theorem becomeProbe (h : p.Paced size) : p.becomeProbe.Paced size := probes h.laid h.size_eq

theorem becomeReplicate (h : p.Paced size) : p.becomeReplicate.Paced size where
  laid := h.laid.reset
  size_eq := h.size_eq
  pipelined _ := .empty rfl (Nat.lt_succ_self _)

theorem flags (h : p.Paced size) (active learner paused : Bool) (pending : Nat) :
    Paced size { p with recentActive := active, isLearner := learner, paused := paused, pendingSnapshot := pending } where
  laid := h.laid
  size_eq := h.size_eq
  pipelined hstate := ⟨(h.pipelined hstate).behind, (h.pipelined hstate).increasing, (h.pipelined hstate).within,
    (h.pipelined hstate).ends⟩

/-- The window is freed up to some index, and the peer may be known to have more. -/
theorem frees (h : p.Paced size) (hstate : p.state = .replicate) (upTo : Nat) (paused : Bool) {matched : Nat}
    (hmatched : matched ≤ max p.matched upTo) : ∃ w, p.inflights.freeTo upTo = .ok w ∧
      Paced size { p with matched := matched, next := max p.next (matched + 1), paused := paused, inflights := w } := by
  obtain ⟨w, hfree, hlaid, hsent, hsize⟩ := h.laid.freeTo upTo
  refine ⟨w, hfree, hlaid, hsize.trans h.size_eq, fun _ => ?_⟩
  have hfreed := (h.pipelined hstate).frees hsent hmatched (Nat.lt_of_lt_of_le (Nat.lt_succ_self _) (le_max_right _ _)) rfl
  exact ⟨hfreed.behind, hfreed.increasing, hfreed.within, hfreed.ends⟩

theorem acks (h : p.Paced size) {n : Nat} (hnews : p.matched < n)
    (hack : Raft.progressAfterAck (p.maybeUpdate n).1 n = .ok p') : p'.Paced size := by
  rw [Progress.maybeUpdate_eq] at hack
  simp only [if_pos hnews, max_eq_right hnews.le] at hack
  unfold Raft.progressAfterAck at hack
  simp only at hack
  split at hack
  · rw [← Except.ok.inj hack]
    exact ⟨h.laid.reset, h.size_eq, fun _ => .empty rfl (Nat.lt_succ_self _)⟩
  split at hack
  · rw [← Except.ok.inj hack]
    exact probes h.laid h.size_eq
  split at hack
  · rename_i hstate
    obtain ⟨w, hfree, hpaced⟩ := h.frees hstate n false (le_max_right p.matched n)
    rw [hfree] at hack
    rwa [← Except.ok.inj hack]
  · rename_i hstate
    rw [← Except.ok.inj hack]
    exact .of_idle h.laid h.size_eq hstate

theorem beats (h : p.Paced size) (hbeat : Raft.progressAfterBeat p = .ok p') : p'.Paced size := by
  unfold Raft.progressAfterBeat at hbeat
  simp only at hbeat
  split at hbeat
  · rename_i hfull
    obtain ⟨w, hfree, hpaced⟩ := h.frees hfull.1 p.inflights.start false (le_max_left _ _)
    have hfirst : Progress.inflights (Progress.resume { p with recentActive := true }) = p.inflights := rfl
    rw [hfirst, InFlights.freeFirstOne, hfree] at hbeat
    rw [← Except.ok.inj hbeat]
    have hnext : max p.next (p.matched + 1) = p.next := max_eq_left (h.pipelined hfull.1).behind
    rw [hnext] at hpaced
    exact hpaced.flags true p.isLearner false p.pendingSnapshot
  · rw [← Except.ok.inj hbeat]
    exact h.flags true p.isLearner false p.pendingSnapshot

/-- A rejection ends the pipeline, or comes while there is none. -/
theorem rejects (h : p.Paced size) (rejected hint : Nat) :
    (if (p.maybeDecreasesTo rejected hint).1.state = .replicate then (p.maybeDecreasesTo rejected hint).1.becomeProbe
      else (p.maybeDecreasesTo rejected hint).1).Paced size := by
  have hsame := (p.maybeDecreasesTo_same rejected hint).2
  have hlaid : (p.maybeDecreasesTo rejected hint).1.inflights.Laid := hsame ▸ h.laid
  have hsize : (p.maybeDecreasesTo rejected hint).1.inflights.size = size % 2 ^ 32 := hsame ▸ h.size_eq
  split
  · exact probes hlaid hsize
  · rename_i hstate
    exact .of_idle hlaid hsize hstate

/-- Whatever the leader hears from the peer. -/
theorem hear (h : p.Paced size) (hheard : p.hear msg = .ok p') : p'.Paced size := by
  unfold Progress.hear at hheard
  split at hheard
  · have hactive : Paced size { p with recentActive := true } := h.flags true p.isLearner p.paused p.pendingSnapshot
    simp only at hheard
    generalize ({ p with recentActive := true } : Progress) = q at hactive hheard
    split at hheard
    · have hrejected := hactive.rejects msg.index msg.rejectHint
      split at hheard
      · rwa [← Except.ok.inj hheard]
      · rename_i q' hq'
        rw [hq'] at hrejected
        rwa [← Except.ok.inj hheard]
    · split at hheard
      · rename_i q' hq'
        rw [Progress.maybeUpdate_eq] at hq'
        obtain ⟨hq, hold⟩ := Prod.mk.inj hq'
        have hold : ¬ q.matched < msg.index := by simpa using hold
        rw [← Except.ok.inj hheard, ← hq, if_neg hold, max_eq_left (Nat.not_lt.mp hold)]
        refine ⟨hactive.laid, hactive.size_eq, fun hstate => ?_⟩
        have hpipe := hactive.pipelined hstate
        have hnext : max q.next (msg.index + 1) = q.next := max_eq_left (by have := hpipe.behind; omega)
        exact ⟨by simp only [hnext]; exact hpipe.behind, hpipe.increasing, by simp only [hnext]; exact hpipe.within,
          by simp only [hnext]; exact hpipe.ends⟩
      · rename_i q' hq'
        have hnews := congrArg Prod.snd hq'
        rw [Progress.maybeUpdate_eq] at hnews
        refine hactive.acks (by simpa using hnews) ?_
        rw [hq']
        exact hheard
  · exact h.beats hheard
  · rw [← Except.ok.inj hheard]
    split
    · exact h
    split
    · exact h.becomeProbe.flags _ _ true _
    · have hfailed : p.snapshotFailure.Paced size := h.flags p.recentActive p.isLearner p.paused 0
      exact hfailed.becomeProbe.flags _ _ true _
  · rw [← Except.ok.inj hheard]
    split
    · exact h.becomeProbe
    · exact h
  · rwa [← Except.ok.inj hheard]

/-- Entries go out, from the next index on. -/
theorem posts (h : p.Paced size) {i : Nat} (hi : p.next ≤ i) (hsent : Raft.progressAfterSend p i = .ok p') : p'.Paced size := by
  unfold Raft.progressAfterSend at hsent
  split at hsent
  · rename_i hstate
    obtain ⟨w, hadd, hsent⟩ := bind_ok hsent
    obtain ⟨-, hlaid, hw, hsize⟩ := h.laid.add hadd
    rw [← Except.ok.inj hsent]
    exact ⟨hlaid, hsize.trans h.size_eq, fun _ => (h.pipelined hstate).sends hi hw⟩
  · rw [← Except.ok.inj hsent]
    exact h.flags p.recentActive p.isLearner true p.pendingSnapshot
  · cases hsent

end Progress.Paced

namespace Progress
variable {p p' : Progress}

/-- What the leader hears of a peer never takes back what the peer is known to have, and only takes the oldest
messages out of the window. -/
theorem hear_suffix (h : p.inflights.Laid) (hheard : p.hear msg = .ok p') :
    p.matched ≤ p'.matched ∧ p'.inflights.sent <:+ p.inflights.sent := by
  have hprobe : ∀ q : Progress, q.becomeProbe.matched = q.matched ∧ q.becomeProbe.inflights.sent = [] := by
    intro q
    unfold Progress.becomeProbe
    split <;> exact ⟨rfl, rfl⟩
  have hfree : ∀ {upTo : Nat} {w : InFlights}, p.inflights.freeTo upTo = .ok w → w.sent <:+ p.inflights.sent := by
    intro upTo w hw
    obtain ⟨w', hw', -, hsent, -⟩ := h.freeTo upTo
    obtain rfl := Except.ok.inj (hw.symm.trans hw')
    rw [hsent]
    exact List.dropWhile_suffix _
  unfold Progress.hear at hheard
  split at hheard
  · simp only at hheard
    split at hheard
    · have hsame := Progress.maybeDecreasesTo_same { p with recentActive := true } msg.index msg.rejectHint
      split at hheard
      · rw [← Except.ok.inj hheard]
        exact ⟨le_rfl, List.suffix_rfl⟩
      · rename_i q hq
        rw [hq] at hsame
        rw [← Except.ok.inj hheard]
        split
        · rw [(hprobe q).1, (hprobe q).2]
          exact ⟨hsame.1.ge, List.nil_suffix⟩
        · exact ⟨hsame.1.ge, by rw [hsame.2]⟩
    · rw [Progress.maybeUpdate_eq] at hheard
      split at hheard
      · rename_i q hq
        rw [← Except.ok.inj hheard, ← (Prod.mk.inj hq).1]
        exact ⟨le_max_left _ _, List.suffix_rfl⟩
      · rename_i q hq
        have hmatched : p.matched ≤ q.matched := by
          rw [← (Prod.mk.inj hq).1]
          exact le_max_left _ _
        have hw : q.inflights = p.inflights := by
          rw [← (Prod.mk.inj hq).1]
        unfold Raft.progressAfterAck at hheard
        split at hheard
        · rw [← Except.ok.inj hheard]
          exact ⟨hmatched, List.nil_suffix⟩
        split at hheard
        · rw [← Except.ok.inj hheard, (hprobe q).1, (hprobe q).2]
          exact ⟨hmatched, List.nil_suffix⟩
        split at hheard
        · obtain ⟨w, hfreed, hheard⟩ := bind_ok hheard
          rw [hw] at hfreed
          rw [← Except.ok.inj hheard]
          exact ⟨hmatched, hfree hfreed⟩
        · rw [← Except.ok.inj hheard, hw]
          exact ⟨hmatched, List.suffix_rfl⟩
  · unfold Raft.progressAfterBeat at hheard
    simp only at hheard
    split at hheard
    · obtain ⟨w, hfreed, hheard⟩ := bind_ok hheard
      rw [← Except.ok.inj hheard]
      exact ⟨le_rfl, hfree hfreed⟩
    · rw [← Except.ok.inj hheard]
      exact ⟨le_rfl, List.suffix_rfl⟩
  · rw [← Except.ok.inj hheard]
    split
    · exact ⟨le_rfl, List.suffix_rfl⟩
    split
    · exact ⟨(hprobe p).1.ge, (hprobe p).2 ▸ List.nil_suffix⟩
    · exact ⟨(hprobe p.snapshotFailure).1.ge, (hprobe p.snapshotFailure).2 ▸ List.nil_suffix⟩
  · rw [← Except.ok.inj hheard]
    split
    · rw [(hprobe p).1, (hprobe p).2]
      exact ⟨le_rfl, List.nil_suffix⟩
    · exact ⟨le_rfl, List.suffix_rfl⟩
  · rw [← Except.ok.inj hheard]
    exact ⟨le_rfl, List.suffix_rfl⟩

/-- The leader never has anything to send to itself. -/
structure Steady (size : Nat) (own : Bool) (last : Nat) (p : Progress) : Prop where
  paced : p.Paced size
  caughtUp : own = true → last ≤ p.matched
  idle : own = true → p.inflights.sent = []

theorem Steady.hear {size last : Nat} {own : Bool} (h : Steady size own last p) (hheard : p.hear msg = .ok p') :
    Steady size own last p' := by
  obtain ⟨hmatched, hsent⟩ := hear_suffix h.paced.laid hheard
  refine ⟨h.paced.hear hheard, fun hown => (h.caughtUp hown).trans hmatched, fun hown => ?_⟩
  rw [h.idle hown] at hsent
  exact List.suffix_nil.mp hsent

theorem steady_tended (size : Nat) : Progress.Tended size (Steady size) where
  mono _ h := ⟨h.paced, nofun, nofun⟩
  flags active learner h := ⟨h.paced.flags active learner _ _, h.caughtUp, h.idle⟩
  new learner _ := ⟨.of_idle (.new size) rfl nofun, nofun, nofun⟩
  self learner := ⟨⟨.reset (.new size), rfl, fun _ => .empty rfl (Nat.lt_succ_self _)⟩, fun _ => le_rfl, fun _ => rfl⟩
  update := by
    intro last last' p hlast h
    have hidle := h.idle rfl
    rw [Progress.maybeUpdate_eq]
    refine ⟨⟨h.paced.laid, h.paced.size_eq, fun hstate => .empty hidle ?_⟩, fun _ => le_max_right _ _, fun _ => hidle⟩
    have hbehind := (h.paced.pipelined hstate).behind
    simp only
    omega
  entries := by
    intro own last p i p' h hpaused hnext hi hsent
    have hown : own = true → p'.matched = p.matched ∧ p'.inflights = p.inflights := by
      intro hown
      have hcaught := h.caughtUp hown
      unfold Raft.progressAfterSend at hsent
      split at hsent
      · -- the leader has all that it could send to itself
        rename_i hstate
        have hbehind := (h.paced.pipelined hstate).behind
        omega
      · rw [← Except.ok.inj hsent]
        exact ⟨rfl, rfl⟩
      · cases hsent
    refine ⟨h.paced.posts hnext hsent, fun h' => ?_, fun h' => ?_⟩
    · rw [(hown h').1]
      exact h.caughtUp h'
    · rw [(hown h').2]
      exact h.idle h'
  snapshot h _ := ⟨.of_idle h.paced.laid.reset h.paced.size_eq fun hstate => ProgressState.noConfusion hstate,
    h.caughtUp, fun _ => rfl⟩

end Progress

/-! ### The leader's term -/

theorem Raft.Reigns.steady {C : Raft → Message → Prop} {c : Raft} (hlog : c.raftLog.Orderly) (hwon : c.TakesOffice r)
    (hreign : r.Reigns C r') : r'.Presides c.maxInflight (Progress.Steady c.maxInflight) :=
  hreign.presides (Progress.steady_tended _) (fun _ _ _ _ _ _ _ _ _ hold hheard => hold.hear hheard)
    (hwon.presides (Progress.steady_tended _) hlog rfl)

/-- From its election on, whatever the leader hears: the messages in flight to a peer to which it replicates end at
increasing indexes between what the peer has and what it gets next, the last right before the latter, and there are no
more of them than the limit. Nothing is ever added to a full window. -/
theorem replicate_window_ordered {c : Raft} (hlog : c.raftLog.Orderly) (hwon : c.TakesOffice r)
    (hreign : r.Reigns (fun _ _ => True) r') :
    (∀ id p, r'.prs.lookup id = some p ∨ r'.learnerPrs.lookup id = some p → p.state = .replicate →
      p.inflights.sent.Pairwise (· < ·) ∧ (∀ i ∈ p.inflights.sent, p.matched < i ∧ i < p.next) ∧
      (∀ i, p.inflights.sent.getLast? = some i → i = p.next - 1) ∧ p.inflights.sent.length ≤ r'.maxInflight) ∧
    ∀ (n : RawNode) (a : NodeAction), n.run a ≠ .error fullWindow := by
  have hreigns := Raft.Reigns.steady hlog hwon hreign
  refine ⟨fun id p hp hstate => ?_,
    fun n a h => run_avoids window_misindexed (fun hcommit => absurd hcommit (by decide)) _ h rfl⟩
  have hpaced : p.Paced c.maxInflight := by
    rcases hp with hp | hp
    · exact (hreigns.voters id p hp).paced
    · exact (hreigns.learners id p hp).paced
  have hpipe := hpaced.pipelined hstate
  refine ⟨hpipe.increasing, hpipe.within, fun i hi => ?_, ?_⟩
  · have := hpipe.ends i hi
    omega
  · have hcount := hpaced.laid.count_le
    have hsize := hpaced.size_eq
    have hmod := Nat.mod_le c.maxInflight (2 ^ 32)
    rw [hpaced.laid.length, hreigns.limit]
    omega

/-- One of two voters hears that its first entry has arrived, and sends two more. -/
theorem replicate_window_ordered_two : ∃ c r r' : Raft, ∃ p, c.raftLog.Orderly ∧ c.TakesOffice r ∧
    r.Reigns (fun _ _ => True) r' ∧ r'.prs.lookup 2 = some p ∧ p.state = .replicate ∧ p.inflights.sent = [2, 3] ∧
      (∀ i ∈ p.inflights.sent, p.matched < i ∧ i < p.next) ∧ ∀ i, p.inflights.sent.getLast? = some i → i = p.next - 1 := by
  obtain ⟨⟨c, r, r'⟩, hrun, heval⟩ : ∃ q, Raft.officeRun (fun _ _ => true) { loneVoter with peers := [1, 2] }
      [{ type := .msgAppResp, from_ := 2, term := 1, index := 1 }, { type := .msgProp, from_ := 1, entries := [{}] },
        { type := .msgProp, from_ := 1, entries := [{}] }] = .ok q ∧
      decide (q.1.raftLog.storage.ents = [] ∧ q.1.raftLog.unstable.entries = [] ∧ q.1.raftLog.snapshot.metadata.index = 0 ∧
        (q.2.2.prs.lookup 2).map (fun p => (p.state, p.inflights.sent)) = some (.replicate, [2, 3])) = true :=
    exists_ok_of_any (by decide +kernel)
  obtain ⟨hents, hunstable, hsnap, hpeer⟩ := of_decide_eq_true heval
  obtain ⟨p, hp, hshape⟩ := Option.map_eq_some_iff.mp hpeer
  obtain ⟨hstate, hsent⟩ := Prod.mk.inj hshape
  have hents : c.raftLog.storage.ents = Raft.stampEntries 0 (c.raftLog.storage.dummy.index + 1) [] := hents
  have hlog : c.raftLog.Orderly := .of_stamped hents hunstable hsnap
  obtain ⟨hwon, hreign⟩ := Raft.officeRun_spec (C := fun _ _ => True) (fun _ _ _ => trivial) hrun
  obtain ⟨-, hwithin, hends, -⟩ := (replicate_window_ordered hlog hwon hreign).1 2 p (Or.inl hp) hstate
  exact ⟨c, r, r', p, hlog, hwon, hreign, hp, hstate, hsent, hwithin, hends⟩

end RaftEtcd
