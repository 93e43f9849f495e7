import RaftEtcd.Pipeline

/-! The next index of a peer stays above what the peer is known to have, as long as no rejection is heard that the
peer sent before it had as much. -/
namespace RaftEtcd
variable {r r' : Raft} {msg : Message}

/-- An acknowledgement is for an entry of the leader's log. -/
def Raft.AcksInLog (r : Raft) (msg : Message) : Prop :=
  msg.type = .msgAppResp → msg.reject = false → msg.index ≤ r.raftLog.lastIndex

/-- A rejection that is taken outside the replicate state, although it refuses an entry that the peer is known to have,
or reports a log that ends before what the peer is known to have. -/
def Progress.TakesStale (p : Progress) (msg : Message) : Prop :=
  p.state ≠ .replicate ∧ p.next - 1 = msg.index ∧ p.matched ≠ 0 ∧ (msg.index ≤ p.matched ∨ msg.rejectHint < p.matched)

def Raft.HearsStale (r : Raft) (msg : Message) : Prop :=
  msg.type = .msgAppResp ∧ msg.reject = true ∧ (msg.term = 0 ∨ msg.term = r.term) ∧
    ∃ p, r.getProgress msg.from_ = some p ∧ p.TakesStale msg

instance (r : Raft) (msg : Message) : Decidable (r.AcksInLog msg) :=
  inferInstanceAs (Decidable (msg.type = .msgAppResp → msg.reject = false → msg.index ≤ r.raftLog.lastIndex))

instance (p : Progress) (msg : Message) : Decidable (p.TakesStale msg) :=
  inferInstanceAs (Decidable (_ ∧ _ ∧ _ ∧ _))

instance (r : Raft) (msg : Message) : Decidable (r.HearsStale msg) :=
  inferInstanceAs (Decidable (_ ∧ _ ∧ _ ∧ ∃ p ∈ r.getProgress msg.from_, p.TakesStale msg))

namespace Progress
variable {p p' : Progress} {last last' n : Nat}

/-- The next index is behind what the peer has, and at most the one after the log. -/
structure Ordered (last : Nat) (p : Progress) : Prop where
  behind : p.matched < p.next
  within : p.next ≤ last + 1

/-- A pending snapshot is within the log as well. -/
structure Bounded (last : Nat) (p : Progress) : Prop where
  ordered : p.Ordered last
  pending : p.pendingSnapshot ≤ last

namespace Bounded

theorem mono (h : p.Bounded last) (hle : last ≤ last') : p.Bounded last' where
  ordered := ⟨h.ordered.behind, h.ordered.within.trans (Nat.succ_le_succ hle)⟩
  pending := h.pending.trans hle

theorem congr (h : p.Bounded last) (hmatched : p'.matched = p.matched) (hnext : p'.next = p.next)
    (hpending : p'.pendingSnapshot ≤ last) : p'.Bounded last where
  ordered := ⟨by rw [hmatched, hnext]; exact h.ordered.behind, by rw [hnext]; exact h.ordered.within⟩
  pending := hpending

theorem becomeReplicate (h : p.Bounded last) : p.becomeReplicate.Bounded last where
  ordered := ⟨Nat.lt_succ_self _, h.ordered.behind.trans_le h.ordered.within⟩
  pending := Nat.zero_le _

theorem becomeProbe (h : p.Bounded last) : p.becomeProbe.Bounded last := by
  have hbehind := h.ordered.behind
  have hwithin := h.ordered.within
  have hpending := h.pending
  unfold Progress.becomeProbe
  split
  · exact ⟨⟨Nat.lt_of_succ_le (le_max_left _ _), max_le (by omega) (by omega)⟩, Nat.zero_le _⟩
  · exact ⟨⟨Nat.lt_succ_self _, by simp only; omega⟩, Nat.zero_le _⟩

theorem becomeSnapshot (h : p.Bounded last) (hn : n ≤ last) : (p.becomeSnapshot n).Bounded last := h.congr rfl rfl hn

theorem update (h : p.Bounded last) (hle : last ≤ last') (hn : n ≤ last') : (p.maybeUpdate n).1.Bounded last' := by
  have hbehind := h.ordered.behind
  have hwithin := h.ordered.within
  rw [Progress.maybeUpdate_eq]
  refine ⟨⟨?_, ?_⟩, h.pending.trans hle⟩
  · simp only
    omega
  · simp only
    omega

/-- A rejection that is not outdated keeps the order, in whatever state the peer is. -/
theorem decreases (h : p.Bounded last) (hfresh : ¬ p.TakesStale msg) :
    (p.maybeDecreasesTo msg.index msg.rejectHint).1.Bounded last := by
  have hbehind := h.ordered.behind
  have hwithin := h.ordered.within
  unfold Progress.maybeDecreasesTo
  split
  · split
    · exact h
    · exact ⟨⟨Nat.lt_succ_self _, by simp only; omega⟩, h.pending⟩
  · rename_i hstate
    split
    · exact h
    · rename_i hindex
      have hfresh : p.matched = 0 ∨ p.matched < msg.index ∧ p.matched ≤ msg.rejectHint := by
        by_contra hstale
        exact hfresh ⟨hstate, not_not.mp hindex, by omega, by omega⟩
      refine ⟨⟨?_, ?_⟩, h.pending⟩
      · simp only
        split <;> omega
      · simp only
        split <;> omega

/-- Whatever is heard but an outdated rejection. -/
theorem hear (h : p.Bounded last) (hack : msg.type = .msgAppResp → msg.reject = false → msg.index ≤ last)
    (hfresh : msg.type = .msgAppResp → msg.reject = true → ¬ p.TakesStale msg) (hheard : p.hear msg = .ok p') :
    p'.Bounded last := by
  unfold Progress.hear at hheard
  split at hheard
  · rename_i hty
    have hactive : Bounded last { p with recentActive := true } := h.congr rfl rfl h.pending
    simp only at hheard
    split at hheard
    · rename_i hreject
      have hdecreased := hactive.decreases (hfresh hty hreject)
      split at hheard
      · rwa [← Except.ok.inj hheard]
      · rename_i q hq
        rw [hq] at hdecreased
        rw [← Except.ok.inj hheard]
        split
        · exact hdecreased.becomeProbe
        · exact hdecreased
    · rename_i hreject
      have hupdated := hactive.update le_rfl (hack hty (Bool.not_eq_true _ ▸ hreject))
      split at hheard
      · rename_i q hq
        rw [hq] at hupdated
        rwa [← Except.ok.inj hheard]
      · rename_i q hq
        rw [hq] at hupdated
        unfold Raft.progressAfterAck at hheard
        split at hheard
        · rw [← Except.ok.inj hheard]
          exact hupdated.becomeReplicate
        split at hheard
        · rw [← Except.ok.inj hheard]
          exact hupdated.becomeProbe
        split at hheard
        · obtain ⟨w, -, hheard⟩ := bind_ok hheard
          rw [← Except.ok.inj hheard]
          exact hupdated.congr rfl rfl hupdated.pending
        · rwa [← Except.ok.inj hheard]
  · unfold Raft.progressAfterBeat at hheard
    simp only at hheard
    split at hheard
    · obtain ⟨w, -, hheard⟩ := bind_ok hheard
      rw [← Except.ok.inj hheard]
      exact h.congr rfl rfl h.pending
    · rw [← Except.ok.inj hheard]
      exact h.congr rfl rfl h.pending
  · rw [← Except.ok.inj hheard]
    split
    · exact h
    split
    · exact h.becomeProbe.congr rfl rfl h.becomeProbe.pending
    · have hfailed : p.snapshotFailure.Bounded last := h.congr rfl rfl (Nat.zero_le _)
      exact hfailed.becomeProbe.congr rfl rfl hfailed.becomeProbe.pending
  · rw [← Except.ok.inj hheard]
    split
    · exact h.becomeProbe
    · exact h
  · rwa [← Except.ok.inj hheard]

end Bounded

theorem bounded_tended (size : Nat) : Progress.Tended size fun _ => Bounded where
  mono hle h := h.mono hle
  flags _ _ h := h.congr rfl rfl h.pending
  new _ hle := ⟨⟨Nat.lt_succ_of_le hle, le_rfl⟩, Nat.zero_le _⟩
  self _ := ⟨⟨Nat.lt_succ_self _, le_rfl⟩, Nat.zero_le _⟩
  update hle h := h.update hle le_rfl
  entries := by
    intro _ last p i p' h _ hnext hi hsent
    unfold Raft.progressAfterSend at hsent
    split at hsent
    · obtain ⟨w, -, hsent⟩ := bind_ok hsent
      rw [← Except.ok.inj hsent]
      refine ⟨⟨?_, Nat.succ_le_succ hi⟩, h.pending⟩
      have hbehind := h.ordered.behind
      simp only [Progress.optimisticUpdate]
      omega
    · rw [← Except.ok.inj hsent]
      exact h.congr rfl rfl h.pending
    · cases hsent
  snapshot h hle := h.becomeSnapshot hle

end Progress

section Stale

/-- Sending does not make up for a next index that is too low. -/
theorem sendAppend_low {id : Nat} (h : r.sendAppend id = .ok r')
    (hlow : ∃ p, r.getProgress id = some p ∧ p.state ≠ .replicate ∧ p.next ≤ p.matched) :
    ∃ p, r'.getProgress id = some p ∧ p.state ≠ .replicate ∧ p.next ≤ p.matched := by
  have hkept : Raft.KeptBySending fun r => ∃ p, r.getProgress id = some p ∧ p.state ≠ .replicate ∧ p.next ≤ p.matched := by
    refine ⟨fun {r} k f hr hf => ?_, fun {r r' m} hr hs => ?_⟩
    · obtain ⟨p, hp, hstate, hle⟩ := hr
      rw [Raft.getProgress_modifyProgress]
      split
      · rename_i hk
        rw [hk] at hp
        have hpost := hf p hp
        rw [hp]
        refine ⟨f p, rfl, ?_⟩
        generalize f p = q at hpost
        cases hpost with
        | nothing => exact ⟨hstate, hle⟩
        | entries status es e _ paused offered last sent =>
            unfold Raft.progressAfterSend at sent
            split at sent
            · rename_i hrep
              exact absurd hrep hstate
            · rename_i hprobe
              rw [← Except.ok.inj sent]
              exact ⟨hstate, hle⟩
            · cases sent
        | snapshot => exact ⟨nofun, hle⟩
      · exact ⟨p, hp, hstate, hle⟩
    · obtain ⟨t, rfl, -, -⟩ := send_spec hs
      exact hr
  exact sendAppend_keeps hkept hlow h

/-- An outdated rejection leaves the next index at or below what the peer is known to have. -/
theorem step_stale {st : Status} (hl : r.state = .leader) (hstale : r.HearsStale msg) (h : r.step msg = .ok (r', st)) :
    ∃ p, r'.getProgress msg.from_ = some p ∧ p.next ≤ p.matched := by
  obtain ⟨hty, hreject, hterm, p, hp, hstate, hindex, hmatched, hle⟩ := hstale
  rw [step_leader_appResp hl hty hterm (Option.isSome_of_eq_some hp)] at h
  have h := withOk_ok h
  have hget := Raft.getProgress_modifyProgress r msg.from_ msg.from_ fun p => { p with recentActive := true }
  rw [if_pos rfl, hp, Option.map_some] at hget
  unfold Raft.leaderAppResp at h
  simp only at h
  rw [hget] at h
  simp only [hreject, if_true] at h
  rw [Progress.maybeDecreasesTo, if_neg hstate, if_neg (not_not_intro hindex)] at h
  simp only [if_neg hstate] at h
  obtain ⟨q, hq, -, hlow⟩ := sendAppend_low h (by
    rw [Raft.getProgress_modifyProgress, if_pos rfl, hget]
    refine ⟨_, rfl, hstate, ?_⟩
    simp only
    split <;> omega)
  exact ⟨q, hq, hlow⟩

end Stale

/-- While no outdated rejection is taken, the order holds for every peer. The first that is taken breaks it. -/
theorem match_below_next_iff {c g : Raft} (hlog : c.raftLog.Orderly) (hwon : c.TakesOffice r)
    (hreign : r.Reigns (fun g msg => g.AcksInLog msg ∧ ¬ g.HearsStale msg) g) :
    g.EachPeer (Progress.Ordered g.raftLog.lastIndex) ∧
      ∀ msg g' st, g.AcksInLog msg → g.step msg = .ok (g', st) → g'.state = .leader → g'.term = g.term →
        (g'.EachPeer (Progress.Ordered g'.raftLog.lastIndex) ↔ ¬ g.HearsStale msg) := by
  have htended := Progress.bounded_tended c.maxInflight
  have hordered : ∀ g, r.Reigns (fun g msg => g.AcksInLog msg ∧ ¬ g.HearsStale msg) g → g.state = .leader ∧
      g.EachPeer (Progress.Ordered g.raftLog.lastIndex) := by
    intro g hreign
    have hpresides := hreign.presides htended (fun g msg _ p p' _ hcond hterm hp hold hheard =>
      hold.hear hcond.1 (fun hty hreject hstale => hcond.2 ⟨hty, hreject, hterm, p, hp, hstale⟩) hheard)
      (hwon.presides htended hlog rfl)
    refine ⟨hpresides.role, fun id p hp => ?_⟩
    rcases hp with hp | hp
    · exact (hpresides.voters id p hp).ordered
    · exact (hpresides.learners id p hp).ordered
  refine ⟨(hordered g hreign).2, fun msg g' st hack hstep hrole hterm => ⟨fun hpeers hstale => ?_, fun hfresh => ?_⟩⟩
  · obtain ⟨p, hp, hlow⟩ := step_stale (hordered g hreign).1 hstale hstep
    exact absurd (hpeers.get hp).behind (Nat.not_lt.mpr hlow)
  · exact (hordered g' (hreign.tail (.steps msg st ⟨hack, hfresh⟩ hstep hrole hterm))).2

/-- The leader keeps four entries of an earlier term and sends one entry in a message. -/
def singleEntries : Config :=
  { serverSettings false with
    id := 1
    peers := [1, 2]
    maxSizePerMsg := 0
    storage := { ents := Raft.stampEntries 1 1 (List.replicate 4 {}), hardState := { term := 1 } } }

/-- A rejection that answers an append the leader has sent, of a peer whose log ends at 2. -/
def lateRejection : Message := { type := .msgAppResp, from_ := 2, term := 2, index := 4, reject := true, rejectHint := 2 }

/-- A heartbeat is answered before the first append, so that is sent again. The peer rejects both, and of its answers
one is late: it gets entries 3 and 4 and is unreachable for a while before that comes. -/
def rejectedOnce : List Message :=
  [{ type := .msgHeartbeatResp, from_ := 2, term := 2 }, lateRejection,
    { type := .msgAppResp, from_ := 2, term := 2, index := 3 }, { type := .msgAppResp, from_ := 2, term := 2, index := 4 },
    { type := .msgUnreachable, from_ := 2, term := 2 }]

theorem match_below_next_iff_late : ∃ c r g : Raft, c.raftLog.Orderly ∧ c.TakesOffice r ∧
    r.Reigns (fun g msg => g.AcksInLog msg ∧ ¬ g.HearsStale msg) g ∧
      g.EachPeer (Progress.Ordered g.raftLog.lastIndex) ∧
      ∃ g' st, g.step lateRejection = .ok (g', st) ∧ ¬ g'.EachPeer (Progress.Ordered g'.raftLog.lastIndex) := by
  obtain ⟨⟨c, r, g⟩, hrun, heval⟩ : ∃ q, Raft.officeRun (fun g msg => decide (g.AcksInLog msg ∧ ¬ g.HearsStale msg))
      singleEntries rejectedOnce = .ok q ∧
      decide (q.1.raftLog.storage.ents = Raft.stampEntries 1 (q.1.raftLog.storage.dummy.index + 1) (List.replicate 4 {}) ∧
        q.1.raftLog.unstable.entries = [] ∧ q.1.raftLog.snapshot.metadata.index = 0 ∧ q.2.2.HearsStale lateRejection ∧
        (q.2.2.step lateRejection).toOption.any (fun s => s.1.state = .leader ∧ s.1.term = q.2.2.term) = true) = true :=
    exists_ok_of_any (by decide +kernel)
  obtain ⟨hents, hunstable, hsnap, hstale, hstep⟩ := of_decide_eq_true heval
  obtain ⟨⟨g', st⟩, hstep, hstays⟩ := exists_ok_of_any hstep
  obtain ⟨hrole, hterm⟩ := of_decide_eq_true hstays
  have hlog : c.raftLog.Orderly := .of_stamped hents hunstable hsnap
  obtain ⟨hwon, hreign⟩ := Raft.officeRun_spec (fun _ _ h => of_decide_eq_true h) hrun
  obtain ⟨hordered, hnext⟩ := match_below_next_iff hlog hwon hreign
  refine ⟨c, r, g, hlog, hwon, hreign, hordered, g', st, hstep, fun hpeers => ?_⟩
  exact (hnext lateRejection g' st nofun hstep hrole hterm).mp hpeers hstale

/-- The rejections that come in answer appends that the leader has sent to the peer in its term. -/
def Raft.Answers (r : Raft) (msg : Message) : Prop :=
  msg.type = .msgAppResp → msg.reject = true →
    ∃ m ∈ r.msgs, m.type = .msgApp ∧ m.to_ = msg.from_ ∧ m.index = msg.index ∧ m.term = msg.term

instance (r : Raft) (msg : Message) : Decidable (r.Answers msg) :=
  inferInstanceAs (Decidable (msg.type = .msgAppResp → msg.reject = true → ∃ m ∈ r.msgs, _))

/-- The leader hears nothing but answers to what it has sent, and is about to send the peer an entry that it has. -/
theorem late_rejection_breaks_order : ∃ c r g : Raft, ∃ p, c.raftLog.Orderly ∧ c.TakesOffice r ∧
    r.Reigns (fun g msg => g.AcksInLog msg ∧ g.Answers msg) g ∧ g.prs.lookup 2 = some p ∧ p.matched = 4 ∧ p.next = 3 := by
  obtain ⟨⟨c, r, g⟩, hrun, heval⟩ : ∃ q, Raft.officeRun (fun g msg => decide (g.AcksInLog msg ∧ g.Answers msg))
      singleEntries (rejectedOnce ++ [lateRejection]) = .ok q ∧
      decide (q.1.raftLog.storage.ents = Raft.stampEntries 1 (q.1.raftLog.storage.dummy.index + 1) (List.replicate 4 {}) ∧
        q.1.raftLog.unstable.entries = [] ∧ q.1.raftLog.snapshot.metadata.index = 0 ∧
        (q.2.2.prs.lookup 2).map (fun p => (p.matched, p.next)) = some (4, 3)) = true :=
    exists_ok_of_any (by decide +kernel)
  obtain ⟨hents, hunstable, hsnap, hpeer⟩ := of_decide_eq_true heval
  obtain ⟨p, hp, hindexes⟩ := Option.map_eq_some_iff.mp hpeer
  obtain ⟨hmatched, hnext⟩ := Prod.mk.inj hindexes
  obtain ⟨hwon, hreign⟩ := Raft.officeRun_spec (fun _ _ h => of_decide_eq_true h) hrun
  exact ⟨c, r, g, p, .of_stamped hents hunstable hsnap, hwon, hreign, hp, hmatched, hnext⟩

end RaftEtcd
