import RaftEtcd.Refine.Step

/-! The handlers of a leader: proposals, reads and the answers of its peers. -/
namespace RaftEtcd
open Consensus
variable {cfg : ClusterConfig} {N : Set (Msg Nat Entry)} {B : Prop} {r r' : Raft} {msg : Message}

theorem filterConfChanges_same (r : Raft) (i : Nat) (es : List Entry) :
    SameCore r (r.filterConfChanges i es).1 := by
  induction es generalizing r i with
  | nil => exact ⟨rfl, rfl, rfl, rfl, rfl, rfl, rfl, rfl, rfl, rfl, rfl⟩
  | cons e es ih =>
      rw [Raft.filterConfChanges]
      split
      · split
        · exact ih r (i + 1)
        · have hpend : SameCore r { r with pendingConfIndex := r.raftLog.lastIndex + i + 1 } := by constructor <;> rfl
          exact hpend.trans (ih _ (i + 1))
      · exact ih r (i + 1)

theorem leaderProp_sim (hg : Good cfg r) (hl : r.state = .leader) {st : Status}
    (h : r.leaderProp msg = .ok (r', st)) : Sim cfg N B r r' := by
  have hsame := filterConfChanges_same r 0 msg.entries
  have happends : ∀ {r₂ : Raft} {ok : Bool}, (r.filterConfChanges 0 msg.entries).1.appendEntry
      (r.filterConfChanges 0 msg.entries).2 = .ok (r₂, ok) → Sim cfg N B r r₂ ∧ r₂.state = .leader := by
    intro r₂ ok happend
    obtain ⟨hsim, hl₂, -⟩ := appendEntry_sim (N := N) (B := B) (hsame.good hg) (hsame.state.trans hl) happend
    exact ⟨(hsame.sim hg).trans hsim, hl₂⟩
  cases leaderProp_proposes h with
  | refuses why status same =>
      rw [same]
      exact .refl hg
  | drops member settled append status => exact (happends append).1
  | takes nonempty r₂ append cast status =>
      obtain ⟨hr₂, hl₂⟩ := happends append
      exact hr₂.trans (bcastAppend_tells hr₂.good hl₂ cast).toSim

/-- Only the reads of the node are different. -/
theorem readOnly_same (r : Raft) (ro : ReadOnly) : SameCore r { r with readOnly := ro } := by
  constructor <;> rfl

theorem readStates_same (r : Raft) (rs : List ReadState) : SameCore r { r with readStates := rs } := by
  constructor <;> rfl

theorem SameCore.tells (h : SameCore r r') (hg : Good cfg r) : Tells cfg N B r r' :=
  ⟨h.sim hg, h.state, h.term, h.raftLog⟩

theorem leaderReadIndex_tells (hg : Good cfg r) (hl : r.state = .leader) (h : r.leaderReadIndex msg = .ok r') :
    Tells cfg N B r r' := by
  cases leaderReadIndex_cases h with
  | waits many term same =>
      rw [same]
      exact .refl hg
  | queues many safe ro ctx add context beat =>
      have hro := readOnly_same r ro
      exact (hro.tells hg).trans (bcastHeartbeatWithCtx_tells (hro.good hg) hl beat)
  | reads why ctx context read =>
      rw [read]
      exact (readStates_same r _).tells hg
  | replies many lease other sent => exact send_tells_quiet hg sent rfl (by simp)

theorem answerReads_tells (hg : Good cfg r) {rss : List ReadIndexStatus} (h : r.answerReads rss = .ok r') :
    Tells cfg N B r r' := by
  refine Tells.foldlM hg _ _ ?_ h
  intro r₁ r₂ rs _ h₁ h₂
  split at h₂
  · obtain ⟨ctx, -, h₂⟩ := bind_ok h₂
    obtain rfl := Except.ok.inj h₂
    exact (readStates_same r₁ _).tells h₁.good
  · exact send_tells_quiet h₁.good h₂ rfl (by simp)

/-- What a rejection leaves of a progress. -/
theorem maybeDecreasesTo_spec (p : Progress) (rejected last : Nat) (hn : 1 ≤ p.next) :
    (p.maybeDecreasesTo rejected last).1.matched = p.matched ∧
      (p.maybeDecreasesTo rejected last).1.state = p.state ∧
      1 ≤ (p.maybeDecreasesTo rejected last).1.next ∧
      ((p.maybeDecreasesTo rejected last).1.next ≤ max p.next (p.matched + 1)) := by
  rw [Progress.maybeDecreasesTo]
  split
  · split
    · exact ⟨rfl, rfl, hn, le_max_left _ _⟩
    · exact ⟨rfl, rfl, Nat.le_add_left 1 _, le_max_right _ _⟩
  · split
    · exact ⟨rfl, rfl, hn, le_max_left _ _⟩
    · refine ⟨rfl, rfl, ?_, ?_⟩
      · simp only
        split <;> omega
      · refine le_trans ?_ (le_max_left _ _)
        simp only
        split <;> omega

theorem becomeProbe_spec {p : Progress} (h : p.state ≠ .snapshot) :
    p.becomeProbe.matched = p.matched ∧ p.becomeProbe.next = p.matched + 1 ∧ p.becomeProbe.state = .probe := by
  rw [Progress.becomeProbe, if_neg h]
  exact ⟨rfl, rfl, rfl⟩

/-- A progress that is probed again. -/
theorem probeAgain_tells (hg : Good cfg r) (id : Nat) :
    Tells cfg N B r (r.modifyProgress id fun pr => if pr.state = .replicate then pr.becomeProbe else pr) := by
  refine modifyProgress_tells hg id _ ?_ ?_
  · intro hl p hp
    obtain ⟨hn, hs⟩ := hg.next_pos hl id p hp
    split
    · obtain ⟨h1, h2, h3⟩ := becomeProbe_spec hs
      rw [h2, h3]
      exact ⟨Nat.le_add_left 1 _, by decide, fun _ => h1⟩
    · exact ⟨hn, hs, fun _ => rfl⟩
  · intro _ hb hl p hp
    obtain ⟨hn, hm⟩ := hb hl id p hp
    split
    · obtain ⟨h1, h2, -⟩ := becomeProbe_spec (hg.next_pos hl id p hp).2
      rw [h1, h2]
      exact ⟨Nat.add_le_add_right hm 1, hm⟩
    · exact ⟨hn, hm⟩

/-- The progress with which a leader tries again after a rejection. -/
theorem rejected_tells (hg : Good cfg r) (hl : r.state = .leader) {id : Nat} {p p' : Progress}
    (hp : r.getProgress id = some p) (rejected last : Nat)
    (hp' : p' = if (p.maybeDecreasesTo rejected last).1.state = .replicate then
      (p.maybeDecreasesTo rejected last).1.becomeProbe else (p.maybeDecreasesTo rejected last).1) :
    Tells cfg N B r (r.modifyProgress id fun _ => p') := by
  obtain ⟨hn, hs⟩ := hg.next_pos hl id p hp
  obtain ⟨h1, h2, h3, h4⟩ := maybeDecreasesTo_spec p rejected last hn
  have hspec : p'.matched = p.matched ∧ p'.state ≠ .snapshot ∧ 1 ≤ p'.next ∧ p'.next ≤ max p.next (p.matched + 1) := by
    split at hp'
    · obtain ⟨k1, k2, k3⟩ := becomeProbe_spec (h2 ▸ hs)
      rw [hp', k1, k2, k3, h1]
      exact ⟨rfl, by decide, Nat.le_add_left 1 _, le_max_right _ _⟩
    · rw [hp', h1, h2]
      exact ⟨rfl, hs, h3, h4⟩
  refine modifyProgress_tells hg id _ ?_ ?_
  · intro _ q hq
    rw [hp] at hq
    obtain rfl := Option.some.inj hq
    exact ⟨hspec.2.2.1, hspec.2.1, fun _ => hspec.1⟩
  · intro _ hb _ q _
    obtain ⟨hbn, hbm⟩ := hb hl id p hp
    rw [hspec.1]
    exact ⟨hspec.2.2.2.trans (max_le hbn (Nat.add_le_add_right hbm 1)), hbm⟩

/-- The first thing a leader notes about any answer. -/
theorem recentActive_tells (hg : Good cfg r) (id : Nat) :
    Tells cfg N B r (r.modifyProgress id fun p => { p with recentActive := true }) := by
  refine modifyProgress_tells hg id _ ?_ ?_
  · intro hl p hp
    obtain ⟨hn, hs⟩ := hg.next_pos hl id p hp
    exact ⟨hn, hs, fun _ => rfl⟩
  · intro _ hb hl p hp
    exact hb hl id p hp

/-- The progress that an acknowledgement leaves, before the leader sends more. -/
theorem progressAfterAck_spec {p p' : Progress} {index : Nat} (hs : p.state ≠ .snapshot)
    (h : Raft.progressAfterAck (p.maybeUpdate index).1 index = .ok p') :
    p'.matched = max p.matched index ∧ p'.state ≠ .snapshot ∧
      (p'.next = max p.matched index + 1 ∨ p'.next = max p.next (index + 1)) := by
  obtain ⟨hm, hn, hst⟩ := maybeUpdate_spec p index
  rw [← hst] at hs
  rw [Raft.progressAfterAck] at h
  split at h
  · rw [← Except.ok.inj h]
    exact ⟨hm, by simp [Progress.becomeReplicate, Progress.resetState], Or.inl (by rw [← hm]; rfl)⟩
  · split at h
    · rename_i hsnap
      exact absurd hsnap.1 hs
    · split at h
      · obtain ⟨w, -, h⟩ := bind_ok h
        rw [← Except.ok.inj h]
        exact ⟨hm, hs, Or.inr hn⟩
      · rw [← Except.ok.inj h]
        exact ⟨hm, hs, Or.inr hn⟩

/-- What a leader sends once it knows that a peer has caught up further. -/
theorem afterAck_sim (hg : Good cfg r) (hl : r.state = .leader) {id : Nat} (hid : id ≠ r.id) {paused changed : Bool}
    {r₁ r₂ : Raft} (h₁ : r.maybeCommit = .ok (r₁, changed))
    (h₂ : r₁.sendAfterAck id changed paused = .ok r₂)
    (h : (do
      let r ← Raft.sendAppendLoop id (r₂.raftLog.lastIndex + 2) r₂
      match r.getProgress id with
      | none => .ok r
      | some pr =>
          if id = r.leadTransferee ∧ pr.matched = r.raftLog.lastIndex then r.sendTimeoutNow id
          else .ok r) = .ok r') : Sim cfg N B r r' := by
  obtain ⟨hcommit, c, hc⟩ := maybeCommit_sim (N := N) (B := B) hg hl h₁
  have hl₁ : r₁.state = .leader := by rw [hc]; exact hl
  have hsend : Tells cfg N B r₁ r₂ := by
    rw [Raft.sendAfterAck] at h₂
    split at h₂
    · exact bcastAppend_tells hcommit.good hl₁ h₂
    · split at h₂
      · exact sendAppend_tells hcommit.good hl₁ (hcommit.id ▸ hid) h₂
      · obtain rfl := Except.ok.inj h₂
        exact .refl hcommit.good
  obtain ⟨r₃, h₃, h⟩ := bind_ok h
  have hloop : Tells cfg N B r₂ r₃ :=
    sendAppendLoop_tells _ hsend.good (hsend.state.trans hl₁) (hsend.id ▸ hcommit.id ▸ hid) h₃
  have hr₃ : Sim cfg N B r r₃ := hcommit.trans (hsend.toSim.trans hloop.toSim)
  split at h
  · obtain rfl := Except.ok.inj h
    exact hr₃
  · split at h
    · exact hr₃.trans (sendTimeoutNow_tells hloop.good h).toSim
    · obtain rfl := Except.ok.inj h
      exact hr₃

/-- The acknowledged index is inside the leader's log; this is where the bound comes from. -/
theorem leaderAppResp_sim (hg : Good cfg r) (hl : r.state = .leader) (hin : Input cfg N r msg)
    (hty : msg.type = .msgAppResp) (hB : B → msg.reject = false → msg.index ≤ r.raftLog.log.length)
    (h : r.leaderAppResp msg = .ok r') : Sim cfg N B r r' := by
  obtain ⟨hmem, hne, hto⟩ := hin.peer (by rw [hty]; rfl)
  have hack : msg.reject = false → .ack msg.from_ r.term msg.index ∈ N := by
    intro hrej
    apply hin.known
    rw [absMsg, hty, hrej, (hin.term (by rw [hty]; rfl)).1]
    exact Set.mem_singleton _
  have hact : Tells cfg N B r (r.modifyProgress msg.from_ fun p => { p with recentActive := true }) :=
    recentActive_tells hg msg.from_
  unfold Raft.leaderAppResp at h
  simp only at h
  generalize r.modifyProgress msg.from_ (fun p => { p with recentActive := true }) = r₀ at hact h
  refine hact.toSim.trans ?_
  have hl₀ : r₀.state = .leader := hact.state.trans hl
  have hne₀ : msg.from_ ≠ r₀.id := hact.id ▸ hne
  rw [← hact.term] at hack
  rw [← hact.raftLog] at hB
  split at h
  · obtain rfl := Except.ok.inj h
    exact .refl hact.good
  rename_i p hp
  obtain ⟨hn, hs⟩ := hact.good.next_pos hl₀ _ p hp
  split at h
  · -- a rejection
    split at h
    · obtain rfl := Except.ok.inj h
      exact .refl hact.good
    · rename_i q hq
      have hrej : Tells cfg N B r₀
          (r₀.modifyProgress msg.from_ fun _ => if q.state = .replicate then q.becomeProbe else q) :=
        rejected_tells hact.good hl₀ hp msg.index msg.rejectHint (by rw [hq])
      exact hrej.toSim.trans
        (sendAppend_tells hrej.good (hrej.state.trans hl₀) (hrej.id ▸ hne₀) h).toSim
  · rename_i hrej
    have hrej : msg.reject = false := Bool.eq_false_iff.mpr hrej
    obtain ⟨hm, hnx, hst⟩ := maybeUpdate_spec p msg.index
    split at h
    · rename_i q hq
      rw [hq] at hm hnx hst
      obtain rfl := Except.ok.inj h
      refine (ackProgress_tells hact.good hl₀ hne₀ (hack hrej) hp hm ?_ (hst ▸ hs) ?_).toSim
      · rw [hnx]
        exact hn.trans (le_max_left _ _)
      · intro hB' hb
        obtain ⟨h1, h2⟩ := hb hl₀ _ p hp
        have h3 := hB hB' hrej
        rw [hnx, hm]
        exact ⟨max_le h1 (by omega), max_le h2 h3⟩
    · rename_i q hq
      obtain ⟨p', hp', h⟩ := bind_ok h
      obtain ⟨hm', hs', hn'⟩ := progressAfterAck_spec hs (by rw [hq]; exact hp')
      have hup : Tells cfg N B r₀ (r₀.modifyProgress msg.from_ fun _ => p') := by
        refine ackProgress_tells hact.good hl₀ hne₀ (hack hrej) hp hm' ?_ hs' ?_
        · rcases hn' with hn' | hn' <;> omega
        · intro hB' hb
          obtain ⟨h1, h2⟩ := hb hl₀ _ p hp
          have h3 := hB hB' hrej
          rw [hm']
          refine ⟨?_, max_le h2 h3⟩
          rcases hn' with hn' | hn' <;> omega
      obtain ⟨⟨r₁, changed⟩, h₁, h⟩ := bind_ok h
      obtain ⟨r₂, h₂, h⟩ := bind_ok h
      exact hup.toSim.trans (afterAck_sim hup.good (hup.state.trans hl₀) (hup.id ▸ hne₀) h₁ h₂ h)

/-- A heartbeat that came back lets the leader send again. -/
theorem leaderHeartbeatResp_sim (hg : Good cfg r) (hl : r.state = .leader) (hin : Input cfg N r msg)
    (hty : msg.type = .msgHeartbeatResp) (h : r.leaderHeartbeatResp msg = .ok r') : Sim cfg N B r r' := by
  obtain ⟨hmem, hne, hto⟩ := hin.peer (by rw [hty]; rfl)
  unfold Raft.leaderHeartbeatResp at h
  split at h
  · obtain rfl := Except.ok.inj h
    exact .refl hg
  rename_i p hp
  obtain ⟨hn, hs⟩ := hg.next_pos hl _ p hp
  obtain ⟨p', hp', h⟩ := bind_ok h
  have hspec : p'.matched = p.matched ∧ p'.next = p.next ∧ p'.state = p.state := by
    rw [Raft.progressAfterBeat] at hp'
    split at hp'
    · obtain ⟨w, -, hp'⟩ := bind_ok hp'
      rw [← Except.ok.inj hp']
      exact ⟨rfl, rfl, rfl⟩
    · rw [← Except.ok.inj hp']
      exact ⟨rfl, rfl, rfl⟩
  have hmod : Tells cfg N B r (r.modifyProgress msg.from_ fun _ => p') := by
    refine modifyProgress_tells hg _ _ ?_ ?_
    · intro _ q hq
      rw [hp] at hq
      obtain rfl := Option.some.inj hq
      exact ⟨hspec.2.1 ▸ hn, hspec.2.2 ▸ hs, fun _ => hspec.1⟩
    · intro _ hb _ q _
      rw [hspec.1, hspec.2.1]
      exact hb hl _ p hp
  obtain ⟨r₂, h₂, h⟩ := bind_ok h
  have hsend : Tells cfg N B (r.modifyProgress msg.from_ fun _ => p') r₂ := by
    split at h₂
    · exact sendAppend_tells hmod.good (hmod.state.trans hl) (hmod.id ▸ hne) h₂
    · obtain rfl := Except.ok.inj h₂
      exact .refl hmod.good
  have hr₂ : Sim cfg N B r r₂ := hmod.toSim.trans hsend.toSim
  simp only at h
  split at h
  · obtain rfl := Except.ok.inj h
    exact hr₂
  split at h
  · obtain rfl := Except.ok.inj h
    exact hr₂.trans ((readOnly_same r₂ _).sim hr₂.good)
  obtain ⟨⟨ro, rss⟩, -, h⟩ := bind_ok h
  have hro : SameCore r₂ { r₂ with readOnly := ro } := readOnly_same r₂ ro
  exact hr₂.trans ((hro.sim hr₂.good).trans (answerReads_tells (hro.good hr₂.good) h).toSim)

/-- No snapshot is ever on its way, so its outcome changes nothing. -/
theorem leaderSnapStatus_tells (hg : Good cfg r) (hl : r.state = .leader) :
    Tells cfg N B r (r.leaderSnapStatus msg) := by
  refine modifyProgress_tells hg _ _ ?_ ?_
  · intro _ p hp
    obtain ⟨hn, hs⟩ := hg.next_pos hl _ p hp
    rw [if_pos hs]
    exact ⟨hn, hs, fun _ => rfl⟩
  · intro _ hb _ p hp
    rw [if_pos (hg.next_pos hl _ p hp).2]
    exact hb hl _ p hp

theorem leaderTransferLeader_tells (hg : Good cfg r) (hl : r.state = .leader) {pr : Progress}
    (h : r.leaderTransferLeader pr msg = .ok r') : Tells cfg N B r r' := by
  have hset : SameCore r { r with electionElapsed := 0, leadTransferee := msg.from_ } := by constructor <;> rfl
  cases leaderTransferLeader_cases h with
  | keeps why same =>
      rw [same]
      exact .refl hg
  | aborts self transferee frame =>
      have habort : SameCore r { r with leadTransferee := transferee } := by constructor <;> rfl
      rw [frame]
      exact habort.tells hg
  | urges other sent => exact (hset.tells hg).trans (sendTimeoutNow_tells (hset.good hg) sent)
  | appends other sent => exact (hset.tells hg).trans (sendAppend_tells (hset.good hg) hl other sent)

theorem stepLeaderProgress_sim (hg : Good cfg r) (hl : r.state = .leader) (hin : Input cfg N r msg)
    (hB : B → msg.type = .msgAppResp → msg.reject = false → msg.index ≤ r.raftLog.log.length)
    (h : r.stepLeaderProgress msg = .ok r') : Sim cfg N B r r' := by
  unfold Raft.stepLeaderProgress at h
  split at h
  · obtain rfl := Except.ok.inj h
    exact .refl hg
  split at h
  · rename_i hty
    exact leaderAppResp_sim hg hl hin hty (fun hB' => hB hB' hty) h
  · rename_i hty
    exact leaderHeartbeatResp_sim hg hl hin hty h
  · obtain rfl := Except.ok.inj h
    exact (leaderSnapStatus_tells hg hl).toSim
  · obtain rfl := Except.ok.inj h
    exact (probeAgain_tells hg _).toSim
  · exact (leaderTransferLeader_tells hg hl h).toSim
  · obtain rfl := Except.ok.inj h
    exact .refl hg

theorem stepLeader_sim (hg : Good cfg r) (hl : r.state = .leader) (hin : Input cfg N r msg)
    (hB : B → msg.type = .msgAppResp → msg.reject = false → msg.index ≤ r.raftLog.log.length) {st : Status}
    (h : r.stepLeader msg = .ok (r', st)) : Sim cfg N B r r' := by
  unfold Raft.stepLeader at h
  split at h
  · exact (bcastHeartbeatWithCtx_tells hg hl (withOk_ok h)).toSim
  · rw [← (Prod.mk.inj (Except.ok.inj h)).1]
    split
    · exact becomeFollower_sim hg le_rfl
    · exact .refl hg
  · exact leaderProp_sim hg hl h
  · exact (leaderReadIndex_tells hg hl (withOk_ok h)).toSim
  · exact stepLeaderProgress_sim hg hl hin hB (withOk_ok h)

end RaftEtcd
