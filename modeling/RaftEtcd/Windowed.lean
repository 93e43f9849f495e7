import RaftEtcd.Lib.Outcome
import RaftEtcd.Members
import RaftEtcd.Window

/-! What every operation of a node keeps about each of its peers: the window is sound, and the next index
to send is at least one. -/
namespace RaftEtcd
variable {r r' r'' : Raft} {msg : Message}

namespace Progress
variable {p p' : Progress} {last n rejected : Nat}

structure Sound (p : Progress) : Prop where
  next_pos : 1 ≤ p.next
  window : p.inflights.Sound

theorem Sound.new {maxInflight next : Nat} (hmax : maxInflight % 2 ^ 32 ≤ 2 ^ 31) (hnext : 1 ≤ next) (matched : Nat) (b : Bool) :
    Sound { Progress.new maxInflight with next := next, matched := matched, isLearner := b } :=
  ⟨hnext, .new hmax⟩

theorem Sound.resetState (h : p.Sound) (state : ProgressState) : (p.resetState state).Sound := ⟨h.next_pos, h.window.reset⟩

theorem Sound.becomeProbe (h : p.Sound) : p.becomeProbe.Sound := by
  unfold Progress.becomeProbe
  split
  · refine ⟨?_, h.window.reset⟩
    simp only
    omega
  · exact ⟨Nat.succ_pos _, h.window.reset⟩

theorem Sound.becomeReplicate (h : p.Sound) : p.becomeReplicate.Sound := ⟨Nat.succ_pos _, h.window.reset⟩

theorem Sound.becomeSnapshot (h : p.Sound) (i : Nat) : (p.becomeSnapshot i).Sound := ⟨h.next_pos, h.window.reset⟩

theorem Sound.setPause (h : p.Sound) : p.setPause.Sound := ⟨h.next_pos, h.window⟩

theorem Sound.maybeUpdate (h : p.Sound) (n : Nat) : (p.maybeUpdate n).1.Sound := by
  have hnews : (if p.matched < n then { p with matched := n, paused := false } else p).Sound := by
    split
    · exact ⟨h.next_pos, h.window⟩
    · exact h
  unfold Progress.maybeUpdate
  simp only
  generalize (if p.matched < n then { p with matched := n, paused := false } else p) = q at hnews ⊢
  split
  · exact ⟨Nat.succ_pos _, hnews.window⟩
  · exact hnews

theorem Sound.maybeDecreasesTo (h : p.Sound) (rejected last : Nat) : (p.maybeDecreasesTo rejected last).1.Sound := by
  unfold Progress.maybeDecreasesTo
  split
  · split
    · exact h
    · exact ⟨Nat.succ_pos _, h.window⟩
  split
  · exact h
  · refine ⟨?_, h.window⟩
    simp only
    split
    · exact le_rfl
    · rename_i hlow
      exact Nat.not_lt.mp hlow

/-- A peer that is not paused takes the entries. -/
theorem Sound.send (h : p.Sound) (hpaused : p.isPaused = false) (last : Nat) :
    ∃ p', Raft.progressAfterSend p last = .ok p' ∧ p'.Sound := by
  unfold Raft.progressAfterSend
  unfold Progress.isPaused at hpaused
  cases hstate : p.state with
  | probe => exact ⟨_, rfl, h.setPause⟩
  | replicate =>
      simp only [hstate] at hpaused
      obtain ⟨w, hadd, hw, -⟩ := InFlights.add_ok h.window hpaused last
      simp only [hadd]
      exact ⟨_, rfl, Nat.succ_pos _, hw⟩
  | snapshot =>
      simp only [hstate] at hpaused
      cases hpaused

theorem Sound.ack (h : p.Sound) (n : Nat) : ∃ p', Raft.progressAfterAck p n = .ok p' ∧ p'.Sound := by
  unfold Raft.progressAfterAck
  split
  · exact ⟨_, rfl, h.becomeReplicate⟩
  split
  · exact ⟨_, rfl, h.becomeProbe⟩
  split
  · obtain ⟨w, hfree, hw, -⟩ := InFlights.freeTo_ok h.window n
    rw [hfree]
    exact ⟨_, rfl, h.next_pos, hw⟩
  · exact ⟨_, rfl, h⟩

theorem Sound.beat (h : p.Sound) : ∃ p', Raft.progressAfterBeat p = .ok p' ∧ p'.Sound := by
  unfold Raft.progressAfterBeat
  simp only
  split
  · obtain ⟨w, hfree, hw, -⟩ := InFlights.freeTo_ok (w := p.inflights) h.window p.inflights.start
    have hfirst : Progress.inflights (Progress.resume { p with recentActive := true }) = p.inflights := rfl
    rw [hfirst, InFlights.freeFirstOne, hfree]
    exact ⟨_, rfl, h.next_pos, hw⟩
  · exact ⟨_, rfl, h.next_pos, h.window⟩

end Progress

/-- A property of the progress of every peer. -/
def Raft.EachPeer (P : Progress → Prop) (r : Raft) : Prop :=
  ∀ id p, r.prs.lookup id = some p ∨ r.learnerPrs.lookup id = some p → P p

namespace Raft.EachPeer
variable {P : Progress → Prop} {id : Nat}

theorem congr (h : r.EachPeer P) (hpeers : SamePeers r r') : r'.EachPeer P := by
  unfold Raft.EachPeer
  rw [hpeers.prs, hpeers.learnerPrs]
  exact h

theorem get (h : r.EachPeer P) {p : Progress} (hp : r.getProgress id = some p) : P p :=
  h id p ((getProgress_mem hp).imp_right And.right)

theorem modify (h : r.EachPeer P) (id : Nat) {f : Progress → Progress} (hf : ∀ p, r.getProgress id = some p → P p → P (f p)) :
    (r.modifyProgress id f).EachPeer P := by
  have hmap : ∀ {m : AssocMap Nat Progress}, (∀ k p, m.lookup k = some p → P p) →
      (∀ p, m.lookup id = some p → r.getProgress id = some p) →
      ∀ k p, (AssocMap.modify id f m).lookup k = some p → P p := by
    intro m hm hget k p hp
    rcases AssocMap.lookup_modify_cases hp with ⟨rfl, q, hq, rfl⟩ | ⟨-, hold⟩
    · exact hf q (hget q hq) (hm k q hq)
    · exact hm k p hold
  have hvoters := fun k p hp => h k p (Or.inl hp)
  have hlearners := fun k p hp => h k p (Or.inr hp)
  unfold Raft.modifyProgress
  intro k p hp
  split at hp
  · rcases hp with hp | hp
    · refine hmap hvoters (fun q hq => ?_) k p hp
      rw [Raft.getProgress, hq]
    · exact hlearners k p hp
  · rename_i hnone
    rcases hp with hp | hp
    · exact hvoters k p hp
    · refine hmap hlearners (fun q hq => ?_) k p hp
      rw [Raft.getProgress, Option.not_isSome_iff_eq_none.mp hnone]
      exact hq

/-- A progress that is written for a node, with whatever is erased besides. -/
theorem insert (id : Nat) {p : Progress} (hp : P p) {prs lprs : AssocMap Nat Progress} (h : r.EachPeer P)
    (hprs : ∀ k q, prs.lookup k = some q → k = id ∧ q = p ∨ r.prs.lookup k = some q)
    (hlprs : ∀ k q, lprs.lookup k = some q → k = id ∧ q = p ∨ r.learnerPrs.lookup k = some q) :
    Raft.EachPeer P { r with prs := prs, learnerPrs := lprs } := by
  intro k q hq
  rcases hq with hq | hq
  · rcases hprs k q hq with ⟨-, rfl⟩ | hold
    · exact hp
    · exact h k q (Or.inl hold)
  · rcases hlprs k q hq with ⟨-, rfl⟩ | hold
    · exact hp
    · exact h k q (Or.inr hold)

theorem lookup_insert_cases {m : AssocMap Nat Progress} {p q : Progress} {k : Nat} (h : (m.insert id p).lookup k = some q) :
    k = id ∧ q = p ∨ m.lookup k = some q := by
  by_cases hk : k = id
  · rw [hk, AList.lookup_insert] at h
    exact Or.inl ⟨hk, (Option.some.inj h).symm⟩
  · rw [AList.lookup_insert_ne hk] at h
    exact Or.inr h

theorem lookup_of_erase {m : AssocMap Nat Progress} {q : Progress} {k : Nat} (h : (m.erase id).lookup k = some q) :
    m.lookup k = some q := by
  by_cases hk : k = id
  · rw [hk, AList.lookup_erase] at h
    cases h
  · rwa [AList.lookup_erase_ne hk] at h

theorem setProgress {matched next : Nat} {b : Bool} (h : r.EachPeer P)
    (hnew : ∀ b, P { Progress.new r.maxInflight with next := next, matched := matched, isLearner := b })
    (hset : r.setProgress id matched next b = .ok r') : r'.EachPeer P := by
  unfold Raft.setProgress at hset
  simp only at hset
  split at hset
  · rw [← Except.ok.inj hset]
    exact insert id (hnew false) h (fun _ _ hq => lookup_insert_cases hq) fun _ _ hq => Or.inr (lookup_of_erase hq)
  split at hset
  · cases hset
  · rw [← Except.ok.inj hset]
    exact insert id (hnew true) h (fun _ _ hq => Or.inr hq) fun _ _ hq => lookup_insert_cases hq

theorem delProgress (h : r.EachPeer P) (id : Nat) : (r.delProgress id).EachPeer P := fun k p hp =>
  h k p (hp.imp lookup_of_erase lookup_of_erase)

theorem addNodeOrLearner {b : Bool} (h : r.EachPeer P)
    (hnew : ∀ b, P { Progress.new r.maxInflight with next := r.raftLog.lastIndex + 1, isLearner := b })
    (hflags : ∀ p a l, P p → P { p with recentActive := a, isLearner := l })
    (hadd : r.addNodeOrLearner id b = .ok r') : r'.EachPeer P := by
  have hmark : ∀ {g : Raft}, g.EachPeer P → (g.markAdded id b).EachPeer P := by
    intro g hg
    rw [markAdded_eq]
    have hself : Raft.EachPeer P { g with isLearner := if g.id = id then b else g.isLearner } := hg.congr ⟨rfl, rfl⟩
    exact hself.modify id fun p _ hp => hflags p true p.isLearner hp
  unfold Raft.addNodeOrLearner at hadd
  split at hadd
  · obtain ⟨r₁, h₁, hadd⟩ := bind_ok hadd
    rw [← Except.ok.inj hadd]
    exact hmark (h.setProgress hnew h₁)
  rename_i pr hpr
  split at hadd
  · rwa [← Except.ok.inj hadd]
  split at hadd
  · rwa [← Except.ok.inj hadd]
  · rw [← Except.ok.inj hadd]
    exact hmark (insert id (hflags pr pr.recentActive false (h.get hpr)) h (fun _ _ hq => lookup_insert_cases hq)
      fun _ _ hq => Or.inr (lookup_of_erase hq))

theorem reset (hnew : ∀ id p, P (r.resetProgress id p)) (t : Nat) : (r.reset t).EachPeer P := by
  intro k p hp
  rw [Raft.reset_prs, Raft.reset_learnerPrs, AssocMap.lookup_mapVal, AssocMap.lookup_mapVal] at hp
  rcases hp with hp | hp
  · obtain ⟨q, -, rfl⟩ := Option.map_eq_some_iff.mp hp
    exact hnew k q
  · obtain ⟨q, -, rfl⟩ := Option.map_eq_some_iff.mp hp
    exact hnew k q

end Raft.EachPeer

/-- A property that holds on when entries or a snapshot are sent to the peer. -/
structure Progress.Posted (P : Progress → Prop) : Prop where
  entries : ∀ p last p', P p → Raft.progressAfterSend p last = .ok p' → P p'
  snapshot : ∀ p i, P p → P (p.becomeSnapshot i)

/-- What sending does to the progress of the addressee. -/
inductive Raft.Posting (r : Raft) (p : Progress) : Progress → Prop
  | nothing : Posting r p p
  | entries (status : Status) (es : List Entry) (e : Entry) (p' : Progress) (paused : p.isPaused = false)
      (offered : r.raftLog.entries p.next r.maxMsgSize [] = .ok (status, es)) (last : es.getLast? = some e)
      (sent : Raft.progressAfterSend p e.index = .ok p') : Posting r p p'
  | snapshot : Posting r p (p.becomeSnapshot r.raftLog.snapshot.metadata.index)

/-- An invariant that sending keeps. -/
structure Raft.KeptBySending (I : Raft → Prop) : Prop where
  posting : ∀ {r : Raft} (id : Nat) (f : Progress → Progress), I r →
    (∀ p, r.getProgress id = some p → r.Posting p (f p)) → I (r.modifyProgress id f)
  send : ∀ {r r' : Raft} {m : Message}, I r → r.send m = .ok r' → I r'

/-- An invariant that is kept whenever the leader turns to a peer. -/
def Raft.KeptByAppends (I : Raft → Prop) : Prop :=
  ∀ {r r' : Raft} {id : Nat} {e b : Bool}, I r → r.maybeSendAppend id e = .ok (r', b) → I r'

namespace Raft.KeptByAppends
variable {I : Raft → Prop} (hI : Raft.KeptByAppends I) {id : Nat}

include hI

theorem sendAppend (hr : I r) (h : r.sendAppend id = .ok r') : I r' := by
  obtain ⟨⟨r₁, b⟩, h₁, h⟩ := bind_ok h
  obtain rfl := Except.ok.inj h
  exact hI hr h₁

theorem bcastAppend (hr : I r) (h : r.bcastAppend = .ok r') : I r' :=
  Outcome.foldlM_keeps (fun _ _ _ hg h₁ => hI.sendAppend hg h₁) _ hr h

theorem sendAppendLoop {fuel : Nat} (hr : I r) (h : Raft.sendAppendLoop id fuel r = .ok r') : I r' := by
  induction fuel generalizing r with
  | zero => cases h
  | succ fuel ih =>
      rw [Raft.sendAppendLoop] at h
      obtain ⟨⟨r₁, sent⟩, h₁, h⟩ := bind_ok h
      have hr₁ := hI hr h₁
      simp only at h
      split at h
      · exact ih hr₁ h
      · rwa [← Except.ok.inj h]

/-- After an acknowledgement: to all, to the peer or to nobody. -/
theorem sendAfterAck {changed paused : Bool} (hr : I r) (h : r.sendAfterAck id changed paused = .ok r') : I r' := by
  unfold Raft.sendAfterAck at h
  split at h
  · exact hI.bcastAppend hr h
  split at h
  · exact hI.sendAppend hr h
  · rwa [← Except.ok.inj h]

end Raft.KeptByAppends

section Sending
variable {I : Raft → Prop} (hI : Raft.KeptBySending I) {id : Nat}

include hI

theorem maybeSendAppend_keeps {e b : Bool} (hr : I r) (h : r.maybeSendAppend id e = .ok (r', b)) : I r' := by
  obtain ⟨p, hp, hs⟩ := maybeSendAppend_supplies h
  cases hs with
  | waits paused => exact hr
  | spares status offered unasked => exact hr
  | skips status es offered missing inactive => exact hr
  | entries t status es p' _ ready before offered due noted sent =>
      refine hI.send (hI.posting id _ hr fun q hq => ?_) sent
      obtain rfl := Option.some.inj (hp.symm.trans hq)
      rcases noted with ⟨-, rfl⟩ | ⟨last, hlast, hsent⟩
      · exact .nothing
      · exact .entries status es last p' ready offered hlast hsent
  | snapshot status es _ ready offered due missing sent => exact hI.send (hI.posting id _ hr fun _ _ => .snapshot) sent

theorem sendAppend_keeps (hr : I r) (h : r.sendAppend id = .ok r') : I r' :=
  Raft.KeptByAppends.sendAppend (maybeSendAppend_keeps hI) hr h

theorem bcastAppend_keeps (hr : I r) (h : r.bcastAppend = .ok r') : I r' :=
  Raft.KeptByAppends.bcastAppend (maybeSendAppend_keeps hI) hr h

theorem sendAppendLoop_keeps {fuel : Nat} (hr : I r) (h : Raft.sendAppendLoop id fuel r = .ok r') : I r' :=
  Raft.KeptByAppends.sendAppendLoop (maybeSendAppend_keeps hI) hr h

theorem sendAfterAck_keeps {changed paused : Bool} (hr : I r) (h : r.sendAfterAck id changed paused = .ok r') : I r' :=
  Raft.KeptByAppends.sendAfterAck (maybeSendAppend_keeps hI) hr h

theorem bcastHeartbeatWithCtx_keeps {ctx : Bytes} (hr : I r) (h : r.bcastHeartbeatWithCtx ctx = .ok r') : I r' := by
  refine Outcome.foldlM_keeps (fun r₁ k r₂ hr₁ h₁ => ?_) _ hr h
  unfold Raft.sendHeartbeat at h₁
  split at h₁
  · cases h₁
  · exact hI.send hr₁ h₁

end Sending

/-- A property that holds on when entries or a snapshot are sent holds of every peer. -/
theorem Progress.Posted.kept {P : Progress → Prop} (hP : Progress.Posted P) : Raft.KeptBySending (Raft.EachPeer P) where
  posting id f hr hf := hr.modify id fun p hp hold => by
    have hpost := hf p hp
    generalize f p = q at hpost ⊢
    cases hpost with
    | nothing => exact hold
    | entries status es e p' paused offered last sent => exact hP.entries p e.index _ hold sent
    | snapshot => exact hP.snapshot p _ hold
  send hr h := by
    obtain ⟨t, rfl, -, -⟩ := send_spec h
    exact hr.congr ⟨rfl, rfl⟩

theorem Progress.Sound.posted : Progress.Posted Progress.Sound where
  entries p last p' hp h := by
    unfold Raft.progressAfterSend at h
    split at h
    · obtain ⟨w, hadd, h⟩ := bind_ok h
      have hfull : p.inflights.isFull = false := by
        cases hfull : p.inflights.isFull with
        | false => rfl
        | true =>
            rw [InFlights.add, hfull] at hadd
            cases hadd
      obtain ⟨w', hadd', hw, -⟩ := InFlights.add_ok hp.window hfull last
      obtain rfl := Except.ok.inj (hadd.symm.trans hadd')
      rw [← Except.ok.inj h]
      exact ⟨Nat.succ_pos _, hw⟩
    · rw [← Except.ok.inj h]
      exact hp.setPause
    · cases h
  snapshot p i hp := hp.becomeSnapshot i

/-- The windows of all peers are sound, and so is that of one to come. -/
structure Raft.Windowed (r : Raft) : Prop where
  limit : r.maxInflight % 2 ^ 32 ≤ 2 ^ 31
  peers : r.EachPeer Progress.Sound

namespace Raft.Windowed

theorem congr (h : r.Windowed) (hmax : r'.maxInflight = r.maxInflight) (hpeers : SamePeers r r') : r'.Windowed :=
  ⟨hmax ▸ h.limit, h.peers.congr hpeers⟩

theorem get (h : r.Windowed) {id : Nat} {p : Progress} (hp : r.getProgress id = some p) : p.Sound := h.peers.get hp

theorem modify (h : r.Windowed) (id : Nat) {f : Progress → Progress}
    (hf : ∀ p, r.getProgress id = some p → p.Sound → (f p).Sound) : (r.modifyProgress id f).Windowed := by
  refine ⟨?_, h.peers.modify id hf⟩
  obtain ⟨prs, lprs, heq⟩ := r.modifyProgress_eq id f
  rw [heq]
  exact h.limit

theorem send (h : r.Windowed) {m : Message} (hs : r.send m = .ok r') : r'.Windowed := by
  obtain ⟨t, rfl, -, -⟩ := send_spec hs
  exact h.congr rfl ⟨rfl, rfl⟩

theorem timed (h : r.Windowed) (ht : Timed r r') : r'.Windowed := by
  obtain ⟨_, _, _, rfl⟩ := ht
  exact h.congr rfl ⟨rfl, rfl⟩

end Raft.Windowed

theorem Raft.Windowed.kept : Raft.KeptBySending Raft.Windowed where
  posting id f hr hf := by
    refine ⟨?_, Progress.Sound.posted.kept.posting id f hr.peers hf⟩
    obtain ⟨prs, lprs, heq⟩ := Raft.modifyProgress_eq _ id f
    rw [heq]
    exact hr.limit
  send hr h := hr.send h

section Sending
variable {id : Nat}

theorem sendAppend_windowed (hr : r.Windowed) (h : r.sendAppend id = .ok r') : r'.Windowed :=
  sendAppend_keeps Raft.Windowed.kept hr h

theorem bcastAppend_windowed (hr : r.Windowed) (h : r.bcastAppend = .ok r') : r'.Windowed :=
  bcastAppend_keeps Raft.Windowed.kept hr h

theorem sendAppendLoop_windowed {fuel : Nat} (hr : r.Windowed) (h : Raft.sendAppendLoop id fuel r = .ok r') : r'.Windowed :=
  sendAppendLoop_keeps Raft.Windowed.kept hr h

theorem sendAfterAck_windowed {changed paused : Bool} (hr : r.Windowed) (h : r.sendAfterAck id changed paused = .ok r') :
    r'.Windowed := sendAfterAck_keeps Raft.Windowed.kept hr h

theorem bcastHeartbeatWithCtx_windowed {ctx : Bytes} (hr : r.Windowed) (h : r.bcastHeartbeatWithCtx ctx = .ok r') :
    r'.Windowed := bcastHeartbeatWithCtx_keeps Raft.Windowed.kept hr h

theorem maybeCommit_windowed {b : Bool} (hr : r.Windowed) (h : r.maybeCommit = .ok (r', b)) : r'.Windowed := by
  obtain ⟨c, rfl⟩ := maybeCommit_frame h
  exact hr.congr rfl ⟨rfl, rfl⟩

end Sending

section Roles

theorem reset_maxInflight (r : Raft) (t : Nat) : (r.reset t).maxInflight = r.maxInflight := by
  unfold Raft.reset
  simp only
  split <;> rfl

theorem reset_windowed (hr : r.Windowed) (t : Nat) : (r.reset t).Windowed :=
  ⟨by rw [reset_maxInflight]; exact hr.limit, .reset (fun _ _ => .new hr.limit (Nat.succ_pos _) _ _) t⟩

theorem becomeFollower_windowed (hr : r.Windowed) (t lead : Nat) : (r.becomeFollower t lead).Windowed :=
  (reset_windowed hr t).congr rfl ⟨rfl, rfl⟩

theorem standing_windowed (hr : r.Windowed) : r.standing.Windowed :=
  (reset_windowed hr (r.term + 1)).congr rfl ⟨rfl, rfl⟩

theorem increaseUncommittedSize_windowed (hr : r.Windowed) (es : List Entry) : (r.increaseUncommittedSize es).1.Windowed := by
  unfold Raft.increaseUncommittedSize
  simp only
  split
  · exact hr
  · exact hr.congr rfl ⟨rfl, rfl⟩

theorem reduceUncommittedSize_windowed (hr : r.Windowed) (es : List Entry) : (r.reduceUncommittedSize es).Windowed := by
  rw [Raft.reduceUncommittedSize_eq]
  exact hr.congr rfl ⟨rfl, rfl⟩

theorem appendEntry_windowed {es : List Entry} {b : Bool} (hr : r.Windowed) (h : r.appendEntry es = .ok (r', b)) :
    r'.Windowed := by
  have hsize := increaseUncommittedSize_windowed hr (Raft.stampEntries r.term (r.raftLog.lastIndex + 1) es)
  unfold Raft.appendEntry at h
  simp only at h
  split at h
  · rename_i r₁ hr₁
    rw [hr₁] at hsize
    rwa [← (Prod.mk.inj (Except.ok.inj h)).1]
  · rename_i r₁ hr₁
    rw [hr₁] at hsize
    obtain ⟨log, -, h⟩ := bind_ok h
    have hlog : Raft.Windowed { r₁ with raftLog := log } := hsize.congr rfl ⟨rfl, rfl⟩
    split at h
    · cases h
    · obtain ⟨⟨r₂, changed⟩, h₂, h⟩ := bind_ok h
      rw [← (Prod.mk.inj (Except.ok.inj h)).1]
      exact maybeCommit_windowed (hlog.modify _ fun p _ hp => hp.maybeUpdate _) h₂

theorem becomeLeader_windowed (hr : r.Windowed) (h : r.becomeLeader = .ok r') : r'.Windowed := by
  obtain ⟨_, r₁, -, happend, rfl⟩ := becomeLeader_spec h
  have hreset := reset_windowed hr r.term
  have hr₁ : r₁.Windowed := by
    refine appendEntry_windowed (Raft.Windowed.mk ?_ ?_) happend
    · exact hreset.limit
    · intro k p hp
      simp only at hp
      rcases hp with hp | hp
      · by_cases hk : k = (r.reset r.term).id
        · rw [hk, AssocMap.lookup_modify_self] at hp
          obtain ⟨q, hq, rfl⟩ := Option.map_eq_some_iff.mp hp
          exact (hreset.peers _ q (Or.inl hq)).becomeReplicate
        · rw [AssocMap.lookup_modify_ne hk] at hp
          exact hreset.peers k p (Or.inl hp)
      · exact hreset.peers k p (Or.inr hp)
  exact reduceUncommittedSize_windowed hr₁ _

theorem sendVoteRequests_windowed {ty : MessageType} {t : Nat} (hr : r.Windowed) (h : r.sendVoteRequests ty t = .ok r') :
    r'.Windowed := by
  obtain ⟨ms, rfl, -⟩ := sendVoteRequests_spec h
  exact hr.congr rfl ⟨rfl, rfl⟩

theorem campaignElection_windowed (hr : r.Windowed) (hl : r.state ≠ .leader) (h : r.campaignElection = .ok r') : r'.Windowed := by
  rw [campaignElection_eq hl] at h
  split at h
  · exact becomeLeader_windowed (standing_windowed hr) h
  · exact sendVoteRequests_windowed (standing_windowed hr) h

theorem campaign_windowed {ty : CampaignType} (hr : r.Windowed) (hl : r.state ≠ .leader) (h : r.campaign ty = .ok r') :
    r'.Windowed := by
  have hasking : r.asking.Windowed := hr.congr rfl ⟨rfl, rfl⟩
  rw [campaign_eq hl] at h
  split at h
  · split at h
    · exact campaignElection_windowed hasking nofun h
    · exact sendVoteRequests_windowed hasking h
  · exact campaignElection_windowed hr hl h

theorem stepHup_windowed (hr : r.Windowed) (h : r.stepHup = .ok r') : r'.Windowed := by
  rcases stepHup_cases h with rfl | ⟨hl, hcampaign⟩
  · exact hr
  · exact campaign_windowed hr hl hcampaign

end Roles

section Following

theorem handleAppendEntries_windowed (hr : r.Windowed) (h : r.handleAppendEntries msg = .ok r') : r'.Windowed := by
  obtain ⟨log, m, -, -, hsent⟩ := handleAppendEntries_cases h
  have hlog : Raft.Windowed { r with raftLog := log } := hr.congr rfl ⟨rfl, rfl⟩
  exact hlog.send hsent

theorem handleHeartbeat_windowed (hr : r.Windowed) (h : r.handleHeartbeat msg = .ok r') : r'.Windowed := by
  obtain ⟨log, -, h⟩ := bind_ok h
  have hlog : Raft.Windowed { r with raftLog := log } := hr.congr rfl ⟨rfl, rfl⟩
  exact hlog.send h

theorem setProgress_windowed {id matched next : Nat} {b : Bool} (hr : r.Windowed) (hnext : 1 ≤ next)
    (h : r.setProgress id matched next b = .ok r') : r'.Windowed := by
  refine ⟨?_, hr.peers.setProgress (fun b => .new hr.limit hnext matched b) h⟩
  obtain ⟨⟨prs, lprs, rfl⟩, -⟩ := setProgress_spec h
  exact hr.limit

theorem restoreNode_windowed {ids : List Nat} {b : Bool} (hr : r.Windowed) (h : r.restoreNode ids b = .ok r') : r'.Windowed := by
  refine Outcome.foldlM_keeps (I := Raft.Windowed) (fun r₁ id r₂ hr₁ h₁ => ?_) ids hr h
  obtain ⟨r₃, h₃, h₁⟩ := bind_ok h₁
  split at h₁
  · cases h₁
  · rw [← Except.ok.inj h₁]
    refine setProgress_windowed ?_ (Nat.succ_pos _) h₃
    split
    · exact hr₁.congr rfl ⟨rfl, rfl⟩
    · exact hr₁

theorem restore_windowed {s : Snapshot} {b : Bool} (hr : r.Windowed) (h : r.restore s = .ok (r', b)) : r'.Windowed := by
  unfold Raft.restore at h
  split at h
  · rwa [← (Prod.mk.inj (Except.ok.inj h)).1]
  split at h
  · obtain ⟨log, -, h⟩ := bind_ok h
    rw [← (Prod.mk.inj (Except.ok.inj h)).1]
    exact hr.congr rfl ⟨rfl, rfl⟩
  split at h
  · rwa [← (Prod.mk.inj (Except.ok.inj h)).1]
  · obtain ⟨r₁, h₁, h⟩ := bind_ok h
    obtain ⟨r₂, h₂, h⟩ := bind_ok h
    rw [← (Prod.mk.inj (Except.ok.inj h)).1]
    refine restoreNode_windowed (restoreNode_windowed (Raft.Windowed.mk ?_ ?_) h₁) h₂
    · exact hr.limit
    · rintro k p (hp | hp) <;> cases hp

theorem handleSnapshot_windowed (hr : r.Windowed) (h : r.handleSnapshot msg = .ok r') : r'.Windowed := by
  obtain ⟨⟨r₁, b⟩, h₁, h⟩ := bind_ok h
  exact (restore_windowed hr h₁).send h

theorem stepCandidate_windowed {st : Status} (hr : r.Windowed) (h : r.stepCandidate msg = .ok (r', st)) : r'.Windowed := by
  have hfollow := becomeFollower_windowed hr msg.term msg.from_
  cases stepCandidate_step h with
  | keeps same => rwa [same]
  | appends type handled => exact handleAppendEntries_windowed hfollow handled
  | beats type handled => exact handleHeartbeat_windowed hfollow handled
  | restores type handled => exact handleSnapshot_windowed hfollow handled
  | counts type c polled votes frame tally =>
      have hcount : c.Windowed := by
        rw [frame]
        exact hr.congr rfl ⟨rfl, rfl⟩
      cases tally with
      | stands quorum role campaign => exact campaign_windowed hcount (by simp [role]) campaign
      | wins quorum role l lead cast => exact bcastAppend_windowed (becomeLeader_windowed hcount lead) cast
      | loses follows =>
          rw [follows]
          exact becomeFollower_windowed hcount _ _
      | waits same => rwa [same]

theorem stepFollower_windowed {st : Status} (hr : r.Windowed) (hf : r.state = .follower)
    (h : r.stepFollower msg = .ok (r', st)) : r'.Windowed := by
  have hlead : Raft.Windowed { r with electionElapsed := 0, lead := msg.from_ } := hr.congr rfl ⟨rfl, rfl⟩
  cases stepFollower_step h with
  | keeps unread same => rwa [same]
  | forwards type sent => exact hr.send sent
  | appends type handled => exact handleAppendEntries_windowed hlead handled
  | beats type handled => exact handleHeartbeat_windowed hlead handled
  | restores type handled => exact handleSnapshot_windowed hlead handled
  | stands type promotable campaign => exact campaign_windowed hr (by simp [hf]) campaign
  | reads type e one noted =>
      rw [noted]
      exact hr.congr rfl ⟨rfl, rfl⟩

theorem stepVote_windowed (hr : r.Windowed) (h : r.stepVote msg = .ok r') : r'.Windowed := by
  obtain ⟨ms, elapsed, vote, rfl⟩ := stepVote_frame h
  exact hr.congr rfl ⟨rfl, rfl⟩

end Following

section Leading

theorem leaderProp_windowed {st : Status} (hr : r.Windowed) (h : r.leaderProp msg = .ok (r', st)) : r'.Windowed := by
  have happends : ∀ {r₁ : Raft} {ok : Bool}, (r.filterConfChanges 0 msg.entries).1.appendEntry
      (r.filterConfChanges 0 msg.entries).2 = .ok (r₁, ok) → r₁.Windowed := by
    intro r₁ ok happend
    obtain ⟨p, hfilter⟩ := filterConfChanges_frame r 0 msg.entries
    refine appendEntry_windowed ?_ happend
    rw [hfilter]
    exact hr.congr rfl ⟨rfl, rfl⟩
  cases leaderProp_proposes h with
  | refuses why status same => rwa [same]
  | drops member settled append status => exact happends append
  | takes nonempty r₁ append cast status => exact bcastAppend_windowed (happends append) cast

theorem leaderReadIndex_windowed (hr : r.Windowed) (h : r.leaderReadIndex msg = .ok r') : r'.Windowed := by
  cases leaderReadIndex_cases h with
  | waits many term same => rwa [same]
  | queues many safe ro ctx add context beat =>
      refine bcastHeartbeatWithCtx_windowed ?_ beat
      exact hr.congr rfl ⟨rfl, rfl⟩
  | reads why ctx context read =>
      rw [read]
      exact hr.congr rfl ⟨rfl, rfl⟩
  | replies many lease other sent => exact hr.send sent

theorem leaderAppResp_windowed (hr : r.Windowed) (h : r.leaderAppResp msg = .ok r') : r'.Windowed := by
  have hactive : (r.modifyProgress msg.from_ fun p => { p with recentActive := true }).Windowed :=
    hr.modify msg.from_ fun p _ hp => ⟨hp.next_pos, hp.window⟩
  unfold Raft.leaderAppResp at h
  simp only at h
  generalize (r.modifyProgress msg.from_ fun p => { p with recentActive := true }) = r₁ at hactive h
  split at h
  · rwa [← Except.ok.inj h]
  rename_i pr hpr
  have hsound := hactive.get hpr
  split at h
  · have hdown := hsound.maybeDecreasesTo msg.index msg.rejectHint
    split at h
    · rwa [← Except.ok.inj h]
    · rename_i q hq
      rw [hq] at hdown
      refine sendAppend_windowed (hactive.modify _ fun _ _ _ => ?_) h
      split
      · exact hdown.becomeProbe
      · exact hdown
  · have hup := hsound.maybeUpdate msg.index
    split at h
    · rename_i q hq
      rw [hq] at hup
      rw [← Except.ok.inj h]
      exact hactive.modify _ fun _ _ _ => hup
    · rename_i q hq
      rw [hq] at hup
      obtain ⟨q', hack, h⟩ := bind_ok h
      obtain ⟨q'', hack', hsound'⟩ := hup.ack msg.index
      obtain rfl := Except.ok.inj (hack.symm.trans hack')
      obtain ⟨⟨r₂, changed⟩, h₂, h⟩ := bind_ok h
      obtain ⟨r₃, h₃, h⟩ := bind_ok h
      obtain ⟨r₄, h₄, h⟩ := bind_ok h
      have hr₄ := sendAppendLoop_windowed (sendAfterAck_windowed (maybeCommit_windowed
        (hactive.modify _ fun _ _ _ => hsound') h₂) h₃) h₄
      split at h
      · rwa [← Except.ok.inj h]
      split at h
      · exact hr₄.send h
      · rwa [← Except.ok.inj h]

theorem answerReads_windowed {rss : List ReadIndexStatus} (hr : r.Windowed) (h : r.answerReads rss = .ok r') : r'.Windowed := by
  refine Outcome.foldlM_keeps (I := Raft.Windowed) (fun r₁ rs r₂ hr₁ h₁ => ?_) rss hr h
  split at h₁
  · obtain ⟨ctx, -, h₁⟩ := bind_ok h₁
    rw [← Except.ok.inj h₁]
    exact hr₁.congr rfl ⟨rfl, rfl⟩
  · exact hr₁.send h₁

theorem leaderHeartbeatResp_windowed (hr : r.Windowed) (h : r.leaderHeartbeatResp msg = .ok r') : r'.Windowed := by
  unfold Raft.leaderHeartbeatResp at h
  split at h
  · rwa [← Except.ok.inj h]
  rename_i pr hpr
  obtain ⟨q, hbeat, h⟩ := bind_ok h
  obtain ⟨q', hbeat', hsound⟩ := (hr.get hpr).beat
  obtain rfl := Except.ok.inj (hbeat.symm.trans hbeat')
  have hr₁ : (r.modifyProgress msg.from_ fun _ => q).Windowed := hr.modify _ fun _ _ _ => hsound
  obtain ⟨r₂, h₂, h⟩ := bind_ok h
  have hr₂ : r₂.Windowed := by
    split at h₂
    · exact sendAppend_windowed hr₁ h₂
    · rwa [← Except.ok.inj h₂]
  split at h
  · rwa [← Except.ok.inj h]
  simp only at h
  split at h
  · rw [← Except.ok.inj h]
    exact hr₂.congr rfl ⟨rfl, rfl⟩
  · obtain ⟨⟨readOnly, rss⟩, -, h⟩ := bind_ok h
    refine answerReads_windowed ?_ h
    exact hr₂.congr rfl ⟨rfl, rfl⟩

theorem leaderSnapStatus_windowed (hr : r.Windowed) (msg : Message) : (r.leaderSnapStatus msg).Windowed := by
  refine hr.modify _ fun p _ hp => ?_
  split
  · exact hp
  split
  · exact hp.becomeProbe.setPause
  · have hfail : p.snapshotFailure.Sound := ⟨hp.next_pos, hp.window⟩
    exact hfail.becomeProbe.setPause

theorem leaderTransferLeader_windowed {pr : Progress} (hr : r.Windowed) (h : r.leaderTransferLeader pr msg = .ok r') :
    r'.Windowed := by
  have hasked : Raft.Windowed { r with electionElapsed := 0, leadTransferee := msg.from_ } := hr.congr rfl ⟨rfl, rfl⟩
  cases leaderTransferLeader_cases h with
  | keeps why same => rwa [same]
  | aborts self transferee frame =>
      rw [frame]
      exact hr.congr rfl ⟨rfl, rfl⟩
  | urges other sent => exact hasked.send sent
  | appends other sent => exact sendAppend_windowed hasked sent

theorem stepLeaderProgress_windowed (hr : r.Windowed) (h : r.stepLeaderProgress msg = .ok r') : r'.Windowed := by
  unfold Raft.stepLeaderProgress at h
  split at h
  · rwa [← Except.ok.inj h]
  split at h
  · exact leaderAppResp_windowed hr h
  · exact leaderHeartbeatResp_windowed hr h
  · rw [← Except.ok.inj h]
    exact leaderSnapStatus_windowed hr msg
  · rw [← Except.ok.inj h]
    refine hr.modify _ fun p _ hp => ?_
    split
    · exact hp.becomeProbe
    · exact hp
  · exact leaderTransferLeader_windowed hr h
  · rwa [← Except.ok.inj h]

theorem stepLeader_windowed {st : Status} (hr : r.Windowed) (h : r.stepLeader msg = .ok (r', st)) : r'.Windowed := by
  unfold Raft.stepLeader at h
  split at h
  · exact bcastHeartbeatWithCtx_windowed hr (withOk_ok h)
  · rw [← (Prod.mk.inj (Except.ok.inj h)).1]
    split
    · exact becomeFollower_windowed hr _ _
    · exact hr
  · exact leaderProp_windowed hr h
  · exact leaderReadIndex_windowed hr (withOk_ok h)
  · exact stepLeaderProgress_windowed hr (withOk_ok h)

end Leading

section Operations
variable {n n₀ n' : RawNode}

theorem stepBody_windowed {st : Status} (hr : r.Windowed) (h : r.stepBody msg = .ok (r', st)) : r'.Windowed := by
  unfold Raft.stepBody at h
  split at h
  · exact stepHup_windowed hr (withOk_ok h)
  · exact stepVote_windowed hr (withOk_ok h)
  · exact stepVote_windowed hr (withOk_ok h)
  · split at h
    · rename_i hf
      exact stepFollower_windowed hr hf h
    · exact stepCandidate_windowed hr h
    · exact stepCandidate_windowed hr h
    · exact stepLeader_windowed hr h

theorem step_windowed {st : Status} (hr : r.Windowed) (h : r.step msg = .ok (r', st)) : r'.Windowed := by
  cases step_way h with
  | stays term body => exact stepBody_windowed hr body
  | follows later lead heard body => exact stepBody_windowed (becomeFollower_windowed hr _ _) body
  | leased later type same => rwa [same]
  | stale sent earlier lower =>
      rcases lowerTerm_cases lower with rfl | ⟨m, -, hsent⟩
      · exact hr
      · exact hr.send hsent

theorem tick_windowed (hr : r.Windowed) (h : r.tick = .ok r') : r'.Windowed := by
  cases tick_ticks h with
  | waits timed => exact hr.timed timed
  | stands r₁ timed role promotable st step => exact step_windowed (hr.timed timed) step
  | beats r₁ r₂ r₃ role timed check timed' beat =>
      have hr₂ : r₂.Windowed := by
        rcases check with rfl | ⟨st, hstep⟩
        · exact hr.timed timed
        · exact step_windowed (hr.timed timed) hstep
      rcases beat with rfl | ⟨-, st, hstep⟩
      · exact hr₂.timed timed'
      · exact step_windowed (hr₂.timed timed') hstep

theorem addNodeOrLearner_windowed {id : Nat} {b : Bool} (hr : r.Windowed) (h : r.addNodeOrLearner id b = .ok r') :
    r'.Windowed := by
  refine ⟨?_, hr.peers.addNodeOrLearner (fun b => .new hr.limit (Nat.succ_pos _) 0 b)
    (fun _ _ _ hp => ⟨hp.next_pos, hp.window⟩) h⟩
  obtain ⟨prs, lprs, l, rfl⟩ := addNodeOrLearner_frame h
  exact hr.limit

theorem removeNode_windowed {id : Nat} (hr : r.Windowed) (h : r.removeNode id = .ok r') : r'.Windowed := by
  have hdel : (r.delProgress id).Windowed := ⟨hr.limit, hr.peers.delProgress id⟩
  rcases removeNode_cases h with rfl | ⟨r₁, changed, r₂, hcommit, hsent, htimed⟩
  · exact hdel
  have hr₁ := maybeCommit_windowed hdel hcommit
  rcases hsent with ⟨-, rfl⟩ | ⟨-, hbcast⟩
  · exact hr₁.timed htimed
  · exact (bcastAppend_windowed hr₁ hbcast).timed htimed

theorem applyConfChange_windowed {cc : ConfChange} {cs : ConfState} (hr : n.raft.Windowed)
    (h : n.applyConfChange cc = .ok (n', cs)) : n'.raft.Windowed := by
  cases (applyConfChange_configures h).1 with
  | ignores change same => rwa [same]
  | adds node type add => exact addNodeOrLearner_windowed hr add
  | addsLearner node type add => exact addNodeOrLearner_windowed hr add
  | removes node type remove => exact removeNode_windowed hr remove

/-- No operation of a node breaks the window of a peer. -/
theorem run_windowed {a : NodeAction} (hr : n.raft.Windowed) (h : n.run a = .ok n') : n'.raft.Windowed := by
  cases run_operates h with
  | refuses message same => rwa [same]
  | steps msg message r' st step node =>
      rw [node]
      exact step_windowed hr step
  | ticks action r' tick node =>
      rw [node]
      exact tick_windowed hr tick
  | configures cc action cs apply => exact applyConfChange_windowed hr apply
  | readies action rd ready =>
      rw [ready_frame ready]
      exact hr.congr rfl ⟨rfl, rfl⟩
  | advances rd action node =>
      rw [node]
      exact hr.congr rfl ⟨rfl, rfl⟩
  | stores storage action node =>
      rw [node]
      exact hr.congr rfl ⟨rfl, rfl⟩

theorem new_windowed {c : Config} (hmax : c.maxInflightMsgs % 2 ^ 32 ≤ 2 ^ 31) (h : Raft.new c = .ok r) : r.Windowed := by
  obtain ⟨⟨peers, learners⟩, -, h⟩ := bind_ok h
  obtain ⟨r₁, h₁, h⟩ := bind_ok h
  obtain ⟨r₂, h₂, h⟩ := bind_ok h
  have hvoters : ∀ (ids : List Nat) (m : AssocMap Nat Progress), (∀ k q, m.lookup k = some q → q.Sound) →
      ∀ k q, (ids.foldl (fun m peer => m.insert peer { Progress.new c.maxInflightMsgs with next := 1 }) m).lookup k = some q →
        q.Sound := by
    intro ids
    induction ids with
    | nil => exact fun m hm => hm
    | cons id ids ih =>
        refine fun m hm => ih _ fun k q hq => ?_
        rcases Raft.EachPeer.lookup_insert_cases hq with ⟨-, rfl⟩ | hold
        · exact .new hmax le_rfl 0 false
        · exact hm k q hold
  have hr₁ : r₁.Windowed := by
    refine Outcome.foldlM_keeps (I := Raft.Windowed) (fun g id g' hg hadd => ?_) learners (Raft.Windowed.mk ?_ ?_) h₁
    · split at hadd
      · cases hadd
      · rw [← Except.ok.inj hadd]
        have hnew : Progress.Sound { Progress.new g.maxInflight with next := 1, isLearner := true } :=
          .new hg.limit le_rfl 0 true
        exact ⟨hg.limit, Raft.EachPeer.insert id hnew hg.peers (fun _ _ hq => Or.inr hq)
          fun _ _ hq => Raft.EachPeer.lookup_insert_cases hq⟩
    · exact hmax
    · intro k p hp
      rcases hp with hp | hp
      · exact hvoters peers ∅ nofun k p hp
      · cases hp
  have hr₂ : r₂.Windowed := by
    split at h₂
    · unfold Raft.loadState at h₂
      split at h₂
      · cases h₂
      · rw [← Except.ok.inj h₂]
        exact hr₁.congr rfl ⟨rfl, rfl⟩
    · rwa [← Except.ok.inj h₂]
  rw [← Except.ok.inj h]
  refine becomeFollower_windowed ?_ _ _
  split
  · exact hr₂.congr rfl ⟨rfl, rfl⟩
  · exact hr₂

theorem started_windowed {c : Config} (hmax : c.maxInflightMsgs % 2 ^ 32 ≤ 2 ^ 31)
    (h : RawNode.restartNode c = .ok n ∨ ∃ serialize peers, RawNode.startNode serialize c peers = .ok n) :
    n.raft.Windowed := by
  refine started_holds h (fun r hr => new_windowed hmax hr) (fun r es log hr _ _ _ => ?_) fun r r' id hr hadd =>
    addNodeOrLearner_windowed hr hadd
  exact (becomeFollower_windowed (new_windowed hmax hr) 1 0).congr rfl ⟨rfl, rfl⟩

end Operations

end RaftEtcd
