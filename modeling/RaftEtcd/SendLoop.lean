import RaftEtcd.Lib.Loop
import RaftEtcd.NextIndex

/-! The loop in which a leader sends its peer what has become due after an acknowledgement. -/
namespace RaftEtcd
variable {r r' g g' : Raft} {msg m : Message} {p p' : Progress} {id : Nat}

/-- An append to the peer with some entries, the first of which is the given one. -/
structure Message.Brings (m : Message) (id next : Nat) : Prop where
  type : m.type = .msgApp
  to_ : m.to_ = id
  index : m.index = next - 1
  nonempty : m.entries ≠ []
  numbered : IndexedFrom next m.entries

/-- Appends of which each begins where the one before it ends. -/
def Consecutive (id : Nat) : Nat → List Message → Prop
  | _, [] => True
  | next, m :: ms => m.Brings id next ∧ Consecutive id (next + m.entries.length) ms

namespace Progress

/-- How many appends with entries the peer takes before it is paused. -/
def room (p : Progress) : Nat :=
  match p.state with
  | .probe => if p.paused then 0 else 1
  | .replicate => p.inflights.size - p.inflights.count
  | .snapshot => 0

/-- How many appends with entries can be made of a log that ends at `last`. -/
def rounds (last : Nat) (p : Progress) : Nat :=
  match p.state with
  | .probe => if p.paused then 0 else 1
  | .replicate => last + 1 - p.next
  | .snapshot => 0

theorem rounds_le (last : Nat) (p : Progress) : p.rounds last ≤ last + 1 := by
  unfold rounds
  split
  · split <;> omega
  · omega
  · omega

end Progress

/-- What a round of the loop does that is not the last. -/
inductive SendRound (g g' : Raft) (id : Nat) (p : Progress) : Prop
  | entries (m : Message) (p' : Progress) (brings : m.Brings id p.next) (msgs : g'.msgs = g.msgs ++ [m])
      (progress : g'.getProgress id = some p') (laid : p'.inflights.Laid) (room : p'.room < p.room)
      (rounds : p'.rounds g.raftLog.lastIndex < p.rounds g.raftLog.lastIndex)
      (next : p'.room ≠ 0 → p'.next = p.next + m.entries.length)
  | snapshot (m : Message) (p' : Progress) (type : m.type = .msgSnap) (to_ : m.to_ = id) (msgs : g'.msgs = g.msgs ++ [m])
      (progress : g'.getProgress id = some p') (laid : p'.inflights.Laid) (left : 0 < p.rounds g.raftLog.lastIndex)
      (done : p'.rounds g.raftLog.lastIndex = 0)

/-- Sending the entries takes up room. -/
theorem progressAfterSend_room {last i : Nat} (hw : p.inflights.Laid) (hpaused : p.isPaused = false) (hlow : p.next ≤ i)
    (hhigh : i ≤ last) (h : Raft.progressAfterSend p i = .ok p') :
    p'.inflights.Laid ∧ p'.room < p.room ∧ p'.rounds last < p.rounds last ∧ (p'.room ≠ 0 → p'.next = i + 1) := by
  unfold Raft.progressAfterSend at h
  cases hstate : p.state with
  | probe =>
      simp only [hstate] at h
      simp only [Progress.isPaused, hstate] at hpaused
      rw [← Except.ok.inj h]
      simp only [Progress.room, Progress.rounds, Progress.setPause, hstate, hpaused]
      exact ⟨hw, Nat.one_pos, Nat.one_pos, fun hne => absurd (if_pos trivial) hne⟩
  | replicate =>
      simp only [hstate] at h
      obtain ⟨w, hadd, h⟩ := bind_ok h
      obtain ⟨hfull, hlaid, hsent, hsize⟩ := hw.add hadd
      have hcount : w.count = p.inflights.count + 1 := by
        rw [← hlaid.length, hsent, List.length_append, hw.length, List.length_singleton]
      have hle := hlaid.count_le
      rw [← Except.ok.inj h]
      simp only [Progress.room, Progress.rounds, Progress.optimisticUpdate, hstate]
      exact ⟨hlaid, by omega, by omega, fun _ => trivial⟩
  | snapshot =>
      simp only [hstate] at h
      cases h

theorem sendRound_spec (hlog : g.raftLog.Orderly) (hp : g.getProgress id = some p) (hw : p.inflights.Laid)
    (h : g.maybeSendAppend id false = .ok (g', true)) : SendRound g g' id p := by
  -- the message goes out with the progress noted
  have hsend : ∀ {f : Progress → Progress} {m : Message}, (g.modifyProgress id f).send m = .ok g' →
      (∃ t, g'.msgs = g.msgs ++ [{ m with from_ := g.id, term := t }]) ∧ g'.getProgress id = some (f p) := by
    intro f m h
    obtain ⟨t, rfl, -, -⟩ := send_spec h
    have hget := Raft.getProgress_modifyProgress g id id f
    rw [if_pos rfl, hp] at hget
    obtain ⟨prs, lprs, heq⟩ := g.modifyProgress_eq id f
    rw [heq] at hget ⊢
    exact ⟨⟨t, rfl⟩, hget⟩
  obtain ⟨q, hq, hs⟩ := maybeSendAppend_supplies h
  obtain rfl := Option.some.inj (hp.symm.trans hq)
  have hnonempty : ∀ {es : List Entry}, es ≠ [] ∨ false = true → es ≠ [] := fun hdue => hdue.resolve_right nofun
  cases hs with
  | entries t status es p' _ ready before offered due noted sent =>
      have hne := hnonempty due
      obtain ⟨hidx, hfits⟩ := hlog.offered offered
      have hfits := hfits hne
      rcases noted with ⟨hnil, -⟩ | ⟨e, hlast, hp'⟩
      · exact absurd hnil hne
      obtain ⟨⟨t, hmsgs⟩, hget⟩ := hsend sent
      obtain ⟨front, rfl⟩ := List.getLast?_eq_some_iff.mp hlast
      have hindex := hidx front.length e (by simp)
      rw [List.length_append, List.length_singleton] at hfits
      obtain ⟨hlaid, hroom, hrounds, hnext⟩ := progressAfterSend_room hw ready (by omega)
        (show e.index ≤ g.raftLog.lastIndex by omega) hp'
      refine .entries _ p' ⟨rfl, rfl, rfl, hne, hidx⟩ hmsgs hget hlaid hroom hrounds fun hroom => ?_
      rw [hnext hroom, hindex, List.length_append, List.length_singleton]
      rfl
  | snapshot status es _ ready offered due missing sent =>
      have hne := hnonempty due
      have hfits := (hlog.offered offered).2 hne
      have hpos := List.length_pos_iff.mpr hne
      obtain ⟨⟨t, hmsgs⟩, hget⟩ := hsend sent
      refine .snapshot _ _ rfl rfl hmsgs hget hw.reset ?_ rfl
      unfold Progress.rounds
      unfold Progress.isPaused at ready
      cases hstate : p.state with
      | probe =>
          simp only [hstate] at ready ⊢
          rw [ready, if_neg (by decide)]
          exact Nat.one_pos
      | replicate =>
          simp only
          omega
      | snapshot =>
          simp only [hstate] at ready
          cases ready

theorem maybeSendAppend_stops {e : Bool} (h : g.maybeSendAppend id e = .ok (g', false)) : g' = g := by
  obtain ⟨p, -, hs⟩ := maybeSendAppend_supplies h
  cases hs with
  | waits paused => rfl
  | spares status offered unasked => rfl
  | skips status es offered missing inactive => rfl

theorem sendAppendLoop_eq (id fuel : Nat) (r : Raft) : Raft.sendAppendLoop id fuel r =
    Loop.repeatFor "maybe_send_append keeps returning true" (fun r => r.maybeSendAppend id false) fuel r := by
  induction fuel generalizing r with
  | zero => rfl
  | succ fuel ih =>
      rw [Raft.sendAppendLoop, Loop.repeatFor]
      cases r.maybeSendAppend id false with
      | error e => rfl
      | ok q =>
          obtain ⟨r', sent⟩ := q
          cases sent with
          | false => rfl
          | true => exact ih r'

/-- The log is in order and the window of the peer laid out in its buffer. -/
def Raft.Serves (id : Nat) (g : Raft) : Prop := g.raftLog.Orderly ∧ ∃ p, g.getProgress id = some p ∧ p.inflights.Laid

/-- The rounds that are left for the peer. -/
def Raft.roundsFor (id : Nat) (g : Raft) : Nat := ((g.getProgress id).map (Progress.rounds g.raftLog.lastIndex)).getD 0

theorem Raft.roundsFor_eq (hp : g.getProgress id = some p) : g.roundsFor id = p.rounds g.raftLog.lastIndex := by
  rw [Raft.roundsFor, hp]
  rfl

theorem Raft.Serves.round (hg : g.Serves id) (h : g.maybeSendAppend id false = .ok (g', true)) :
    g'.Serves id ∧ g'.roundsFor id < g.roundsFor id := by
  obtain ⟨hlog, p, hp, hw⟩ := hg
  have hsame := (maybeSendAppend_posts h).raftLog
  have hnext : ∀ p', g'.getProgress id = some p' → p'.inflights.Laid →
      p'.rounds g.raftLog.lastIndex < p.rounds g.raftLog.lastIndex → g'.Serves id ∧ g'.roundsFor id < g.roundsFor id := by
    intro p' hp' hlaid hlt
    rw [Raft.roundsFor_eq hp, Raft.roundsFor_eq hp', hsame]
    exact ⟨⟨by rw [hsame]; exact hlog, p', hp', hlaid⟩, hlt⟩
  cases sendRound_spec hlog hp hw h with
  | entries m p' brings msgs progress laid room rounds next => exact hnext p' progress laid rounds
  | snapshot m p' type to_ msgs progress laid left done => exact hnext p' progress laid (by omega)

/-- The loop ends before its bound is reached. -/
theorem sendAppendLoop_repeats (hg : g.Serves id) : Loop.Repeats (fun r => r.maybeSendAppend id false) g
    (Raft.sendAppendLoop id (g.raftLog.lastIndex + 2) g) := by
  rw [sendAppendLoop_eq]
  refine Loop.repeatFor_repeats (I := Raft.Serves id) (μ := Raft.roundsFor id) _ (fun g g' hg h => hg.round h) hg ?_
  obtain ⟨-, p, hp, -⟩ := hg
  rw [Raft.roundsFor_eq hp]
  exact Nat.lt_succ_of_le (p.rounds_le _)

/-- What the loop sends when it returns. -/
theorem sends_consecutive (h : Loop.Repeats (fun r => r.maybeSendAppend id false) g (.ok g')) (hlog : g.raftLog.Orderly)
    (hp : g.getProgress id = some p) (hw : p.inflights.Laid) :
    ∃ apps snaps, g'.msgs = g.msgs ++ (apps ++ snaps) ∧ Consecutive id p.next apps ∧ apps.length ≤ p.room ∧
      (snaps = [] ∨ ∃ m : Message, snaps = [m] ∧ m.type = .msgSnap ∧ m.to_ = id) ∧
      apps.length + snaps.length ≤ p.rounds g.raftLog.lastIndex := by
  generalize hout : (Except.ok g' : Result Raft) = out at h
  induction h generalizing p with
  | fails failed => cases hout
  | @stops g g₁ done =>
      obtain rfl := Except.ok.inj hout
      rw [maybeSendAppend_stops done]
      exact ⟨[], [], (List.append_nil _).symm, trivial, Nat.zero_le _, Or.inl rfl, Nat.zero_le _⟩
  | @again g g₁ out more rest ih =>
      have hsame := (maybeSendAppend_posts more).raftLog
      cases sendRound_spec hlog hp hw more with
      | entries m p' brings msgs progress laid room rounds next =>
          obtain ⟨apps, snaps, hmsgs, hcons, hroom, hsnaps, hrounds⟩ := ih (hsame ▸ hlog) progress laid hout
          rw [hsame] at hrounds
          refine ⟨m :: apps, snaps, ?_, ⟨brings, ?_⟩, ?_, hsnaps, ?_⟩
          · rw [hmsgs, msgs, List.append_assoc]
            rfl
          · by_cases hnone : p'.room = 0
            · -- the peer is paused now, so that was the last message
              rw [hnone] at hroom
              rw [List.length_eq_zero_iff.mp (Nat.le_zero.mp hroom)]
              trivial
            · rwa [← next hnone]
          · rw [List.length_cons]
            omega
          · rw [List.length_cons]
            omega
      | snapshot m p' type to_ msgs progress laid left done =>
          obtain ⟨apps, snaps, hmsgs, -, -, -, hrounds⟩ := ih (hsame ▸ hlog) progress laid hout
          rw [hsame, done, Nat.le_zero, Nat.add_eq_zero_iff, List.length_eq_zero_iff, List.length_eq_zero_iff] at hrounds
          obtain ⟨rfl, rfl⟩ := hrounds
          refine ⟨[], [m], ?_, trivial, Nat.zero_le _, Or.inr ⟨m, rfl, type, to_⟩, left⟩
          rw [hmsgs, msgs, List.append_assoc]
          rfl

/-! ### After an acknowledgement -/

/-- What a leader does with an accepting `MsgAppResp` up to the loop, if the response brings news. -/
def Raft.beforeSendLoop (r : Raft) (msg : Message) : Result (Option Raft) :=
  let r := r.modifyProgress msg.from_ fun p => { p with recentActive := true }
  match r.getProgress msg.from_ with
  | none => .ok none
  | some pr =>
      let oldPaused := pr.isPaused
      match pr.maybeUpdate msg.index with
      | (_, false) => .ok none
      | (pr, true) => do
          let pr ← progressAfterAck pr msg.index
          let r := r.modifyProgress msg.from_ fun _ => pr
          let (r, changed) ← r.maybeCommit
          let r ← r.sendAfterAck msg.from_ changed oldPaused
          .ok (some r)

/-- What follows the loop: a transfer of the leadership may go on. -/
def Raft.afterSendLoop (r : Raft) (msg : Message) : Result Raft :=
  match r.getProgress msg.from_ with
  | none => .ok r
  | some pr =>
      if msg.from_ = r.leadTransferee ∧ pr.matched = r.raftLog.lastIndex then r.sendTimeoutNow msg.from_ else .ok r

theorem leaderAppResp_loop (haccept : msg.reject = false) (h : r.beforeSendLoop msg = .ok (some g)) :
    r.leaderAppResp msg = (Raft.sendAppendLoop msg.from_ (g.raftLog.lastIndex + 2) g >>= fun r => r.afterSendLoop msg) := by
  unfold Raft.beforeSendLoop at h
  unfold Raft.leaderAppResp
  simp only [haccept, Bool.false_eq_true, if_false] at h ⊢
  revert h
  generalize r.modifyProgress msg.from_ (fun p => { p with recentActive := true }) = r₁
  cases r₁.getProgress msg.from_ with
  | none =>
      intro h
      cases h
  | some pr =>
      simp only
      obtain ⟨q, updated⟩ := pr.maybeUpdate msg.index
      cases updated with
      | false =>
          intro h
          cases h
      | true =>
          intro h
          obtain ⟨q', hack, h⟩ := bind_ok h
          obtain ⟨⟨r₂, changed⟩, h₂, h⟩ := bind_ok h
          obtain ⟨r₃, h₃, h⟩ := bind_ok h
          obtain rfl := Option.some.inj (Except.ok.inj h)
          simp only [hack]
          change (Raft.maybeCommit _ >>= _) = _
          rw [h₂]
          change (r₂.sendAfterAck msg.from_ changed pr.isPaused >>= _) = _
          rw [h₃]
          rfl

/-- An invariant that the news and what is sent on them keep. -/
theorem beforeSendLoop_keeps {I : Raft → Prop} (hI : Raft.KeptBySending I)
    (hcommit : ∀ {r r' : Raft} {b : Bool}, I r → r.maybeCommit = .ok (r', b) → I r')
    (hnews : ∀ p q, r.getProgress msg.from_ = some p → p.hear msg = .ok q →
      I ((r.modifyProgress msg.from_ fun p => { p with recentActive := true }).modifyProgress msg.from_ fun _ => q))
    (hty : msg.type = .msgAppResp) (haccept : msg.reject = false) (h : r.beforeSendLoop msg = .ok (some g)) : I g := by
  have hget := Raft.getProgress_modifyProgress r msg.from_ msg.from_ fun p => { p with recentActive := true }
  rw [if_pos rfl] at hget
  unfold Raft.beforeSendLoop at h
  simp only at h
  rw [hget] at h
  cases hp : r.getProgress msg.from_ with
  | none =>
      rw [hp] at h
      cases h
  | some p =>
      have hheard := hnews p
      simp only [Progress.hear, hty, haccept, Bool.false_eq_true, if_false] at hheard
      simp only [hp, Option.map_some] at h
      split at h
      · cases h
      rename_i q hq
      rw [hq] at hheard
      obtain ⟨q', hack, h⟩ := bind_ok h
      obtain ⟨⟨r₂, changed⟩, h₂, h⟩ := bind_ok h
      obtain ⟨r₃, h₃, h⟩ := bind_ok h
      obtain rfl := Option.some.inj (Except.ok.inj h)
      exact sendAfterAck_keeps hI (hcommit (hheard q' hp hack) h₂) h₃

theorem RaftLog.Servable.maybeCommit {l l' : RaftLog} {i t : Nat} {b : Bool} (h : l.Servable)
    (hs : l.maybeCommit i t = .ok (l', b)) : l'.Servable := by
  unfold RaftLog.maybeCommit at hs
  split at hs
  · rename_i hgt
    split at hs
    · cases hs
    split at hs
    · obtain ⟨l₁, hcommit, hs⟩ := bind_ok hs
      rw [← (Prod.mk.inj (Except.ok.inj hs)).1]
      rw [RaftLog.commitTo, if_pos hgt] at hcommit
      split at hcommit
      · cases hcommit
      · rename_i hle
        rw [← Except.ok.inj hcommit]
        exact h.commits (Nat.le_of_lt hgt) (Nat.not_lt.mp hle)
    · rwa [← (Prod.mk.inj (Except.ok.inj hs)).1]
  · rwa [← (Prod.mk.inj (Except.ok.inj hs)).1]

theorem modifyProgress_member (id k : Nat) (f : Progress → Progress) (h : (r.getProgress id).isSome) :
    ((r.modifyProgress k f).getProgress id).isSome := by
  rw [Raft.getProgress_modifyProgress]
  split
  · rename_i hk
    rwa [Option.isSome_map, ← hk]
  · exact h

theorem member_kept (id : Nat) : Raft.KeptBySending fun r => (r.getProgress id).isSome where
  posting k f hr _ := modifyProgress_member id k f hr
  send hr hs := by
    obtain ⟨t, rfl, -, -⟩ := send_spec hs
    exact hr

/-- The log can serve every peer, the windows are sound, and the node is a member. -/
structure Raft.Ready (id : Nat) (r : Raft) : Prop where
  log : r.raftLog.Servable
  windowed : r.Windowed
  member : (r.getProgress id).isSome

namespace Raft.Ready

theorem modify (h : r.Ready id) (k : Nat) {f : Progress → Progress}
    (hf : ∀ p, r.getProgress k = some p → p.Sound → (f p).Sound) : (r.modifyProgress k f).Ready id := by
  refine ⟨?_, h.windowed.modify k hf, modifyProgress_member id k f h.member⟩
  obtain ⟨prs, lprs, heq⟩ := r.modifyProgress_eq k f
  rw [heq]
  exact h.log

theorem kept : Raft.KeptBySending (Raft.Ready id) where
  posting k f hr hf := hr.modify k fun p hp hold => by
    have hpost := hf p hp
    generalize f p = q at hpost ⊢
    cases hpost with
    | nothing => exact hold
    | entries status es e p' paused offered last sent => exact Progress.Sound.posted.entries p e.index _ hold sent
    | snapshot => exact Progress.Sound.posted.snapshot p _ hold
  send hr hs := by
    have hw := hr.windowed.send hs
    obtain ⟨t, rfl, -, -⟩ := send_spec hs
    exact ⟨hr.log, hw, hr.member⟩

theorem maybeCommit {b : Bool} (h : r.Ready id) (hs : r.maybeCommit = .ok (r', b)) : r'.Ready id := by
  have hw := maybeCommit_windowed h.windowed hs
  unfold Raft.maybeCommit at hs
  simp only at hs
  split at hs
  · cases hs
  split at hs
  · cases hs
  obtain ⟨⟨log, changed⟩, hlog, hs⟩ := bind_ok hs
  obtain ⟨rfl, -⟩ := Prod.mk.inj (Except.ok.inj hs)
  exact ⟨h.log.maybeCommit hlog, hw, h.member⟩

/-- The loop returns. -/
theorem loop {out : Result Raft} (h : r.Ready id) (hloop : Loop.Repeats (fun r => r.maybeSendAppend id false) r out) :
    ∃ r', out = .ok r' :=
  hloop.returns (I := Raft.Ready id) (fun _ hg => maybeSendAppend_ok hg.log hg.windowed hg.member false)
    (fun _ _ hg hround => maybeSendAppend_keeps kept hg hround) h

end Raft.Ready

theorem Progress.Sound.hears (h : p.Sound) (hty : msg.type = .msgAppResp) (haccept : msg.reject = false)
    (hheard : p.hear msg = .ok p') : p'.Sound := by
  have hactive : Progress.Sound { p with recentActive := true } := ⟨h.next_pos, h.window⟩
  have hupdated := hactive.maybeUpdate msg.index
  simp only [Progress.hear, hty, haccept, Bool.false_eq_true, if_false] at hheard
  split at hheard
  · rename_i q hq
    rw [hq] at hupdated
    rwa [← Except.ok.inj hheard]
  · rename_i q hq
    rw [hq] at hupdated
    obtain ⟨q', hack, hq'⟩ := hupdated.ack msg.index
    rwa [Except.ok.inj (hheard.symm.trans hack)]

/-- In whatever state a leader gets an acknowledgement, the loop of sends that follows ends, and it returns if the log
can serve every peer and the windows are sound. Its appends carry entries from the next index on, each from where the
one before ends, and they are no more than the window has room for, or one in the probe state; a snapshot may follow. -/
theorem send_loop_ends {c g₀ : Raft} (hlog : c.raftLog.Orderly) (hwon : c.TakesOffice r)
    (hreign : r.Reigns (fun _ _ => True) g₀) (hty : msg.type = .msgAppResp) (haccept : msg.reject = false)
    (hbefore : g₀.beforeSendLoop msg = .ok (some g)) :
    ∃ p out, g.getProgress msg.from_ = some p ∧ Loop.Repeats (fun r => r.maybeSendAppend msg.from_ false) g out ∧
      g₀.leaderAppResp msg = (out >>= fun r => r.afterSendLoop msg) ∧
      (g₀.raftLog.Servable → g₀.Windowed → ∃ g', out = .ok g') ∧
      ∀ g', out = .ok g' → ∃ apps snaps, g'.msgs = g.msgs ++ (apps ++ snaps) ∧ Consecutive msg.from_ p.next apps ∧
        apps.length ≤ p.room ∧ (snaps = [] ∨ ∃ m : Message, snaps = [m] ∧ m.type = .msgSnap ∧ m.to_ = msg.from_) := by
  have hreigns := Raft.Reigns.steady hlog hwon hreign
  have hpresides : g.Presides c.maxInflight (Progress.Steady c.maxInflight) := by
    refine beforeSendLoop_keeps (Raft.Presides.kept (Progress.steady_tended _)) (fun h hs => h.maybeCommit hs)
      (fun p q hp hq => ?_) hty haccept hbefore
    exact hreigns.heard (fun _ _ _ _ hold hheard => hold.hear hheard) hp hq
  have hmember : (g.getProgress msg.from_).isSome := by
    refine beforeSendLoop_keeps (member_kept msg.from_) (fun h hs => ?_) (fun p q hp hq => ?_) hty haccept hbefore
    · obtain ⟨i, rfl⟩ := maybeCommit_frame hs
      exact h
    · exact modifyProgress_member _ _ _ (modifyProgress_member _ _ _ (Option.isSome_of_eq_some hp))
  obtain ⟨p, hp⟩ := Option.isSome_iff_exists.mp hmember
  obtain ⟨own, hsteady⟩ := hpresides.get hp
  have hlaid := hsteady.paced.laid
  have hloop := sendAppendLoop_repeats ⟨hpresides.log, p, hp, hlaid⟩
  refine ⟨p, _, hp, hloop, leaderAppResp_loop haccept hbefore, fun hserves hwindowed => ?_, fun g' hg' => ?_⟩
  · have hready : g.Ready msg.from_ := by
      refine beforeSendLoop_keeps Raft.Ready.kept (fun h hs => h.maybeCommit hs) (fun p q hp hq => ?_) hty haccept hbefore
      rw [Raft.Presides.modifyProgress_modifyProgress]
      refine Raft.Ready.modify ⟨hserves, hwindowed, Option.isSome_of_eq_some hp⟩ _ fun p' hp' hsound => ?_
      obtain rfl := Option.some.inj (hp.symm.trans hp')
      exact hsound.hears hty haccept hq
    exact hready.loop hloop
  · rw [hg'] at hloop
    obtain ⟨apps, snaps, hmsgs, hcons, hroom, hsnaps, -⟩ := sends_consecutive hloop hpresides.log hp hlaid
    exact ⟨apps, snaps, hmsgs, hcons, hroom, hsnaps⟩

/-- The peer has entry 3; it was paused, so entry 4 goes out at once, and the loop goes on from entry 5. -/
theorem send_loop_ends_singles :
    let msg : Message := { type := .msgAppResp, from_ := 2, term := 2, index := 3 }
    ∃ c r g₀ g g' : Raft, c.raftLog.Orderly ∧ c.TakesOffice r ∧ r.Reigns (fun _ _ => True) g₀ ∧
      g₀.beforeSendLoop msg = .ok (some g) ∧ Loop.Repeats (fun r => r.maybeSendAppend 2 false) g (.ok g') ∧
      ∃ p apps snaps, g.getProgress 2 = some p ∧ p.next = 5 ∧ g'.msgs = g.msgs ++ (apps ++ snaps) ∧
        Consecutive 2 p.next apps ∧ apps.length ≤ p.room := by
  intro msg
  obtain ⟨⟨c, r, g₀⟩, hrun, heval⟩ : ∃ q, Raft.officeRun (fun _ _ => true) singleEntries (rejectedOnce.take 2) = .ok q ∧
      decide (q.1.raftLog.storage.ents = Raft.stampEntries 1 (q.1.raftLog.storage.dummy.index + 1) (List.replicate 4 {}) ∧
        q.1.raftLog.unstable.entries = [] ∧ q.1.raftLog.snapshot.metadata.index = 0 ∧
        (q.2.2.beforeSendLoop msg).toOption.any (fun o => o.any fun g => (g.getProgress 2).any fun p => p.next = 5) = true ∧
        (q.2.2.leaderAppResp msg).toOption.any (fun _ => true) = true) = true := exists_ok_of_any (by decide +kernel)
  obtain ⟨hents, hunstable, hsnap, hbefore, hresp⟩ := of_decide_eq_true heval
  obtain ⟨o, hbefore, hsome⟩ := exists_ok_of_any hbefore
  obtain ⟨g, rfl, hpeer⟩ := Option.any_eq_true .. |>.mp hsome
  obtain ⟨p, hp, hnext⟩ := Option.any_eq_true .. |>.mp hpeer
  obtain ⟨g₁, hresp, -⟩ := exists_ok_of_any hresp
  have hlog : c.raftLog.Orderly := .of_stamped hents hunstable hsnap
  obtain ⟨hwon, hreign⟩ := Raft.officeRun_spec (C := fun _ _ => True) (fun _ _ _ => trivial) hrun
  obtain ⟨p', out, hp', hloop, heq, -, hsends⟩ := send_loop_ends hlog hwon hreign rfl rfl hbefore
  obtain rfl := Option.some.inj (hp.symm.trans hp')
  obtain ⟨g', rfl, -⟩ := bind_ok (heq.symm.trans hresp)
  obtain ⟨apps, snaps, hmsgs, hcons, hroom, -⟩ := hsends g' rfl
  exact ⟨c, r, g₀, g, g', hlog, hwon, hreign, hbefore, hloop, p, apps, snaps, hp, of_decide_eq_true hnext, hmsgs, hcons, hroom⟩

end RaftEtcd
