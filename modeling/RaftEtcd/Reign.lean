import RaftEtcd.Forwarding
import RaftEtcd.Healthy

/-! A node in office: it has won its election and goes on as the leader of its term. What holds there of the
progress of each peer is shown once, for every property that the leader's own doings leave alone. -/
namespace RaftEtcd
variable {r r' r'' : Raft} {msg : Message}

namespace RaftLog
variable {l l' : RaftLog} {low high : Nat} {es : List Entry}

/-- The entries are numbered one by one, and no snapshot is ahead of them. -/
structure Orderly (l : RaftLog) : Prop where
  stored : IndexedFrom (l.storage.dummy.index + 1) l.storage.ents
  unstable : IndexedFrom l.unstable.offset l.unstable.entries
  snapshot_le : l.snapshot.metadata.index ≤ l.lastIndex

section Slices
variable (hst : IndexedFrom (l.storage.dummy.index + 1) l.storage.ents)
  (hu : IndexedFrom l.unstable.offset l.unstable.entries)

include hst in
theorem all_indexed : IndexedFrom l.storage.dummy.index l.storage.all := by
  intro k e hk
  cases k with
  | zero =>
      obtain rfl := Option.some.inj hk
      rfl
  | succ k =>
      have := hst k e hk
      omega

include hu in
theorem sliceUnstable_indexed {maxSize : Nat} {out : List Entry} {status : Status}
    (hout : IndexedFrom low out) (hfull : low + out.length = min high (max low l.unstable.offset))
    (h : l.sliceUnstable low high maxSize out = .ok (status, es)) : IndexedFrom low es ∧ low + es.length ≤ high := by
  have hinitial : ∀ {es' : List Entry}, IndexedFrom low es' → low + es'.length ≤ high →
      IndexedFrom low (entryLimitSize maxSize es') ∧ low + (entryLimitSize maxSize es').length ≤ high := by
    intro es' hidx hfits
    have := (entryLimitSize_initial maxSize es').length_le
    exact ⟨hidx.of_initial (entryLimitSize_initial _ _), by omega⟩
  rcases sliceUnstable_cases h with ⟨-, hlt, -, rfl⟩ | ⟨hhigh, rfl⟩
  · have hmid := (hu.drop (max low l.unstable.offset - l.unstable.offset)).take (high - max low l.unstable.offset)
    refine hinitial (hout.append ?_) ?_
    · rwa [show low + out.length = l.unstable.offset + (max low l.unstable.offset - l.unstable.offset) by omega]
    · rw [List.length_append, List.length_take]
      omega
  · exact hinitial hout (by omega)

include hst hu in
/-- Whatever a slice returns is numbered from its lower end on. -/
theorem slice_indexed {maxSize : Nat} {status : Status} (h : l.slice low high maxSize [] = .ok (status, es)) :
    IndexedFrom low es ∧ low + es.length ≤ high := by
  obtain ⟨hle, hs⟩ := slice_sliced h
  have hread : ∀ {out : List Entry}, l.storage.entries low (min high l.unstable.offset) maxSize [] = .ok (.ok, out) →
      IndexedFrom low out ∧ low + out.length ≤ min high l.unstable.offset := by
    intro out hent
    obtain ⟨hlt, ⟨hbad, -⟩ | ⟨-, hdummy, -, -, rfl⟩⟩ := entries_cases hent
    · cases hbad
    rw [List.nil_append]
    constructor
    · refine IndexedFrom.of_initial ?_ (entryLimitSize_initial _ _)
      have := ((all_indexed hst).drop (low - l.storage.dummy.index)).take
        (min high l.unstable.offset - l.storage.dummy.index - (low - l.storage.dummy.index))
      rwa [show l.storage.dummy.index + (low - l.storage.dummy.index) = low by omega] at this
    · have hlen := (entryLimitSize_initial maxSize ((l.storage.all.drop (low - l.storage.dummy.index)).take
        (min high l.unstable.offset - l.storage.dummy.index - (low - l.storage.dummy.index)))).length_le
      rw [List.length_take] at hlen
      omega
  cases hs with
  | fails bad => exact ⟨.nil _, hle⟩
  | nothing eq => exact ⟨.nil _, hle⟩
  | stored below read short =>
      obtain ⟨hidx, hfits⟩ := hread read
      exact ⟨hidx, by omega⟩
  | both below read full rest =>
      obtain ⟨hidx, hfits⟩ := hread read
      exact sliceUnstable_indexed hu hidx (by omega) rest
  | unstable above lt rest =>
      exact sliceUnstable_indexed hu (.nil _) (by simp only [List.length_nil]; omega) rest

end Slices

namespace Orderly

/-- The entries that are offered to a peer begin at its next index and end within the log. -/
theorem offered (h : l.Orderly) {i maxSize : Nat} {status : Status} (hes : l.entries i maxSize [] = .ok (status, es)) :
    IndexedFrom i es ∧ (es ≠ [] → i + es.length ≤ l.lastIndex + 1) := by
  unfold RaftLog.entries at hes
  split at hes
  · rw [← (Prod.mk.inj (Except.ok.inj hes)).2]
    exact ⟨.nil _, fun hne => absurd rfl hne⟩
  · obtain ⟨hidx, hfits⟩ := slice_indexed h.stored h.unstable hes
    exact ⟨hidx, fun _ => hfits⟩

theorem commits (h : l.Orderly) (c : Nat) : Orderly { l with committed := c } := ⟨h.stored, h.unstable, h.snapshot_le⟩

theorem append (h : l.Orderly) {t : Nat} (happend : l.append (Raft.stampEntries t (l.lastIndex + 1) es) = .ok l') :
    l'.Orderly ∧ l.lastIndex ≤ l'.lastIndex := by
  have hgrow := append_grows (W := True) (fun _ => ⟨_, Nat.succ_pos _, stampEntries_indexed t (l.lastIndex + 1) es⟩) happend
  have hsnap : l'.snapshot = l.snapshot := by
    unfold RaftLog.snapshot
    rw [append_snapshot happend, hgrow.storage]
  have hlast : l.lastIndex ≤ l'.lastIndex := by
    cases es with
    | nil =>
        obtain rfl := Except.ok.inj happend
        exact le_rfl
    | cons e es =>
        obtain ⟨heq, -⟩ := append_lastIndex (List.cons_ne_nil _ _) (stampEntries_indexed t (l.lastIndex + 1) (e :: es)) happend
        omega
  refine ⟨⟨?_, hgrow.indexed trivial h.unstable, ?_⟩, hlast⟩
  · rw [hgrow.storage]
    exact h.stored
  · rw [hsnap]
    exact h.snapshot_le.trans hlast

end Orderly

end RaftLog

/-- The log of a node along any run is in order. -/
theorem Driver.Anchored.orderly {s : Driver} {d : Nat} (h : Anchored s d) : s.log.Orderly where
  stored := h.delivered.stored
  unstable := h.delivered.unstable
  snapshot_le := by
    have hlast := h.tail.lastIndex
    have hcommitted := h.tail.committed_lt
    unfold RaftLog.snapshot
    cases hs : s.log.unstable.snapshot with
    | some snap =>
        have := (h.tail.pending snap hs).1
        simp only
        omega
    | none =>
        have := h.saved
        simp only
        omega

/-- What the message tells a leader of its sender, before anything is sent. -/
def Progress.hear (p : Progress) (msg : Message) : Result Progress :=
  match msg.type with
  | .msgAppResp =>
      let p := { p with recentActive := true }
      if msg.reject then
        match p.maybeDecreasesTo msg.index msg.rejectHint with
        | (_, false) => .ok p
        | (q, true) => .ok (if q.state = .replicate then q.becomeProbe else q)
      else
        match p.maybeUpdate msg.index with
        | (q, false) => .ok q
        | (q, true) => Raft.progressAfterAck q msg.index
  | .msgHeartbeatResp => Raft.progressAfterBeat p
  | .msgSnapStatus =>
      .ok (if p.state ≠ .snapshot then p
        else if !msg.reject then p.becomeProbe.setPause
        else p.snapshotFailure.becomeProbe.setPause)
  | .msgUnreachable => .ok (if p.state = .replicate then p.becomeProbe else p)
  | _ => .ok p

/-- A property of the progress of a peer, or of the leader's own, given the last index of the log. The leader's own
doings leave it alone. -/
structure Progress.Tended (size : Nat) (P : Bool → Nat → Progress → Prop) : Prop where
  mono : ∀ {last last' p}, last ≤ last' → P false last p → P false last' p
  flags : ∀ {own last p} (active learner : Bool), P own last p → P own last { p with recentActive := active, isLearner := learner }
  new : ∀ {last matched} (learner : Bool), matched ≤ last →
    P false last { Progress.new size with next := last + 1, isLearner := learner, matched := matched }
  self : ∀ {last} (learner : Bool),
    P true last { Progress.new size with next := last + 1, isLearner := learner, matched := last }.becomeReplicate
  update : ∀ {last last' p}, last ≤ last' → P true last p → P true last' (p.maybeUpdate last').1
  entries : ∀ {own last p i p'}, P own last p → p.isPaused = false → p.next ≤ i → i ≤ last →
    Raft.progressAfterSend p i = .ok p' → P own last p'
  snapshot : ∀ {own last p i}, P own last p → i ≤ last → P own last (p.becomeSnapshot i)

theorem Progress.Tended.posting {size : Nat} {P : Bool → Nat → Progress → Prop} {p p' : Progress} {own : Bool}
    (h : Progress.Tended size P) (hlog : r.raftLog.Orderly) (hp : P own r.raftLog.lastIndex p) (hpost : r.Posting p p') :
    P own r.raftLog.lastIndex p' := by
  cases hpost with
  | nothing => exact hp
  | entries status es e _ paused offered last sent =>
      obtain ⟨hidx, hfits⟩ := hlog.offered offered
      obtain ⟨front, rfl⟩ := List.getLast?_eq_some_iff.mp last
      have hindex := hidx front.length e (by simp)
      have hfits := hfits (List.append_ne_nil_of_right_ne_nil _ (List.cons_ne_nil _ _))
      rw [List.length_append, List.length_singleton] at hfits
      exact h.entries hp paused (by omega) (by omega) sent
  | snapshot => exact h.snapshot hp hlog.snapshot_le

/-- A leader whose log is in order. It is a voter itself, and its progress and that of each peer has the property. -/
structure Raft.Presides (size : Nat) (P : Bool → Nat → Progress → Prop) (r : Raft) : Prop where
  role : r.state = .leader
  limit : r.maxInflight = size
  log : r.raftLog.Orderly
  self : (r.prs.lookup r.id).isSome
  voters : ∀ id p, r.prs.lookup id = some p → P (decide (id = r.id)) r.raftLog.lastIndex p
  learners : ∀ id p, r.learnerPrs.lookup id = some p → P false r.raftLog.lastIndex p

namespace Raft.Presides
variable {size : Nat} {P : Bool → Nat → Progress → Prop}

theorem get (h : r.Presides size P) {id : Nat} {p : Progress} (hp : r.getProgress id = some p) :
    ∃ own, P own r.raftLog.lastIndex p := by
  rcases getProgress_mem hp with hp | ⟨-, hp⟩
  · exact ⟨_, h.voters id p hp⟩
  · exact ⟨_, h.learners id p hp⟩

/-- Neither the peers nor the end of the log have changed. -/
theorem congr (h : r.Presides size P) (hid : r'.id = r.id) (hrole : r'.state = r.state) (hlimit : r'.maxInflight = r.maxInflight)
    (hlog : r'.raftLog.Orderly) (hlast : r'.raftLog.lastIndex = r.raftLog.lastIndex) (hpeers : SamePeers r r') :
    r'.Presides size P where
  role := hrole.trans h.role
  limit := hlimit.trans h.limit
  log := hlog
  self := by
    rw [hpeers.prs, hid]
    exact h.self
  voters := by
    rw [hpeers.prs, hid, hlast]
    exact h.voters
  learners := by
    rw [hpeers.learnerPrs, hlast]
    exact h.learners

/-- Only the commit index of the log has moved. -/
theorem books (h : r.Presides size P) (hid : r'.id = r.id) (hrole : r'.state = r.state) (hlimit : r'.maxInflight = r.maxInflight)
    (hlog : ∃ c, r'.raftLog = { r.raftLog with committed := c }) (hpeers : SamePeers r r') : r'.Presides size P := by
  obtain ⟨c, hlog⟩ := hlog
  refine h.congr hid hrole hlimit ?_ ?_ hpeers
  · rw [hlog]
    exact h.log.commits c
  · rw [hlog]
    rfl

theorem send (h : r.Presides size P) {m : Message} (hs : r.send m = .ok r') : r'.Presides size P := by
  obtain ⟨t, rfl, -, -⟩ := send_spec hs
  exact h.books rfl rfl rfl ⟨_, rfl⟩ ⟨rfl, rfl⟩

theorem timed (h : r.Presides size P) (ht : Timed r r') : r'.Presides size P := by
  obtain ⟨_, _, _, rfl⟩ := ht
  exact h.books rfl rfl rfl ⟨_, rfl⟩ ⟨rfl, rfl⟩

/-- The progress of one node is replaced. -/
theorem modify (h : r.Presides size P) (id : Nat) {f : Progress → Progress}
    (hf : ∀ own p, r.getProgress id = some p → P own r.raftLog.lastIndex p → P own r.raftLog.lastIndex (f p)) :
    (r.modifyProgress id f).Presides size P := by
  unfold Raft.modifyProgress
  split
  · refine ⟨h.role, h.limit, h.log, AssocMap.lookup_modify_isSome.mpr h.self, fun k p hp => ?_, h.learners⟩
    rcases AssocMap.lookup_modify_cases hp with ⟨rfl, q, hq, rfl⟩ | ⟨-, hold⟩
    · exact hf _ q (by rw [Raft.getProgress, hq]) (h.voters k q hq)
    · exact h.voters k p hold
  · rename_i hnone
    refine ⟨h.role, h.limit, h.log, h.self, h.voters, fun k p hp => ?_⟩
    rcases AssocMap.lookup_modify_cases hp with ⟨rfl, q, hq, rfl⟩ | ⟨-, hold⟩
    · refine hf _ q ?_ (h.learners k q hq)
      rw [Raft.getProgress, Option.not_isSome_iff_eq_none.mp hnone]
      exact hq
    · exact h.learners k p hold

theorem kept (hP : Progress.Tended size P) : Raft.KeptBySending (Raft.Presides size P) where
  posting id _ hr hf := hr.modify id fun _ p hp hold => hP.posting hr.log hold (hf p hp)
  send hr hs := hr.send hs

theorem maybeCommit {b : Bool} (h : r.Presides size P) (hs : r.maybeCommit = .ok (r', b)) : r'.Presides size P := by
  obtain ⟨c, rfl⟩ := maybeCommit_frame hs
  exact h.books rfl rfl rfl ⟨c, rfl⟩ ⟨rfl, rfl⟩

section Hearing

theorem modifyProgress_modifyProgress (r : Raft) (id : Nat) (f g : Progress → Progress) :
    (r.modifyProgress id f).modifyProgress id g = r.modifyProgress id fun p => g (f p) := by
  unfold Raft.modifyProgress
  by_cases hvoter : (r.prs.lookup id).isSome
  · rw [if_pos hvoter, if_pos (AssocMap.lookup_modify_isSome.mpr hvoter), if_pos hvoter, AssocMap.modify_modify]
  · rw [if_neg hvoter, if_neg hvoter, if_neg hvoter, AssocMap.modify_modify]

variable (hP : Progress.Tended size P)

/-- What is heard of a peer is noted. -/
theorem heard (h : r.Presides size P) {p q : Progress}
    (hhear : ∀ own p p', r.getProgress msg.from_ = some p → P own r.raftLog.lastIndex p → p.hear msg = .ok p' →
      P own r.raftLog.lastIndex p')
    (hp : r.getProgress msg.from_ = some p) (hq : p.hear msg = .ok q) :
    Raft.Presides size P ((r.modifyProgress msg.from_ fun p => { p with recentActive := true }).modifyProgress msg.from_
      fun _ => q) := by
  rw [modifyProgress_modifyProgress]
  refine h.modify msg.from_ fun own p' hp' hP' => ?_
  obtain rfl := Option.some.inj (hp.symm.trans hp')
  exact hhear own p q hp hP' hq

include hP in
theorem leaderAppResp (h : r.Presides size P) (hty : msg.type = .msgAppResp)
    (hhear : ∀ own p p', r.getProgress msg.from_ = some p → P own r.raftLog.lastIndex p → p.hear msg = .ok p' →
      P own r.raftLog.lastIndex p')
    (hs : r.leaderAppResp msg = .ok r') : r'.Presides size P := by
  have hactive : (r.modifyProgress msg.from_ fun p => { p with recentActive := true }).Presides size P :=
    h.modify msg.from_ fun _ p _ hp => hP.flags true p.isLearner hp
  have hget := Raft.getProgress_modifyProgress r msg.from_ msg.from_ fun p => { p with recentActive := true }
  rw [if_pos rfl] at hget
  have hreplace := fun {p q : Progress} => h.heard (q := q) hhear (p := p)
  unfold Raft.leaderAppResp at hs
  simp only at hs
  rw [hget] at hs
  generalize (r.modifyProgress msg.from_ fun p => { p with recentActive := true }) = r₁ at hactive hreplace hs
  cases hp : r.getProgress msg.from_ with
  | none =>
      rw [hp] at hs
      rwa [← Except.ok.inj hs]
  | some p =>
      simp only [hp, Option.map_some] at hs
      have hheard := fun q => hreplace (q := q) hp
      simp only [Progress.hear, hty] at hheard
      split at hs
      · rename_i hreject
        simp only [hreject, if_true] at hheard
        split at hs
        · rwa [← Except.ok.inj hs]
        · rename_i q hq
          rw [hq] at hheard
          exact sendAppend_keeps (kept hP) (hheard _ rfl) hs
      · rename_i hreject
        simp only [if_neg hreject] at hheard
        split at hs
        · rename_i q hq
          rw [hq] at hheard
          rw [← Except.ok.inj hs]
          exact hheard _ rfl
        · rename_i q hq
          rw [hq] at hheard
          obtain ⟨q', hack, hs⟩ := bind_ok hs
          obtain ⟨⟨r₂, changed⟩, h₂, hs⟩ := bind_ok hs
          obtain ⟨r₃, h₃, hs⟩ := bind_ok hs
          obtain ⟨r₄, h₄, hs⟩ := bind_ok hs
          have hr₄ := sendAppendLoop_keeps (kept hP) (sendAfterAck_keeps (kept hP) (maybeCommit (hheard q' hack) h₂) h₃) h₄
          split at hs
          · rwa [← Except.ok.inj hs]
          split at hs
          · exact hr₄.send hs
          · rwa [← Except.ok.inj hs]

theorem answerReads {rss : List ReadIndexStatus} (h : r.Presides size P) (hs : r.answerReads rss = .ok r') :
    r'.Presides size P := by
  refine Outcome.foldlM_keeps (I := Raft.Presides size P) (fun r₁ rs r₂ hr₁ h₁ => ?_) rss h hs
  split at h₁
  · obtain ⟨ctx, -, h₁⟩ := bind_ok h₁
    rw [← Except.ok.inj h₁]
    exact hr₁.books rfl rfl rfl ⟨_, rfl⟩ ⟨rfl, rfl⟩
  · exact hr₁.send h₁

include hP in
theorem leaderHeartbeatResp (h : r.Presides size P) (hty : msg.type = .msgHeartbeatResp)
    (hhear : ∀ own p p', r.getProgress msg.from_ = some p → P own r.raftLog.lastIndex p → p.hear msg = .ok p' →
      P own r.raftLog.lastIndex p')
    (hs : r.leaderHeartbeatResp msg = .ok r') : r'.Presides size P := by
  unfold Raft.leaderHeartbeatResp at hs
  split at hs
  · rwa [← Except.ok.inj hs]
  rename_i p hp
  obtain ⟨q, hbeat, hs⟩ := bind_ok hs
  have hr₁ : (r.modifyProgress msg.from_ fun _ => q).Presides size P := by
    refine h.modify msg.from_ fun own p' hp' hP' => ?_
    obtain rfl := Option.some.inj (hp.symm.trans hp')
    refine hhear own p q hp hP' ?_
    simp only [Progress.hear, hty]
    exact hbeat
  obtain ⟨r₂, h₂, hs⟩ := bind_ok hs
  have hr₂ : r₂.Presides size P := by
    split at h₂
    · exact sendAppend_keeps (kept hP) hr₁ h₂
    · rwa [← Except.ok.inj h₂]
  split at hs
  · rwa [← Except.ok.inj hs]
  simp only at hs
  split at hs
  · rw [← Except.ok.inj hs]
    exact hr₂.books rfl rfl rfl ⟨_, rfl⟩ ⟨rfl, rfl⟩
  · obtain ⟨⟨readOnly, rss⟩, -, hs⟩ := bind_ok hs
    refine answerReads ?_ hs
    exact hr₂.books rfl rfl rfl ⟨_, rfl⟩ ⟨rfl, rfl⟩

include hP in
theorem leaderTransferLeader {pr : Progress} (h : r.Presides size P) (hs : r.leaderTransferLeader pr msg = .ok r') :
    r'.Presides size P := by
  have hasked : Raft.Presides size P { r with electionElapsed := 0, leadTransferee := msg.from_ } :=
    h.books rfl rfl rfl ⟨_, rfl⟩ ⟨rfl, rfl⟩
  cases leaderTransferLeader_cases hs with
  | keeps why same => rwa [same]
  | aborts self transferee frame =>
      rw [frame]
      exact h.books rfl rfl rfl ⟨_, rfl⟩ ⟨rfl, rfl⟩
  | urges other sent => exact hasked.send sent
  | appends other sent => exact sendAppend_keeps (kept hP) hasked sent

include hP in
theorem stepLeaderProgress (h : r.Presides size P)
    (hhear : ∀ own p p', r.getProgress msg.from_ = some p → P own r.raftLog.lastIndex p → p.hear msg = .ok p' →
      P own r.raftLog.lastIndex p')
    (hs : r.stepLeaderProgress msg = .ok r') : r'.Presides size P := by
  unfold Raft.stepLeaderProgress at hs
  split at hs
  · rwa [← Except.ok.inj hs]
  split at hs
  · rename_i hty
    exact leaderAppResp hP h hty hhear hs
  · rename_i hty
    exact leaderHeartbeatResp hP h hty hhear hs
  · rename_i hty
    rw [← Except.ok.inj hs]
    refine h.modify _ fun own q hq hold => hhear own q _ hq hold ?_
    simp only [Progress.hear, hty]
  · rename_i hty
    rw [← Except.ok.inj hs]
    refine h.modify _ fun own q hq hold => hhear own q _ hq hold ?_
    simp only [Progress.hear, hty]
  · exact leaderTransferLeader hP h hs
  · rwa [← Except.ok.inj hs]

end Hearing

section Steps
variable (hP : Progress.Tended size P)

include hP in
/-- The log grows, and the leader acknowledges that to itself. -/
theorem lengthens {log : RaftLog} (h : r.Presides size P) (hlog : log.Orderly) (hlast : r.raftLog.lastIndex ≤ log.lastIndex) :
    (Raft.modifyProgress { r with raftLog := log } r.id fun p => (p.maybeUpdate log.lastIndex).1).Presides size P := by
  unfold Raft.modifyProgress
  rw [if_pos h.self]
  refine ⟨h.role, h.limit, hlog, AssocMap.lookup_modify_isSome.mpr h.self, fun k p hp => ?_,
    fun k p hp => hP.mono hlast (h.learners k p hp)⟩
  rcases AssocMap.lookup_modify_cases hp with ⟨rfl, q, hq, rfl⟩ | ⟨hne, hold⟩
  · have hown := h.voters r.id q hq
    simp only [decide_true] at hown ⊢
    exact hP.update hlast hown
  · have hother := h.voters k p hold
    simp only [decide_eq_false hne] at hother ⊢
    exact hP.mono hlast hother

include hP in
theorem appendEntry {es : List Entry} {b : Bool} (h : r.Presides size P) (hs : r.appendEntry es = .ok (r', b)) :
    r'.Presides size P := by
  have hsize : (r.increaseUncommittedSize (Raft.stampEntries r.term (r.raftLog.lastIndex + 1) es)).1.Presides size P ∧
      (r.increaseUncommittedSize (Raft.stampEntries r.term (r.raftLog.lastIndex + 1) es)).1.raftLog = r.raftLog := by
    unfold Raft.increaseUncommittedSize
    simp only
    split
    · exact ⟨h, rfl⟩
    · exact ⟨h.books rfl rfl rfl ⟨_, rfl⟩ ⟨rfl, rfl⟩, rfl⟩
  unfold Raft.appendEntry at hs
  simp only at hs
  split at hs
  · rename_i r₁ hr₁
    rw [hr₁] at hsize
    rw [← (Prod.mk.inj (Except.ok.inj hs)).1]
    exact hsize.1
  · rename_i r₁ hr₁
    rw [hr₁] at hsize
    obtain ⟨hr₁, hlog₁⟩ := hsize
    obtain ⟨log, happend, hs⟩ := bind_ok hs
    rw [hlog₁] at happend
    obtain ⟨horder, hlast⟩ := h.log.append happend
    have hlonger := hr₁.lengthens hP horder (by rw [hlog₁]; exact hlast)
    split at hs
    · cases hs
    · obtain ⟨⟨r₂, changed⟩, h₂, hs⟩ := bind_ok hs
      rw [← (Prod.mk.inj (Except.ok.inj hs)).1]
      exact maybeCommit hlonger h₂

include hP in
theorem leaderProp {st : Status} (h : r.Presides size P) (hs : r.leaderProp msg = .ok (r', st)) : r'.Presides size P := by
  have happends : ∀ {r₁ : Raft} {ok : Bool}, (r.filterConfChanges 0 msg.entries).1.appendEntry
      (r.filterConfChanges 0 msg.entries).2 = .ok (r₁, ok) → r₁.Presides size P := by
    intro r₁ ok happend
    obtain ⟨p, hfilter⟩ := filterConfChanges_frame r 0 msg.entries
    refine appendEntry hP ?_ happend
    rw [hfilter]
    exact h.books rfl rfl rfl ⟨_, rfl⟩ ⟨rfl, rfl⟩
  cases leaderProp_proposes hs with
  | refuses why status same => rwa [same]
  | drops member settled append status => exact happends append
  | takes nonempty r₁ append cast status => exact bcastAppend_keeps (kept hP) (happends append) cast

include hP in
theorem leaderReadIndex (h : r.Presides size P) (hs : r.leaderReadIndex msg = .ok r') : r'.Presides size P := by
  cases leaderReadIndex_cases hs with
  | waits many term same => rwa [same]
  | queues many safe ro ctx add context beat =>
      refine bcastHeartbeatWithCtx_keeps (kept hP) ?_ beat
      exact h.books rfl rfl rfl ⟨_, rfl⟩ ⟨rfl, rfl⟩
  | reads why ctx context read =>
      rw [read]
      exact h.books rfl rfl rfl ⟨_, rfl⟩ ⟨rfl, rfl⟩
  | replies many lease other sent => exact h.send sent

include hP in
theorem stepLeader {st : Status} (h : r.Presides size P)
    (hhear : ∀ own p p', r.getProgress msg.from_ = some p → P own r.raftLog.lastIndex p → p.hear msg = .ok p' →
      P own r.raftLog.lastIndex p')
    (hl : r'.state = .leader) (hs : r.stepLeader msg = .ok (r', st)) : r'.Presides size P := by
  unfold Raft.stepLeader at hs
  split at hs
  · exact bcastHeartbeatWithCtx_keeps (kept hP) h (withOk_ok hs)
  · rw [← (Prod.mk.inj (Except.ok.inj hs)).1] at hl ⊢
    split
    · rename_i hlost
      rw [if_pos hlost] at hl
      cases hl
    · exact h
  · exact leaderProp hP h hs
  · exact leaderReadIndex hP h (withOk_ok hs)
  · exact stepLeaderProgress hP h hhear (withOk_ok hs)

include hP in
theorem stepBody {st : Status} (h : r.Presides size P)
    (hhear : ∀ own p p', r.getProgress msg.from_ = some p → P own r.raftLog.lastIndex p → p.hear msg = .ok p' →
      P own r.raftLog.lastIndex p')
    (hl : r'.state = .leader) (hs : r.stepBody msg = .ok (r', st)) : r'.Presides size P := by
  have hvote : r.stepVote msg = .ok r' → r'.Presides size P := by
    intro hs
    obtain ⟨ms, elapsed, vote, rfl⟩ := stepVote_frame hs
    exact h.books rfl rfl rfl ⟨_, rfl⟩ ⟨rfl, rfl⟩
  unfold Raft.stepBody at hs
  split at hs
  · have hs := withOk_ok hs
    rw [Raft.stepHup, if_neg (not_not_intro h.role)] at hs
    rwa [← Except.ok.inj hs]
  · exact hvote (withOk_ok hs)
  · exact hvote (withOk_ok hs)
  · rw [h.role] at hs
    exact stepLeader hP h hhear hl hs

include hP in
/-- A step in which the leader stays in office. Only what it hears from a peer in its term is not its own doing. -/
theorem step {st : Status} (h : r.Presides size P)
    (hhear : msg.term = 0 ∨ msg.term = r.term → ∀ own p p', r.getProgress msg.from_ = some p → P own r.raftLog.lastIndex p →
      p.hear msg = .ok p' → P own r.raftLog.lastIndex p')
    (hl : r'.state = .leader) (hterm : r'.term = r.term) (hs : r.step msg = .ok (r', st)) : r'.Presides size P := by
  cases step_way hs with
  | stays term body =>
      rcases term with hzero | hsame | ⟨-, -, hkind⟩
      · exact stepBody hP h (hhear (Or.inl hzero)) hl body
      · exact stepBody hP h (hhear (Or.inr hsame)) hl body
      · -- a vote for a later term tells nothing of the sender
        refine stepBody hP h (fun own p p' hp hold hheard => ?_) hl body
        have hstill : p.hear msg = .ok p := by
          unfold Progress.hear
          rcases hkind with hkind | hkind
          · rw [hkind]
          · rw [hkind]
        rwa [← Except.ok.inj (hstill.symm.trans hheard)]
  | follows later lead heard body =>
      have hlater := (stepBody_handles (fun _ => by simp [Raft.becomeFollower]) body).term
      simp only [Raft.becomeFollower, Raft.reset_term] at hlater
      omega
  | leased later type same => rwa [same]
  | stale sent earlier lower =>
      rcases lowerTerm_cases lower with rfl | ⟨m, -, hsent⟩
      · exact h
      · exact h.send hsent

theorem reduceUncommittedSize (h : r.Presides size P) (es : List Entry) : (r.reduceUncommittedSize es).Presides size P := by
  rw [Raft.reduceUncommittedSize_eq]
  exact h.books rfl rfl rfl ⟨_, rfl⟩ ⟨rfl, rfl⟩

include hP in
/-- A node that wins its election starts with all peers reset. -/
theorem becomeLeader (hlog : r.raftLog.Orderly) (hlimit : r.maxInflight = size) (hs : r.becomeLeader = .ok r') :
    r'.Presides size P := by
  have hfresh : ∀ {m : AssocMap Nat Progress} {k : Nat} {p : Progress}, (AssocMap.mapVal r.resetProgress m).lookup k = some p →
      ∃ learner, p = { Progress.new size with next := r.raftLog.lastIndex + 1, isLearner := learner, matched := if k = r.id then r.raftLog.lastIndex else 0 } := by
    intro m k p hp
    rw [AssocMap.lookup_mapVal] at hp
    obtain ⟨q, -, rfl⟩ := Option.map_eq_some_iff.mp hp
    rw [Raft.resetProgress, hlimit]
    exact ⟨q.isLearner, rfl⟩
  have hothers : ∀ {m : AssocMap Nat Progress} {k : Nat} {p : Progress}, (AssocMap.mapVal r.resetProgress m).lookup k = some p →
      P false r.raftLog.lastIndex p := by
    intro m k p hp
    obtain ⟨learner, rfl⟩ := hfresh hp
    refine hP.new learner ?_
    split
    · exact le_rfl
    · exact Nat.zero_le _
  unfold Raft.becomeLeader at hs
  split at hs
  · cases hs
  simp only at hs
  split at hs
  · cases hs
  rename_i own hown
  obtain ⟨⟨r₁, ok⟩, happend, hs⟩ := bind_ok hs
  have hr₁ : r₁.Presides size P := by
    refine appendEntry hP (Raft.Presides.mk rfl ?_ ?_ ?_ (fun k p hp => ?_) fun k p hp => ?_) happend
    · simp only [reset_maxInflight]
      exact hlimit
    · simp only [Raft.reset_raftLog]
      exact hlog
    · exact AssocMap.lookup_modify_isSome.mpr (Option.isSome_of_eq_some hown)
    · simp only [Raft.reset_raftLog, Raft.reset_prs, Raft.reset_id] at hp ⊢
      rcases AssocMap.lookup_modify_cases hp with ⟨rfl, q, hq, rfl⟩ | ⟨hne, hold⟩
      · obtain ⟨learner, rfl⟩ := hfresh hq
        rw [decide_eq_true rfl, if_pos rfl]
        exact hP.self learner
      · rw [decide_eq_false hne]
        exact hothers hold
    · simp only [Raft.reset_raftLog, Raft.reset_learnerPrs] at hp ⊢
      exact hothers hp
  simp only at hs
  split at hs
  · cases hs
  · rw [← Except.ok.inj hs]
    exact hr₁.reduceUncommittedSize _

/-- A progress that is written for another node, with whatever is erased besides. -/
theorem insert {id : Nat} (hid : id ≠ r.id) {p : Progress} (hp : P false r.raftLog.lastIndex p) {prs lprs : AssocMap Nat Progress}
    {l : Bool} (h : r.Presides size P) (hself : (prs.lookup r.id).isSome)
    (hprs : ∀ k q, prs.lookup k = some q → k = id ∧ q = p ∨ r.prs.lookup k = some q)
    (hlprs : ∀ k q, lprs.lookup k = some q → k = id ∧ q = p ∨ r.learnerPrs.lookup k = some q) :
    Raft.Presides size P { r with prs := prs, learnerPrs := lprs, isLearner := l } := by
  refine ⟨h.role, h.limit, h.log, hself, fun k q hq => ?_, fun k q hq => ?_⟩
  · rcases hprs k q hq with ⟨rfl, rfl⟩ | hold
    · rw [decide_eq_false hid]
      exact hp
    · exact h.voters k q hold
  · rcases hlprs k q hq with ⟨-, rfl⟩ | hold
    · exact hp
    · exact h.learners k q hold

include hP in
/-- A change of another node's place in the cluster. -/
theorem configures {cc : ConfChange} (h : r.Presides size P) (hother : cc.nodeId ≠ r.id) (hs : Configures cc r r') :
    r'.Presides size P := by
  have hmark : ∀ {g : Raft} {b : Bool}, g.Presides size P → (g.markAdded cc.nodeId b).Presides size P := by
    intro g b hg
    rw [markAdded_eq]
    have hself : Raft.Presides size P { g with isLearner := if g.id = cc.nodeId then b else g.isLearner } :=
      hg.books rfl rfl rfl ⟨_, rfl⟩ ⟨rfl, rfl⟩
    exact hself.modify cc.nodeId fun _ p _ hp => hP.flags true p.isLearner hp
  have hkept : ∀ p, ((r.prs.insert cc.nodeId p).lookup r.id).isSome := by
    intro p
    rw [AList.lookup_insert_ne hother.symm]
    exact h.self
  have hset : ∀ {b : Bool} {g : Raft}, r.setProgress cc.nodeId 0 (r.raftLog.lastIndex + 1) b = .ok g → g.Presides size P := by
    intro b g hset
    have hnew := fun learner => hP.new learner (Nat.zero_le r.raftLog.lastIndex)
    rw [← h.limit] at hnew
    unfold Raft.setProgress at hset
    simp only at hset
    split at hset
    · rw [← Except.ok.inj hset]
      exact insert hother (hnew false) h (hkept _) (fun _ _ hq => EachPeer.lookup_insert_cases hq)
        fun _ _ hq => Or.inr (EachPeer.lookup_of_erase hq)
    split at hset
    · cases hset
    · rw [← Except.ok.inj hset]
      exact insert hother (hnew true) h h.self (fun _ _ hq => Or.inr hq) fun _ _ hq => EachPeer.lookup_insert_cases hq
  have hadd : ∀ {b : Bool}, r.addNodeOrLearner cc.nodeId b = .ok r' → r'.Presides size P := by
    intro b hadd
    unfold Raft.addNodeOrLearner at hadd
    split at hadd
    · obtain ⟨r₁, h₁, hadd⟩ := bind_ok hadd
      rw [← Except.ok.inj hadd]
      exact hmark (hset h₁)
    rename_i pr hpr
    split at hadd
    · rwa [← Except.ok.inj hadd]
    split at hadd
    · rwa [← Except.ok.inj hadd]
    · rename_i hchange hlearner
      rw [← Except.ok.inj hadd]
      have hpromoted : P false r.raftLog.lastIndex { pr with isLearner := false } := by
        refine hP.flags pr.recentActive false ?_
        rcases getProgress_mem hpr with hpr | ⟨-, hpr⟩
        · have hold := h.voters _ pr hpr
          rwa [decide_eq_false hother] at hold
        · exact h.learners _ pr hpr
      exact hmark (insert hother hpromoted h (hkept _) (fun _ _ hq => EachPeer.lookup_insert_cases hq)
        fun _ _ hq => Or.inr (EachPeer.lookup_of_erase hq))
  cases hs with
  | ignores change same => rwa [same]
  | adds node type add => exact hadd add
  | addsLearner node type add => exact hadd add
  | removes node type remove =>
      have hdel : (r.delProgress cc.nodeId).Presides size P := by
        refine ⟨h.role, h.limit, h.log, ?_, fun k p hp => h.voters k p (EachPeer.lookup_of_erase hp),
          fun k p hp => h.learners k p (EachPeer.lookup_of_erase hp)⟩
        have hself := h.self
        rwa [← AList.lookup_erase_ne hother.symm] at hself
      rcases removeNode_cases remove with rfl | ⟨r₁, changed, r₂, hcommit, hsent, htimed⟩
      · exact hdel
      have hr₁ := maybeCommit hdel hcommit
      rcases hsent with ⟨-, rfl⟩ | ⟨-, hbcast⟩
      · exact hr₁.timed htimed
      · exact (bcastAppend_keeps (kept hP) hr₁ hbcast).timed htimed

end Steps

end Raft.Presides

/-- The node wins its election and tells its peers, if there are any. -/
def Raft.TakesOffice (c r : Raft) : Prop := ∃ l, c.becomeLeader = .ok l ∧ (r = l ∨ l.bcastAppend = .ok r)

/-- What a leader does within its term. -/
inductive Raft.Rules (C : Raft → Message → Prop) (r r' : Raft) : Prop
  /-- It steps a message of any kind, for which the condition holds. -/
  | steps (msg : Message) (st : Status) (cond : C r msg) (step : r.step msg = .ok (r', st)) (role : r'.state = .leader)
      (term : r'.term = r.term)
  /-- It applies a change that is about another node. -/
  | configures (cc : ConfChange) (other : cc.nodeId ≠ r.id) (change : Configures cc r r')
  /-- Timers run, a `Ready` is taken, stored or reported, the storage is compacted: the peers are not touched,
  and the log ends where it did. -/
  | keeps (id : r'.id = r.id) (role : r'.state = r.state) (term : r'.term = r.term) (limit : r'.maxInflight = r.maxInflight)
      (log : r'.raftLog.Orderly) (last : r'.raftLog.lastIndex = r.raftLog.lastIndex) (peers : SamePeers r r')

def Raft.Reigns (C : Raft → Message → Prop) : Raft → Raft → Prop := Relation.ReflTransGen (Raft.Rules C)

section Reigns
variable {C : Raft → Message → Prop} {P : Bool → Nat → Progress → Prop} {c : Raft}

theorem Raft.TakesOffice.presides {size : Nat} (hP : Progress.Tended size P) (hlog : c.raftLog.Orderly)
    (hlimit : c.maxInflight = size) (h : c.TakesOffice r) : r.Presides size P := by
  obtain ⟨l, hl, rfl | hbcast⟩ := h
  · exact .becomeLeader hP hlog hlimit hl
  · exact bcastAppend_keeps (Raft.Presides.kept hP) (.becomeLeader hP hlog hlimit hl) hbcast

/-- What a leader's own doings and the messages it hears leave alone holds of every progress throughout its term. -/
theorem Raft.Reigns.presides {size : Nat} (hP : Progress.Tended size P)
    (hC : ∀ r msg own p p', r.state = .leader → C r msg → msg.term = 0 ∨ msg.term = r.term →
      r.getProgress msg.from_ = some p → P own r.raftLog.lastIndex p → p.hear msg = .ok p' → P own r.raftLog.lastIndex p')
    (hr : r.Presides size P) (h : r.Reigns C r') : r'.Presides size P := by
  induction h with
  | refl => exact hr
  | @tail g g' _ hrule ih =>
      cases hrule with
      | steps msg st cond step role term =>
          exact ih.step hP (fun hterm own p p' hp hold hheard => hC g msg own p p' ih.role cond hterm hp hold hheard)
            role term step
      | configures cc other change => exact ih.configures hP other change
      | keeps id role term limit log last peers => exact ih.congr id role limit log last peers

/-- A message is stepped, if it is admitted and leaves the leader in office. -/
def Raft.reignBy (admits : Raft → Message → Bool) (r : Raft) (msg : Message) : Result Raft := do
  let (r', _) ← r.step msg
  if admits r msg ∧ r'.state = .leader ∧ r'.term = r.term then .ok r' else .error "out of office"

/-- A node wins its election and steps the messages. -/
def Raft.officeRun (admits : Raft → Message → Bool) (cfg : Config) (msgs : List Message) : Result (Raft × Raft × Raft) := do
  let r₀ ← Raft.new cfg
  let c ← r₀.becomeCandidate
  let l ← c.becomeLeader
  let r ← l.bcastAppend
  let g ← msgs.foldlM (Raft.reignBy admits) r
  .ok (c, r, g)

theorem Raft.officeRun_spec {admits : Raft → Message → Bool} {cfg : Config} {msgs : List Message} {g : Raft}
    (hadmits : ∀ r msg, admits r msg = true → C r msg) (h : Raft.officeRun admits cfg msgs = .ok (c, r, g)) :
    c.TakesOffice r ∧ r.Reigns C g := by
  obtain ⟨r₀, -, h⟩ := bind_ok h
  obtain ⟨c', -, h⟩ := bind_ok h
  obtain ⟨l, hl, h⟩ := bind_ok h
  obtain ⟨r', hbcast, h⟩ := bind_ok h
  obtain ⟨g', hfold, h⟩ := bind_ok h
  obtain ⟨rfl, rfl, rfl⟩ : c' = c ∧ r' = r ∧ g' = g := by simpa only [Prod.mk.injEq] using Except.ok.inj h
  refine ⟨⟨l, hl, Or.inr hbcast⟩, Outcome.foldlM_keeps (I := r'.Reigns C) (fun g₁ msg g₂ hg₁ hround => ?_) msgs .refl hfold⟩
  obtain ⟨⟨g₃, st⟩, hstep, hcheck⟩ := bind_ok hround
  simp only at hcheck
  split at hcheck
  · rename_i hcond
    obtain rfl := Except.ok.inj hcheck
    exact hg₁.tail (.steps msg st (hadmits g₁ msg hcond.1) hstep hcond.2.1 hcond.2.2)
  · cases hcheck

theorem RaftLog.Orderly.of_stamped {l : RaftLog} {t : Nat} {es : List Entry}
    (hstored : l.storage.ents = Raft.stampEntries t (l.storage.dummy.index + 1) es) (hunstable : l.unstable.entries = [])
    (hsnap : l.snapshot.metadata.index = 0) : l.Orderly where
  stored := by
    rw [hstored]
    exact stampEntries_indexed _ _ _
  unstable := by
    rw [hunstable]
    exact .nil _
  snapshot_le := by
    rw [hsnap]
    exact Nat.zero_le _

end Reigns

end RaftEtcd
