import RaftEtcd.NodeRun

/-! What the sending functions of a leader do to a node: they put messages of its term out and move
the progress of the addressees, and touch nothing else. -/
namespace RaftEtcd
variable {r r' r'' : Raft} {msg : Message}

theorem commitTo_frame {log log' : RaftLog} {i : Nat} (h : log.commitTo i = .ok log') :
    ∃ c, log' = { log with committed := c } := by
  unfold RaftLog.commitTo at h
  split at h
  · split at h
    · cases h
    · exact ⟨_, (Except.ok.inj h).symm⟩
  · exact ⟨_, (Except.ok.inj h).symm⟩

/-- Only the commit index moves. -/
theorem maybeCommit_frame {b : Bool} (h : r.maybeCommit = .ok (r', b)) :
    ∃ c, r' = { r with raftLog := { r.raftLog with committed := c } } := by
  unfold Raft.maybeCommit at h
  simp only at h
  split at h
  · cases h
  split at h
  · cases h
  obtain ⟨⟨log, changed⟩, hlog, h⟩ := bind_ok h
  obtain rfl := (Prod.mk.inj (Except.ok.inj h)).1
  unfold RaftLog.maybeCommit at hlog
  have hstay : ∀ {b : Bool}, (Except.ok (r.raftLog, b) : Result _) = .ok (log, changed) →
      ∃ c, log = { r.raftLog with committed := c } := by
    intro b hlog
    rw [← (Prod.mk.inj (Except.ok.inj hlog)).1]
    exact ⟨_, rfl⟩
  have hmoved : ∃ c, log = { r.raftLog with committed := c } := by
    split at hlog
    · split at hlog
      · cases hlog
      split at hlog
      · obtain ⟨log', hcommit, hlog⟩ := bind_ok hlog
        obtain rfl := (Prod.mk.inj (Except.ok.inj hlog)).1
        exact commitTo_frame hcommit
      · exact hstay hlog
    · exact hstay hlog
  obtain ⟨c, rfl⟩ := hmoved
  exact ⟨c, rfl⟩

/-- The messages with which a leader replicates its log. -/
def MessageType.isReplication : MessageType → Bool
  | .msgApp | .msgSnap | .msgHeartbeat | .msgTimeoutNow => true
  | _ => false

/-- Whether a peer was heard from, and whether it is a learner. -/
def Progress.flags (p : Progress) : Bool × Bool := (p.recentActive, p.isLearner)

/-- The same peers with the same flags. -/
structure SameFlags (m m' : AssocMap Nat Progress) : Prop where
  keys : m'.keys = m.keys
  flags : ∀ id, (m'.lookup id).map Progress.flags = (m.lookup id).map Progress.flags

namespace SameFlags
variable {m m' m'' : AssocMap Nat Progress}

theorem refl (m : AssocMap Nat Progress) : SameFlags m m := ⟨rfl, fun _ => rfl⟩

theorem trans (h : SameFlags m m') (h' : SameFlags m' m'') : SameFlags m m'' :=
  ⟨h'.keys.trans h.keys, fun id => (h'.flags id).trans (h.flags id)⟩

theorem modify {id : Nat} {f : Progress → Progress} (hf : ∀ p, m.lookup id = some p → (f p).flags = p.flags) :
    SameFlags m (AssocMap.modify id f m) where
  keys := AssocMap.keys_modify _ _ _
  flags id' := by
    by_cases hid : id' = id
    · subst hid
      rw [AssocMap.lookup_modify_self]
      cases hp : m.lookup id' with
      | none => rfl
      | some p => exact congrArg some (hf p hp)
    · rw [AssocMap.lookup_modify_ne hid]

end SameFlags

/-- The same peers, each still a learner or not. -/
structure SameKind (m m' : AssocMap Nat Progress) : Prop where
  keys : m'.keys = m.keys
  kind : ∀ id, (m'.lookup id).map Progress.isLearner = (m.lookup id).map Progress.isLearner

namespace SameKind
variable {m m' m'' : AssocMap Nat Progress}

theorem refl (m : AssocMap Nat Progress) : SameKind m m := ⟨rfl, fun _ => rfl⟩

theorem trans (h : SameKind m m') (h' : SameKind m' m'') : SameKind m m'' :=
  ⟨h'.keys.trans h.keys, fun id => (h'.kind id).trans (h.kind id)⟩

theorem mapVal {f : Nat → Progress → Progress} (hf : ∀ id p, (f id p).isLearner = p.isLearner) :
    SameKind m (AssocMap.mapVal f m) where
  keys := AssocMap.keys_mapVal _ _
  kind id := by
    rw [AssocMap.lookup_mapVal, Option.map_map]
    exact Option.map_congr fun p _ => hf id p

theorem lookup (h : SameKind m m') {id : Nat} {p' : Progress} (hp : m'.lookup id = some p') :
    ∃ p, m.lookup id = some p ∧ p.isLearner = p'.isLearner := by
  have hkind := h.kind id
  rw [hp] at hkind
  obtain ⟨p, hp, heq⟩ := Option.map_eq_some_iff.mp hkind.symm
  exact ⟨p, hp, heq⟩

end SameKind

theorem SameFlags.sameKind {m m' : AssocMap Nat Progress} (h : SameFlags m m') : SameKind m m' where
  keys := h.keys
  kind id := by
    have hflags := congrArg (Option.map Prod.snd) (h.flags id)
    simpa [Progress.flags, Function.comp_def] using hflags

/-- Replication messages went out, and nothing but the progress of peers moved. -/
structure Posts (r r' : Raft) : Prop where
  rest : ∃ prs lprs msgs, r' = { r with prs := prs, learnerPrs := lprs, msgs := msgs }
  voters : SameFlags r.prs r'.prs
  learners : SameFlags r.learnerPrs r'.learnerPrs
  msgs : ∃ ms, r'.msgs = r.msgs ++ ms ∧ ∀ m ∈ ms, m.type.isReplication = true ∧ m.term = r.term

namespace Posts

theorem refl (r : Raft) : Posts r r :=
  ⟨⟨_, _, _, rfl⟩, .refl _, .refl _, [], (List.append_nil _).symm, nofun⟩

theorem term (h : Posts r r') : r'.term = r.term := by
  obtain ⟨prs, lprs, msgs, rfl⟩ := h.rest
  rfl

theorem state (h : Posts r r') : r'.state = r.state := by
  obtain ⟨prs, lprs, msgs, rfl⟩ := h.rest
  rfl

theorem raftLog (h : Posts r r') : r'.raftLog = r.raftLog := by
  obtain ⟨prs, lprs, msgs, rfl⟩ := h.rest
  rfl

theorem trans (h : Posts r r') (h' : Posts r' r'') : Posts r r'' where
  rest := by
    obtain ⟨prs, lprs, msgs, rfl⟩ := h.rest
    obtain ⟨prs', lprs', msgs', rfl⟩ := h'.rest
    exact ⟨prs', lprs', msgs', rfl⟩
  voters := h.voters.trans h'.voters
  learners := h.learners.trans h'.learners
  msgs := by
    obtain ⟨ms, hms, hall⟩ := h.msgs
    obtain ⟨ms', hms', hall'⟩ := h'.msgs
    refine ⟨ms ++ ms', by rw [hms', hms, List.append_assoc], fun m hm => ?_⟩
    rcases List.mem_append.mp hm with hm | hm
    · exact hall m hm
    · rw [← h.term]
      exact hall' m hm

/-- A loop whose rounds only post. -/
theorem foldlM {α : Type} {f : Raft → α → Result Raft} (hf : ∀ r₁ x r₂, f r₁ x = .ok r₂ → Posts r₁ r₂)
    (xs : List α) (h : xs.foldlM f r = .ok r') : Posts r r' := by
  exact Outcome.foldlM_keeps (I := Posts r) (fun r₁ x r₂ hsent hx => hsent.trans (hf r₁ x r₂ hx)) xs (.refl r) h

end Posts

theorem send_posts {m : Message} (hm : m.type.isReplication = true) (h : r.send m = .ok r') : Posts r r' := by
  obtain ⟨t, rfl, -, hterm⟩ := send_spec h
  have ht : t = r.term := by
    refine hterm ?_ ?_
    · revert hm
      cases m.type <;> simp [MessageType.isReplication, MessageType.isVote]
    · intro hread
      rw [hread] at hm
      cases hm
  refine ⟨⟨_, _, _, rfl⟩, .refl _, .refl _, [_], rfl, fun m' hm' => ?_⟩
  rw [List.mem_singleton.mp hm']
  exact ⟨hm, ht⟩

theorem modifyProgress_posts (r : Raft) (id : Nat) (f : Progress → Progress)
    (hf : ∀ p, r.getProgress id = some p → (f p).flags = p.flags) : Posts r (r.modifyProgress id f) := by
  unfold Raft.modifyProgress
  split
  · refine ⟨⟨_, _, _, rfl⟩, .modify fun p hp => hf p ?_, .refl _, [], (List.append_nil _).symm, nofun⟩
    rw [Raft.getProgress, hp]
  · rename_i hnone
    refine ⟨⟨_, _, _, rfl⟩, .refl _, .modify fun p hp => hf p ?_, [], (List.append_nil _).symm, nofun⟩
    rw [Raft.getProgress, Option.not_isSome_iff_eq_none.mp hnone]
    exact hp

theorem maybeUpdate_flags (p : Progress) (n : Nat) : (p.maybeUpdate n).1.flags = p.flags := by
  unfold Progress.maybeUpdate
  dsimp only
  split
  · split <;> rfl
  · split <;> rfl

/-- New entries go behind the log, or are refused and leave everything as it is. -/
theorem appendEntry_frame {es : List Entry} {b : Bool} (h : r.appendEntry es = .ok (r', b)) :
    b = false ∧ r' = r ∨
      b = true ∧ (r.getProgress r.id).isSome ∧ ∃ log c prs lprs u,
        r.raftLog.append (Raft.stampEntries r.term (r.raftLog.lastIndex + 1) es) = .ok log ∧
        SameFlags r.prs prs ∧ SameFlags r.learnerPrs lprs ∧
        r' = { r with raftLog := { log with committed := c }, prs := prs, learnerPrs := lprs, uncommittedSize := u } := by
  unfold Raft.appendEntry Raft.increaseUncommittedSize at h
  simp only at h
  split at h
  · rename_i heq
    split at heq
    · obtain ⟨rfl, -⟩ := Prod.mk.inj heq
      obtain ⟨rfl, rfl⟩ := Prod.mk.inj (Except.ok.inj h)
      exact Or.inl ⟨rfl, rfl⟩
    · cases heq
  · rename_i r₁ heq
    split at heq
    · cases heq
    obtain ⟨rfl, -⟩ := Prod.mk.inj heq
    obtain ⟨log, hlog, h⟩ := bind_ok h
    split at h
    · cases h
    · rename_i p hp
      obtain ⟨⟨r₂, changed⟩, h₂, h⟩ := bind_ok h
      obtain ⟨rfl, rfl⟩ := Prod.mk.inj (Except.ok.inj h)
      obtain ⟨c, rfl⟩ := maybeCommit_frame h₂
      simp only at hp
      generalize payloadSum (Raft.stampEntries r.term (r.raftLog.lastIndex + 1) es) = size
      have hpost := modifyProgress_posts { r with uncommittedSize := r.uncommittedSize + size, raftLog := log } r.id
        (fun p => (p.maybeUpdate log.lastIndex).1) fun p _ => maybeUpdate_flags p _
      obtain ⟨prs, lprs, hmod⟩ := Raft.modifyProgress_eq
        { r with uncommittedSize := r.uncommittedSize + size, raftLog := log } r.id fun p => (p.maybeUpdate log.lastIndex).1
      have hvoters := hpost.voters
      have hlearners := hpost.learners
      rw [hmod] at hvoters hlearners ⊢
      refine Or.inr ⟨rfl, ?_, log, c, prs, lprs, _, hlog, hvoters, hlearners, rfl⟩
      rw [show r.getProgress r.id = some p from hp]
      rfl

theorem progressAfterSend_flags {p p' : Progress} {last : Nat} (h : Raft.progressAfterSend p last = .ok p') :
    p'.flags = p.flags := by
  unfold Raft.progressAfterSend at h
  split at h
  · obtain ⟨w, -, h⟩ := bind_ok h
    obtain rfl := Except.ok.inj h
    rfl
  · obtain rfl := Except.ok.inj h
    rfl
  · cases h

theorem sendHeartbeat_posts {id : Nat} {ctx : Bytes} (h : r.sendHeartbeat id ctx = .ok r') : Posts r r' := by
  unfold Raft.sendHeartbeat at h
  split at h
  · cases h
  · exact send_posts rfl h

theorem bcastHeartbeatWithCtx_posts {ctx : Bytes} (h : r.bcastHeartbeatWithCtx ctx = .ok r') : Posts r r' :=
  Posts.foldlM (fun _ _ _ h => sendHeartbeat_posts h) _ h

theorem sendTimeoutNow_posts {id : Nat} (h : r.sendTimeoutNow id = .ok r') : Posts r r' := send_posts rfl h

theorem maybeSendAppend_posts {id : Nat} {e b : Bool} (h : r.maybeSendAppend id e = .ok (r', b)) : Posts r r' := by
  obtain ⟨p, hp, hs⟩ := maybeSendAppend_supplies h
  -- the progress of the addressee moves, then the message goes out
  cases hs with
  | waits paused => exact .refl r
  | spares status offered unasked => exact .refl r
  | skips status es offered missing inactive => exact .refl r
  | entries t status es p' _ ready before offered due noted sent =>
      refine (modifyProgress_posts r id _ fun q hq => ?_).trans (send_posts rfl sent)
      obtain rfl := Option.some.inj (hp.symm.trans hq)
      rcases noted with ⟨-, rfl⟩ | ⟨last, -, hsent⟩
      · rfl
      · exact progressAfterSend_flags hsent
  | snapshot status es _ ready offered due missing sent =>
      refine (modifyProgress_posts r id _ ?_).trans (send_posts rfl sent)
      intro q _
      rfl

theorem sendAppend_posts {id : Nat} (h : r.sendAppend id = .ok r') : Posts r r' := by
  obtain ⟨⟨r₁, b⟩, h₁, h⟩ := bind_ok h
  obtain rfl := Except.ok.inj h
  exact maybeSendAppend_posts h₁

theorem bcastAppend_posts (h : r.bcastAppend = .ok r') : Posts r r' :=
  Posts.foldlM (fun _ _ _ h => sendAppend_posts h) _ h

theorem sendAppendLoop_posts {id fuel : Nat} (h : Raft.sendAppendLoop id fuel r = .ok r') : Posts r r' := by
  induction fuel generalizing r with
  | zero => cases h
  | succ fuel ih =>
      rw [Raft.sendAppendLoop] at h
      obtain ⟨⟨r₁, sent⟩, h₁, h⟩ := bind_ok h
      have hpost := maybeSendAppend_posts h₁
      simp only at h
      split at h
      · exact hpost.trans (ih h)
      · obtain rfl := Except.ok.inj h
        exact hpost

theorem sendAfterAck_posts {id : Nat} {changed paused : Bool} (h : r.sendAfterAck id changed paused = .ok r') :
    Posts r r' := by
  unfold Raft.sendAfterAck at h
  split at h
  · exact bcastAppend_posts h
  split at h
  · exact sendAppend_posts h
  · obtain rfl := Except.ok.inj h
    exact .refl r

end RaftEtcd
