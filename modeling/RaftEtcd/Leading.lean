import RaftEtcd.Roles

/-! What a step does to a node that leads: it hears from a peer, notes what the peer has, commits,
answers reads and sends; a proposal goes into its log; or it finds its quorum gone and follows. -/
namespace RaftEtcd
variable {r r' r'' : Raft} {msg : Message} {x : Option Nat}

/-- The same peers, one of which has been heard from. -/
structure Marks (x : Option Nat) (m m' : AssocMap Nat Progress) : Prop where
  keys : m'.keys = m.keys
  flags : ∀ id, (m'.lookup id).map Progress.flags =
    (m.lookup id).map fun p => (p.recentActive || decide (x = some id), p.isLearner)

section Marks
variable {m m' m'' : AssocMap Nat Progress}

theorem SameFlags.marks (h : SameFlags m m') : Marks none m m' where
  keys := h.keys
  flags id := by
    rw [h.flags id]
    cases m.lookup id with
    | none => rfl
    | some p => simp [Progress.flags]

theorem Marks.trans (h : Marks x m m') (h' : SameFlags m' m'') : Marks x m m'' :=
  ⟨h'.keys.trans h.keys, fun id => (h'.flags id).trans (h.flags id)⟩

theorem SameFlags.marks_trans (h : SameFlags m m') (h' : Marks x m' m'') : Marks x m m'' where
  keys := h'.keys.trans h.keys
  flags id := by
    rw [h'.flags id]
    have hflags := h.flags id
    cases hm : m.lookup id with
    | none =>
        rw [hm] at hflags
        rw [Option.map_eq_none_iff.mp hflags]
    | some p =>
        rw [hm] at hflags
        obtain ⟨q, hq, heq⟩ := Option.map_eq_some_iff.mp hflags
        obtain ⟨hactive, hlearner⟩ := Prod.mk.inj heq
        rw [hq]
        simp [hactive, hlearner]

/-- A peer that is not there leaves no mark. -/
theorem Marks.of_not_mem {id : Nat} (h : m.lookup id = none) : Marks (some id) m m where
  keys := rfl
  flags id' := by
    cases hm : m.lookup id' with
    | none => rfl
    | some p =>
        have hne : id ≠ id' := by
          rintro rfl
          rw [h] at hm
          cases hm
        simp [Progress.flags, hne]

theorem Marks.modify {id : Nat} {f : Progress → Progress}
    (hf : ∀ p, m.lookup id = some p → (f p).flags = (true, p.isLearner)) :
    Marks (some id) m (AssocMap.modify id f m) where
  keys := AssocMap.keys_modify _ _ _
  flags id' := by
    by_cases hid : id' = id
    · subst hid
      rw [AssocMap.lookup_modify_self]
      cases hp : m.lookup id' with
      | none => rfl
      | some p => simpa using hf p hp
    · rw [AssocMap.lookup_modify_ne hid]
      cases hp : m.lookup id' with
      | none => rfl
      | some p => simp [Progress.flags, Ne.symm hid]

end Marks

theorem Marks.sameKind {m m' : AssocMap Nat Progress} (h : Marks x m m') : SameKind m m' where
  keys := h.keys
  kind id := by
    have hflags := congrArg (Option.map Prod.snd) (h.flags id)
    simpa [Progress.flags, Function.comp_def] using hflags

/-- What a leader does with a message other than a proposal. -/
structure Works (x : Option Nat) (r r' : Raft) : Prop where
  rest : ∃ prs lprs msgs committed readStates readOnly leadTransferee electionElapsed, r' = { r with
    prs := prs, learnerPrs := lprs, msgs := msgs, raftLog := { r.raftLog with committed := committed }
    readStates := readStates, readOnly := readOnly, leadTransferee := leadTransferee
    electionElapsed := electionElapsed }
  voters : Marks x r.prs r'.prs
  learners : SameKind r.learnerPrs r'.learnerPrs
  msgs : ∃ ms, r'.msgs = r.msgs ++ ms ∧ ∀ m ∈ ms, m.type.isReplication = true → m.term = r.term

namespace Works

theorem term (h : Works x r r') : r'.term = r.term := by
  obtain ⟨_, _, _, _, _, _, _, _, rfl⟩ := h.rest
  rfl

theorem of_posts (h : Posts r r') : Works none r r' where
  rest := by
    obtain ⟨prs, lprs, msgs, rfl⟩ := h.rest
    exact ⟨_, _, _, _, _, _, _, _, rfl⟩
  voters := h.voters.marks
  learners := h.learners.sameKind
  msgs := by
    obtain ⟨ms, hms, hall⟩ := h.msgs
    exact ⟨ms, hms, fun m hm _ => (hall m hm).2⟩

/-- The peers stay as they are and nothing is sent. -/
theorem of_books (committed : Nat) (readStates : List ReadState) (readOnly : ReadOnly) (leadTransferee elapsed : Nat) :
    Works none r { r with
      raftLog := { r.raftLog with committed := committed }, readStates := readStates, readOnly := readOnly
      leadTransferee := leadTransferee, electionElapsed := elapsed } :=
  ⟨⟨_, _, _, _, _, _, _, _, rfl⟩, (SameFlags.refl _).marks, .refl _, [],
    (List.append_nil _).symm, nofun⟩

theorem refl (r : Raft) : Works none r r := .of_posts (.refl r)

theorem send {m : Message} (hm : m.type.isReplication = false) (h : r.send m = .ok r') : Works none r r' := by
  obtain ⟨t, rfl, -, -⟩ := send_spec h
  refine ⟨⟨_, _, _, _, _, _, _, _, rfl⟩, (SameFlags.refl _).marks, .refl _, [_], rfl,
    fun m' hm' hrep => ?_⟩
  rw [List.mem_singleton.mp hm', hm] at hrep
  cases hrep

theorem sameFlags (h : Works none r r') : SameFlags r.prs r'.prs where
  keys := h.voters.keys
  flags id := by
    rw [h.voters.flags id]
    cases r.prs.lookup id with
    | none => rfl
    | some p => simp [Progress.flags]

private theorem join (h : Works x r r') {y : Option Nat} (h' : Works y r' r'') {z : Option Nat}
    (hz : Marks z r.prs r''.prs) : Works z r r'' where
  rest := by
    obtain ⟨_, _, _, _, _, _, _, _, rfl⟩ := h.rest
    obtain ⟨_, _, _, _, _, _, _, _, rfl⟩ := h'.rest
    exact ⟨_, _, _, _, _, _, _, _, rfl⟩
  voters := hz
  learners := h.learners.trans h'.learners
  msgs := by
    obtain ⟨ms, hms, hall⟩ := h.msgs
    obtain ⟨ms', hms', hall'⟩ := h'.msgs
    refine ⟨ms ++ ms', by rw [hms', hms, List.append_assoc], fun m hm hrep => ?_⟩
    rcases List.mem_append.mp hm with hm | hm
    · exact hall m hm hrep
    · exact (hall' m hm hrep).trans h.term

theorem trans (h : Works x r r') (h' : Works none r' r'') : Works x r r'' :=
  h.join h' (h.voters.trans h'.sameFlags)

theorem after (h : Works none r r') (h' : Works x r' r'') : Works x r r'' :=
  h.join h' (h.sameFlags.marks_trans h'.voters)

theorem posts (h : Works x r r') (h' : Posts r' r'') : Works x r r'' := h.trans (.of_posts h')

end Works

section Handlers

/-- A peer is heard from: whatever else changes about its progress, it is active now. -/
theorem modifyProgress_works (r : Raft) (id : Nat) (f : Progress → Progress)
    (hf : ∀ p, r.getProgress id = some p → (f p).flags = (true, p.isLearner)) :
    Works (some id) r (r.modifyProgress id f) := by
  unfold Raft.modifyProgress
  split
  · refine ⟨⟨_, _, _, _, _, _, _, _, rfl⟩, .modify fun p hp => hf p ?_, .refl _, [],
      (List.append_nil _).symm, nofun⟩
    rw [Raft.getProgress, hp]
  · rename_i hnone
    have hnone := Option.not_isSome_iff_eq_none.mp hnone
    refine ⟨⟨_, _, _, _, _, _, _, _, rfl⟩, .of_not_mem hnone, (Marks.modify fun p hp => hf p ?_).sameKind, [],
      (List.append_nil _).symm, nofun⟩
    rw [Raft.getProgress, hnone]
    exact hp

theorem becomeProbe_flags (p : Progress) : p.becomeProbe.flags = p.flags := by
  unfold Progress.becomeProbe
  split <;> rfl

theorem maybeDecreasesTo_flags (p : Progress) (i j : Nat) : (p.maybeDecreasesTo i j).1.flags = p.flags := by
  unfold Progress.maybeDecreasesTo
  split
  · split <;> rfl
  split
  · rfl
  · rfl

theorem progressAfterAck_flags {p p' : Progress} {i : Nat} (h : Raft.progressAfterAck p i = .ok p') :
    p'.flags = p.flags := by
  unfold Raft.progressAfterAck at h
  split at h
  · obtain rfl := Except.ok.inj h
    rfl
  split at h
  · obtain rfl := Except.ok.inj h
    exact becomeProbe_flags p
  split at h
  · obtain ⟨w, -, h⟩ := bind_ok h
    obtain rfl := Except.ok.inj h
    rfl
  · obtain rfl := Except.ok.inj h
    rfl

theorem progressAfterBeat_flags {p p' : Progress} (h : Raft.progressAfterBeat p = .ok p') :
    p'.flags = (true, p.isLearner) := by
  unfold Raft.progressAfterBeat at h
  simp only at h
  split at h
  · obtain ⟨w, -, h⟩ := bind_ok h
    obtain rfl := Except.ok.inj h
    rfl
  · obtain rfl := Except.ok.inj h
    rfl

theorem maybeCommit_works {b : Bool} (h : r.maybeCommit = .ok (r', b)) : Works none r r' := by
  obtain ⟨c, rfl⟩ := maybeCommit_frame h
  exact .of_books c _ _ _ _

theorem leaderAppResp_works (h : r.leaderAppResp msg = .ok r') : Works (some msg.from_) r r' := by
  unfold Raft.leaderAppResp at h
  simp only at h
  have hheard := modifyProgress_works r msg.from_ (fun p => { p with recentActive := true }) fun _ _ => rfl
  generalize r.modifyProgress msg.from_ (fun p => { p with recentActive := true }) = r₁ at h hheard
  split at h
  · rw [← Except.ok.inj h]
    exact hheard
  rename_i pr hpr
  -- the progress that is written back is the one that was read, but for its position
  have hwrite : ∀ q : Progress, q.flags = pr.flags → Works (some msg.from_) r (r₁.modifyProgress msg.from_ fun _ => q) := by
    intro q hq
    refine hheard.posts (modifyProgress_posts _ _ _ fun p hp => ?_)
    rw [hq, Option.some.inj (hpr.symm.trans hp)]
  split at h
  · split at h
    · rw [← Except.ok.inj h]
      exact hheard
    · rename_i q hq
      have hflags : q.flags = pr.flags := by
        rw [← maybeDecreasesTo_flags pr msg.index msg.rejectHint, hq]
      refine (hwrite _ ?_).posts (sendAppend_posts h)
      split
      · rw [becomeProbe_flags, hflags]
      · exact hflags
  · split at h
    · rename_i q hq
      rw [← Except.ok.inj h]
      refine hwrite q ?_
      rw [← maybeUpdate_flags pr msg.index, hq]
    · rename_i q hq
      have hflags : q.flags = pr.flags := by rw [← maybeUpdate_flags pr msg.index, hq]
      obtain ⟨q', hq', h⟩ := bind_ok h
      obtain ⟨⟨r₂, changed⟩, h₂, h⟩ := bind_ok h
      obtain ⟨r₃, h₃, h⟩ := bind_ok h
      obtain ⟨r₄, h₄, h⟩ := bind_ok h
      have hsent : Works (some msg.from_) r r₄ :=
        (((hwrite q' ((progressAfterAck_flags hq').trans hflags)).trans (maybeCommit_works h₂)).posts
          (sendAfterAck_posts h₃)).posts (sendAppendLoop_posts h₄)
      split at h
      · rw [← Except.ok.inj h]
        exact hsent
      split at h
      · exact hsent.posts (sendTimeoutNow_posts h)
      · rw [← Except.ok.inj h]
        exact hsent

theorem answerReads_works (rss : List ReadIndexStatus) (h : r.answerReads rss = .ok r') : Works none r r' := by
  unfold Raft.answerReads at h
  induction rss generalizing r with
  | nil =>
      rw [List.foldlM_nil] at h
      rw [← Except.ok.inj h]
      exact .refl r
  | cons rs rss ih =>
      rw [List.foldlM_cons] at h
      obtain ⟨r₁, h₁, h⟩ := bind_ok h
      refine Works.trans ?_ (ih h)
      split at h₁
      · obtain ⟨ctx, -, h₁⟩ := bind_ok h₁
        rw [← Except.ok.inj h₁]
        exact .of_books _ _ _ _ _
      · exact .send rfl h₁

theorem leaderHeartbeatResp_works (h : r.leaderHeartbeatResp msg = .ok r') : Works (some msg.from_) r r' := by
  unfold Raft.leaderHeartbeatResp at h
  split at h
  · rename_i hnone
    rw [← Except.ok.inj h]
    have hprs : r.prs.lookup msg.from_ = none := by
      rw [Raft.getProgress] at hnone
      split at hnone
      · cases hnone
      · assumption
    have hsame := Works.refl r
    exact ⟨hsame.rest, .of_not_mem hprs, hsame.learners, hsame.msgs⟩
  rename_i pr hpr
  obtain ⟨q, hq, h⟩ := bind_ok h
  have hheard : Works (some msg.from_) r (r.modifyProgress msg.from_ fun _ => q) := by
    refine modifyProgress_works r msg.from_ _ fun p hp => ?_
    rw [progressAfterBeat_flags hq, Option.some.inj (hpr.symm.trans hp)]
  obtain ⟨r₁, h₁, h⟩ := bind_ok h
  have hsent : Works (some msg.from_) r r₁ := by
    split at h₁
    · exact hheard.posts (sendAppend_posts h₁)
    · rw [← Except.ok.inj h₁]
      exact hheard
  split at h
  · rw [← Except.ok.inj h]
    exact hsent
  simp only at h
  split at h
  · rw [← Except.ok.inj h]
    exact hsent.trans (.of_books _ _ _ _ _)
  · obtain ⟨⟨ro, rss⟩, -, h⟩ := bind_ok h
    exact (hsent.trans (.of_books _ _ _ _ _)).trans (answerReads_works rss h)

theorem leaderReadIndex_works (h : r.leaderReadIndex msg = .ok r') : Works none r r' := by
  cases leaderReadIndex_cases h with
  | waits many term same =>
      rw [same]
      exact .refl r
  | queues many safe ro ctx add context beat =>
      exact Works.posts (.of_books _ _ _ _ _) (bcastHeartbeatWithCtx_posts beat)
  | reads why ctx context read =>
      rw [read]
      exact .of_books _ _ _ _ _
  | replies many lease other sent => exact .send rfl sent

theorem leaderSnapStatus_works (r : Raft) (msg : Message) : Works none r (r.leaderSnapStatus msg) := by
  refine .of_posts (modifyProgress_posts r msg.from_ _ fun p _ => ?_)
  split
  · rfl
  split
  · exact becomeProbe_flags p
  · exact becomeProbe_flags p.snapshotFailure

theorem leaderTransferLeader_works {pr : Progress} (h : r.leaderTransferLeader pr msg = .ok r') : Works none r r' := by
  have hset : Works none r { r with electionElapsed := 0, leadTransferee := msg.from_ } := .of_books _ _ _ _ _
  cases leaderTransferLeader_cases h with
  | keeps why same =>
      rw [same]
      exact .refl r
  | aborts self transferee frame =>
      rw [frame]
      exact .of_books _ _ _ _ _
  | urges other sent => exact hset.posts (sendTimeoutNow_posts sent)
  | appends other sent => exact hset.posts (sendAppend_posts sent)

end Handlers

/-- The peer from which a leader hears by a message. -/
def Message.heard (msg : Message) : Option Nat :=
  if msg.type = .msgAppResp ∨ msg.type = .msgHeartbeatResp then some msg.from_ else none

/-- What a step does to a node that leads. -/
inductive Leads (msg : Message) (r r' : Raft) : Prop
  | works (h : Works msg.heard r r')
  | proposes (type : msg.type = .msgProp) (r₁ : Raft) (taken : Bool)
      (append : (r.filterConfChanges 0 msg.entries).1.appendEntry (r.filterConfChanges 0 msg.entries).2 =
        .ok (r₁, taken)) (posts : Posts r₁ r')
  | stepsDown (type : msg.type = .msgCheckQuorum) (lost : r.checkQuorumActive = false)
      (follows : r' = r.becomeFollower r.term 0)

section Leads

theorem Leads.of_works (hheard : msg.heard = none) (h : Works none r r') : Leads msg r r' := .works (hheard ▸ h)

theorem leaderProp_leads (hty : msg.type = .msgProp) {st : Status} (h : r.leaderProp msg = .ok (r', st)) :
    Leads msg r r' := by
  have hheard : msg.heard = none := by simp [Message.heard, hty]
  cases leaderProp_proposes h with
  | refuses why status same =>
      rw [same]
      exact .of_works hheard (.refl r)
  | drops member settled append status => exact .proposes hty r' false append (.refl r')
  | takes nonempty r₁ append cast status => exact .proposes hty r₁ true append (bcastAppend_posts cast)

theorem stepLeaderProgress_works (h : r.stepLeaderProgress msg = .ok r') : Works msg.heard r r' := by
  unfold Raft.stepLeaderProgress at h
  split at h
  · rename_i hnone
    rw [← Except.ok.inj h]
    have hsame := Works.refl r
    unfold Message.heard
    split
    · refine ⟨hsame.rest, .of_not_mem ?_, hsame.learners, hsame.msgs⟩
      rw [Raft.getProgress] at hnone
      split at hnone
      · cases hnone
      · assumption
    · exact hsame
  split at h
  · rename_i hty
    simp only [Message.heard, hty, true_or, if_true]
    exact leaderAppResp_works h
  · rename_i hty
    simp only [Message.heard, hty, or_true, if_true]
    exact leaderHeartbeatResp_works h
  · rename_i hty
    rw [← Except.ok.inj h]
    simp only [Message.heard, hty, reduceCtorEq, or_self, if_false]
    exact leaderSnapStatus_works r msg
  · rename_i hty
    rw [← Except.ok.inj h]
    simp only [Message.heard, hty, reduceCtorEq, or_self, if_false]
    refine .of_posts (modifyProgress_posts r msg.from_ _ fun p _ => ?_)
    split
    · exact becomeProbe_flags p
    · rfl
  · rename_i hty
    simp only [Message.heard, hty, reduceCtorEq, or_self, if_false]
    exact leaderTransferLeader_works h
  · rename_i hack hbeat hsnap hlost htransfer
    rw [← Except.ok.inj h]
    have hheard : msg.heard = none := if_neg (not_or.mpr ⟨hack, hbeat⟩)
    rw [hheard]
    exact .refl r

theorem stepLeader_leads {st : Status} (h : r.stepLeader msg = .ok (r', st)) : Leads msg r r' := by
  unfold Raft.stepLeader at h
  split at h
  · rename_i hty
    exact .of_works (by simp [Message.heard, hty]) (.of_posts (bcastHeartbeatWithCtx_posts (withOk_ok h)))
  · rename_i hty
    rw [← (Prod.mk.inj (Except.ok.inj h)).1]
    split
    · rename_i hlost
      exact .stepsDown hty (by simpa using hlost) rfl
    · exact .of_works (by simp [Message.heard, hty]) (.refl r)
  · rename_i hty
    exact leaderProp_leads hty h
  · rename_i hty
    exact .of_works (by simp [Message.heard, hty]) (leaderReadIndex_works (withOk_ok h))
  · exact .works (stepLeaderProgress_works (withOk_ok h))

/-- Refusing changes of the configuration moves nothing but the index of the pending one. -/
theorem filterConfChanges_frame (r : Raft) (i : Nat) (es : List Entry) :
    ∃ p, (r.filterConfChanges i es).1 = { r with pendingConfIndex := p } := by
  induction es generalizing r i with
  | nil => exact ⟨_, rfl⟩
  | cons e es ih =>
      unfold Raft.filterConfChanges
      split
      · split
        · exact ih r (i + 1)
        · exact ih { r with pendingConfIndex := r.raftLog.lastIndex + i + 1 } (i + 1)
      · exact ih r (i + 1)

/-- A leader that works or proposes goes on to lead its term with the same voters. -/
theorem Leads.goes_on (h : Leads msg r r') :
    r' = r.becomeFollower r.term 0 ∧ msg.type = .msgCheckQuorum ∧ r.checkQuorumActive = false ∨
      r'.id = r.id ∧ r'.state = r.state ∧ r'.term = r.term ∧ Marks msg.heard r.prs r'.prs ∧
        SameKind r.learnerPrs r'.learnerPrs ∧
        ∃ ms, r'.msgs = r.msgs ++ ms ∧ ∀ m ∈ ms, m.type.isReplication = true → m.term = r.term := by
  cases h with
  | works h =>
      refine Or.inr ⟨?_, ?_, h.term, h.voters, h.learners, h.msgs⟩
      · obtain ⟨_, _, _, _, _, _, _, _, rfl⟩ := h.rest
        rfl
      · obtain ⟨_, _, _, _, _, _, _, _, rfl⟩ := h.rest
        rfl
  | proposes type r₁ taken append posts =>
      have hheard : msg.heard = none := by simp [Message.heard, type]
      obtain ⟨p, hfilter⟩ := filterConfChanges_frame r 0 msg.entries
      rw [hfilter] at append
      refine Or.inr ?_
      obtain ⟨ms, hms, hall⟩ := posts.msgs
      rw [hheard]
      obtain ⟨-, rfl⟩ | ⟨-, -, log, c, prs, lprs, u, -, hvoters, hlearners, rfl⟩ := appendEntry_frame append
      · exact ⟨by obtain ⟨_, _, _, rfl⟩ := posts.rest; rfl, posts.state, posts.term, posts.voters.marks,
          posts.learners.sameKind, ms, hms, fun m hm _ => (hall m hm).2⟩
      · exact ⟨by obtain ⟨_, _, _, rfl⟩ := posts.rest; rfl, posts.state, posts.term, (hvoters.trans posts.voters).marks,
          (hlearners.trans posts.learners).sameKind, ms, hms, fun m hm _ => (hall m hm).2⟩
  | stepsDown type lost follows => exact Or.inl ⟨follows, type, lost⟩

/-- The peer from which a node that leads hears by stepping a message: one of an older term is not
looked at. -/
def Raft.hears (r : Raft) (msg : Message) : Option Nat :=
  if msg.term ≠ 0 ∧ msg.term < r.term then none else msg.heard

theorem heard_none (hack : msg.type ≠ .msgAppResp) (hbeat : msg.type ≠ .msgHeartbeatResp) : r.hears msg = none := by
  unfold Raft.hears Message.heard
  rw [if_neg (not_or.mpr ⟨hack, hbeat⟩), ite_self]

theorem send_peers {m : Message} (h : r.send m = .ok r') : r'.id = r.id ∧ r'.term = r.term ∧ SamePeers r r' := by
  obtain ⟨t, rfl, -, -⟩ := send_spec h
  exact ⟨rfl, rfl, rfl, rfl⟩

theorem stepVote_peers (h : r.stepVote msg = .ok r') : r'.id = r.id ∧ r'.term = r.term ∧ SamePeers r r' := by
  obtain ⟨ms, elapsed, vote, rfl⟩ := stepVote_frame h
  exact ⟨rfl, rfl, rfl, rfl⟩

theorem lowerTerm_peers (h : r.lowerTerm msg = .ok r') : r'.id = r.id ∧ r'.term = r.term ∧ SamePeers r r' := by
  rcases lowerTerm_cases h with rfl | ⟨m, -, hsent⟩
  · exact ⟨rfl, rfl, rfl, rfl⟩
  · exact send_peers hsent

/-- A step leads a node out of its term or its role, or marks who was heard from. -/
theorem leader_step (hl : r.state = .leader) {st : Status} (h : r.step msg = .ok (r', st)) :
    r.term < msg.term ∧ r.term < r'.term ∨ r'.state ≠ .leader ∨
      r'.id = r.id ∧ r'.term = r.term ∧ Marks (r.hears msg) r.prs r'.prs := by
  have hsame : SamePeers r r' → r.hears msg = none → Marks (r.hears msg) r.prs r'.prs := by
    intro hpeers hnone
    rw [hnone, hpeers.prs]
    exact (SameFlags.refl _).marks
  have hbody : ¬ (msg.term ≠ 0 ∧ msg.term < r.term) → r.stepBody msg = .ok (r', st) →
      r.term < msg.term ∧ r.term < r'.term ∨ r'.state ≠ .leader ∨
        r'.id = r.id ∧ r'.term = r.term ∧ Marks (r.hears msg) r.prs r'.prs := by
    intro hlow h
    unfold Raft.stepBody at h
    split at h
    · rename_i hty
      have h := withOk_ok h
      rw [Raft.stepHup, if_neg (not_not.mpr hl)] at h
      obtain rfl := Except.ok.inj h
      exact Or.inr (Or.inr ⟨rfl, rfl, hsame ⟨rfl, rfl⟩ (heard_none (by simp [hty]) (by simp [hty]))⟩)
    · rename_i hty
      exact Or.inr (Or.inr ((stepVote_peers (withOk_ok h)).imp_right (And.imp_right fun hpeers =>
        hsame hpeers (heard_none (by simp [hty]) (by simp [hty])))))
    · rename_i hty
      exact Or.inr (Or.inr ((stepVote_peers (withOk_ok h)).imp_right (And.imp_right fun hpeers =>
        hsame hpeers (heard_none (by simp [hty]) (by simp [hty])))))
    · rw [hl] at h
      rcases (stepLeader_leads h).goes_on with ⟨rfl, -⟩ | ⟨hid, -, hterm, hmarks, -⟩
      · exact Or.inr (Or.inl nofun)
      · rw [Raft.hears, if_neg hlow]
        exact Or.inr (Or.inr ⟨hid, hterm, hmarks⟩)
  cases step_way h with
  | stays term body => exact hbody (by omega) body
  | follows later lead heard body =>
      refine Or.inl ⟨later, ?_⟩
      have hterm := (stepBody_handles (fun _ => by simp [Raft.becomeFollower]) body).term
      rw [Raft.becomeFollower, Raft.reset_term] at hterm
      omega
  | leased later type same =>
      obtain rfl := same
      refine Or.inr (Or.inr ⟨rfl, rfl, hsame ⟨rfl, rfl⟩ (heard_none ?_ ?_)⟩)
      · rcases type with type | type <;> simp [type]
      · rcases type with type | type <;> simp [type]
  | stale sent earlier lower =>
      obtain ⟨hid, hterm, hpeers⟩ := lowerTerm_peers lower
      exact Or.inr (Or.inr ⟨hid, hterm, hsame hpeers (if_pos ⟨sent, earlier⟩)⟩)

end Leads

end RaftEtcd
