import RaftEtcd.Elected

/-! Only a leader replicates: who puts appends, snapshots, heartbeats and requests to take over into
the outbox of a node. -/
namespace RaftEtcd
variable {r r' r'' : Raft} {msg : Message} {n n₀ n' : RawNode} {a : NodeAction}

/-- Whatever the node has sent that only a leader sends, it has sent as the leader of its term. -/
structure Speaks (r r' : Raft) : Prop where
  msgs : ∃ ms, r'.msgs = r.msgs ++ ms ∧
    ∀ m ∈ ms, m.type.isReplication = true → r'.state = .leader ∧ m.term = r'.term

theorem Quiet.speaks (h : Quiet r r') : Speaks r r' := by
  obtain ⟨ms, hms, hall⟩ := h.msgs
  refine ⟨ms, hms, fun m hm hrep => ?_⟩
  rw [hall m hm] at hrep
  cases hrep

theorem Speaks.of_same (hid : r'.id = r.id) (hmsgs : r'.msgs = r.msgs) : Speaks r r' := (Quiet.of_same hid hmsgs).speaks

theorem Quiet.speaks_trans (h : Quiet r r') (h' : Speaks r' r'') : Speaks r r'' := by
  obtain ⟨ms, hms, hall⟩ := h.msgs
  obtain ⟨ms', hms', hall'⟩ := h'.msgs
  refine ⟨ms ++ ms', by rw [hms', hms, List.append_assoc], fun m hm hrep => ?_⟩
  rcases List.mem_append.mp hm with hm | hm
  · rw [hall m hm] at hrep
    cases hrep
  · exact hall' m hm hrep

theorem Posts.speaks (h : Posts r r') (hl : r.state = .leader) : Speaks r r' := by
  obtain ⟨ms, hms, hall⟩ := h.msgs
  exact ⟨ms, hms, fun m hm _ => ⟨h.state.trans hl, (hall m hm).2.trans h.term.symm⟩⟩

/-- A node that does not lead knows nothing of what the others hold. -/
def Raft.Idle (r : Raft) : Prop := r.state ≠ .leader → r.Unmatched

section Steps

theorem poll_quiet (r : Raft) (id : Nat) (v : Bool) : Quiet r (r.poll id v).1 := by
  obtain ⟨votes, hpoll⟩ := poll_frame r id v
  rw [hpoll]
  exact .of_same rfl rfl

theorem Turns.speaks (h : Turns msg r r') : Speaks r r' := by
  cases h with
  | follows quiet state peers members => exact quiet.speaks
  | stays quiet state votes peers members => exact quiet.speaks
  | tallies role type tally =>
      rw [tally]
      exact (poll_quiet r _ _).speaks
  | campaigns guard campaigned => exact campaigned.quiet.speaks
  | wins role type l lead posts =>
      have hnew := becomeLeader_new lead
      have hlead : Quiet (r.poll msg.from_ (!msg.reject)).1 l := .of_same hnew.id hnew.msgs
      exact ((poll_quiet r _ _).trans hlead).speaks_trans (posts.speaks hnew.state)

theorem Turns.idle (hi : r.Idle) (h : Turns msg r r') : r'.Idle := by
  intro hr
  cases h with
  | follows quiet state peers members =>
      rcases peers with ⟨hf, hpeers⟩ | hunmatched
      · exact (hi (by simp [hf])).congr quiet.id hpeers
      · exact hunmatched
  | stays quiet state votes peers members =>
      rw [state] at hr
      exact (hi hr).congr quiet.id peers
  | tallies role type tally =>
      have hrole : r.state ≠ .leader := by rcases role with hs | hs <;> simp [hs]
      obtain ⟨votes, hpoll⟩ := poll_frame r msg.from_ (!msg.reject)
      rw [tally, hpoll]
      exact (hi hrole).congr rfl ⟨rfl, rfl⟩
  | campaigns guard campaigned =>
      rcases campaigned.peers with hl | ⟨hrole, hpeers⟩ | hunmatched
      · exact absurd hl hr
      · exact (hi hrole).congr campaigned.quiet.id hpeers
      · exact hunmatched
  | wins role type l lead posts => exact absurd (posts.state.trans (becomeLeader_new lead).state) hr

/-- A step keeps to the rule from every state. -/
theorem step_speaks {st : Status} (h : r.step msg = .ok (r', st)) : Speaks r r' := by
  rcases step_turns h with hturn | ⟨hl, hlead⟩
  · exact hturn.speaks
  · rcases (stepLeader_leads hlead).goes_on with ⟨rfl, -⟩ | ⟨-, hstate, hterm, -, -, ms, hms, hall⟩
    · exact (becomeFollower_quiet r _ _).speaks
    · exact ⟨ms, hms, fun m hm hrep => ⟨hstate.trans hl, (hall m hm hrep).trans hterm.symm⟩⟩

theorem step_idle (hi : r.Idle) {st : Status} (h : r.step msg = .ok (r', st)) : r'.Idle := by
  rcases step_turns h with hturn | ⟨hl, hlead⟩
  · exact hturn.idle hi
  · rcases (stepLeader_leads hlead).goes_on with ⟨rfl, -⟩ | ⟨-, hstate, -⟩
    · exact fun _ => becomeFollower_unmatched r _ _
    · exact fun hr => absurd (hstate.trans hl) hr

/-- The check of the quorum sends nothing. -/
theorem checkQuorum_quiet (hl : r.state = .leader) {st : Status} {id : Nat}
    (h : r.step { from_ := id, type := .msgCheckQuorum } = .ok (r', st)) : Quiet r r' := by
  unfold Raft.step at h
  rw [if_pos rfl] at h
  unfold Raft.stepBody at h
  simp only [hl, Raft.stepLeader] at h
  rw [← (Prod.mk.inj (Except.ok.inj h)).1]
  split
  · exact becomeFollower_quiet r _ _
  · exact .refl r

theorem tick_speaks (h : r.tick = .ok r') : Speaks r r' := by
  cases tick_ticks h with
  | waits timed => exact timed.quiet.speaks
  | stands r₁ timed role promotable st step => exact timed.quiet.speaks_trans (step_speaks step)
  | beats r₁ r₂ r₃ role timed check timed' beat =>
      have hstate : r₁.state = .leader := by
        obtain ⟨_, _, _, rfl⟩ := timed
        exact role
      have hcheck : Quiet r₁ r₂ := by
        rcases check with rfl | ⟨st, hstep⟩
        · exact .refl r₂
        · exact checkQuorum_quiet hstate hstep
      have hquiet : Quiet r r₃ := (timed.quiet.trans hcheck).trans timed'.quiet
      rcases beat with rfl | ⟨-, st, hstep⟩
      · exact hquiet.speaks
      · exact hquiet.speaks_trans (step_speaks hstep)

theorem Timed.idle (h : Timed r r') (hi : r.Idle) : r'.Idle := by
  obtain ⟨_, _, _, rfl⟩ := h
  exact fun hr => (hi hr).congr rfl ⟨rfl, rfl⟩

theorem tick_idle (hi : r.Idle) (h : r.tick = .ok r') : r'.Idle := by
  cases tick_ticks h with
  | waits timed => exact timed.idle hi
  | stands r₁ timed role promotable st step => exact step_idle (timed.idle hi) step
  | beats r₁ r₂ r₃ role timed check timed' beat =>
      have hi₂ : r₂.Idle := by
        rcases check with rfl | ⟨st, hstep⟩
        · exact timed.idle hi
        · exact step_idle (timed.idle hi) hstep
      rcases beat with rfl | ⟨-, st, hstep⟩
      · exact timed'.idle hi₂
      · exact step_idle (timed'.idle hi₂) hstep

end Steps

section Changes

/-- Where no other voter is known to hold anything, only the entries of a single voter become
committed. -/
theorem maybeCommit_alone (hu : r.Unmatched) (h : r.maybeCommit = .ok (r', true)) :
    r.prs.keys = [r.id] ∧ ∃ p, r.prs.lookup r.id = some p ∧ r.raftLog.committed < p.matched ∧
      r.raftLog.term p.matched = .ok r.term := by
  unfold Raft.maybeCommit at h
  simp only at h
  split at h
  · cases h
  rename_i hlen
  split at h
  · cases h
  rename_i mci hmci
  obtain ⟨⟨log, changed⟩, hlog, h⟩ := bind_ok h
  obtain rfl := (Prod.mk.inj (Except.ok.inj h)).2
  have hcommits : r.raftLog.committed < mci ∧ r.raftLog.term mci = .ok r.term := by
    unfold RaftLog.maybeCommit at hlog
    split at hlog
    · rename_i hlt
      split at hlog
      · cases hlog
      rename_i t ht
      split at hlog
      · rename_i heq
        exact ⟨hlt, heq ▸ ht⟩
      · cases hlog
    · cases hlog
  have hcount := List.le_countP_insertionSort _ hmci
  obtain ⟨Q, hQ, hcard⟩ := AssocMap.exists_finset_countP r.prs fun p => mci ≤ p.matched
  have hself : Q ⊆ {r.id} := by
    intro id hid
    obtain ⟨p, hp, hle⟩ := hQ id hid
    by_contra hne
    have hzero := hu.voters id p (by simpa using hne) hp
    have hle : mci ≤ p.matched := of_decide_eq_true hle
    omega
  have hkeys : r.prs.keys.length = (AssocMap.values r.prs).length := by
    simp [AssocMap.values, AList.keys, List.keys]
  simp only [List.length_map, List.length_insertionSort, List.countP_map] at hcount hlen
  have hQcard : r.quorum ≤ Q.card := by
    rw [hcard]
    refine le_trans ?_ (hcount.trans_eq (List.countP_congr fun p _ => Iff.rfl))
    unfold Raft.quorum at hlen ⊢
    omega
  have hone : r.prs.keys.length = 1 := by
    have hle := hQcard.trans (Finset.card_le_card hself)
    rw [Finset.card_singleton] at hle
    unfold Raft.quorum at hle hlen
    omega
  obtain ⟨id, hid⟩ := List.length_eq_one_iff.mp hone
  have hne : Q.Nonempty := Finset.card_pos.mp (by unfold Raft.quorum at hQcard; omega)
  obtain ⟨k, hk⟩ := hne
  obtain ⟨p, hp, hle⟩ := hQ k hk
  obtain rfl := Finset.mem_singleton.mp (hself hk)
  have hmem : r.id ∈ r.prs.keys := (AssocMap.lookup_isSome_iff _ _).mp (by rw [hp]; rfl)
  rw [hid, List.mem_singleton] at hmem
  refine ⟨by rw [hid, hmem], p, hp, ?_⟩
  have hvalues : AssocMap.values r.prs = [p] := by
    obtain ⟨q, hq⟩ := List.length_eq_one_iff.mp (hkeys.symm.trans hone)
    have hpmem : p ∈ AssocMap.values r.prs := List.mem_map.mpr ⟨⟨r.id, p⟩, AList.mem_lookup_iff.mp hp, rfl⟩
    rw [hq, List.mem_singleton] at hpmem
    rw [hq, hpmem]
  have hmatched : p.matched = mci := by
    have hq : r.quorum = 1 := by rw [Raft.quorum, hone]
    simpa [hvalues, hq] using hmci
  rw [hmatched]
  exact hcommits

/-- The removal leaves the node, which does not lead, as the only voter: with an entry of its term
that nobody else is asked for, and a learner to tell of it. -/
def Raft.CommitsAlone (r : Raft) (id : Nat) : Prop :=
  r.state ≠ .leader ∧ (r.prs.erase id).keys = [r.id] ∧ (∃ k ∈ (r.learnerPrs.erase id).keys, k ≠ r.id) ∧
    ∃ p, r.prs.lookup r.id = some p ∧ r.raftLog.committed < p.matched ∧ r.raftLog.term p.matched = .ok r.term

theorem delProgress_unmatched (hu : r.Unmatched) (id : Nat) : (r.delProgress id).Unmatched := by
  have herase : ∀ (m : AssocMap Nat Progress) k p, (m.erase id).lookup k = some p → m.lookup k = some p := by
    intro m k p hp
    by_cases hk : k = id
    · subst hk
      rw [AList.lookup_erase] at hp
      cases hp
    · rwa [AList.lookup_erase_ne hk] at hp
  exact ⟨fun k p hne hp => hu.voters k p hne (herase _ k p hp),
    fun k p hne hp => hu.learners k p hne (herase _ k p hp)⟩

/-- What a node that does not lead does when it removes another: nothing goes out. -/
theorem removeNode_idle (hu : r.Unmatched) {id : Nat} (hr : r.state ≠ .leader) (hc : ¬ r.CommitsAlone id)
    (h : r.removeNode id = .ok r') : Quiet r r' ∧ r'.Unmatched := by
  have hdel := delProgress_unmatched hu id
  have hsame : Quiet r (r.delProgress id) := .of_same rfl rfl
  rcases removeNode_cases h with rfl | ⟨r₁, changed, r₂, hcommit, hsend, htimed⟩
  · exact ⟨hsame, hdel⟩
  have hlog : Quiet (r.delProgress id) r₁ ∧ SamePeers (r.delProgress id) r₁ := by
    obtain ⟨c, rfl⟩ := maybeCommit_frame hcommit
    exact ⟨.of_same rfl rfl, rfl, rfl⟩
  have hstay : r₂ = r₁ := by
    rcases hsend with ⟨-, heq⟩ | ⟨rfl, hbcast⟩
    · exact heq
    -- the node is the only voter that is left, and has no learner to tell
    obtain ⟨hkeys, p, hp, hlt, hterm⟩ := maybeCommit_alone hdel hcommit
    have hid : r₁.id = r.id := (hsame.trans hlog.1).id
    have hp : r.prs.lookup r.id = some p := by
      have hne : r.id ≠ id := by
        intro heq
        change (r.prs.erase id).lookup r.id = some p at hp
        rw [heq, AList.lookup_erase] at hp
        cases hp
      exact (AList.lookup_erase_ne hne).symm.trans hp
    have hnobody : r₁.progressIds.filter (fun k => k ≠ r₁.id) = [] := by
      rw [List.filter_eq_nil_iff]
      intro k hk
      rw [Raft.progressIds, hlog.2.prs, hlog.2.learnerPrs, List.mem_append, hkeys, List.mem_singleton] at hk
      rw [hid]
      rcases hk with hk | hk
      · have hk : k = r.id := hk
        simpa using hk
      · by_contra hne
        exact hc ⟨hr, hkeys, ⟨k, hk, by simpa using hne⟩, p, hp, hlt, hterm⟩
    unfold Raft.bcastAppend at hbcast
    rw [hnobody, List.foldlM_nil] at hbcast
    exact (Except.ok.inj hbcast).symm
  subst hstay
  refine ⟨(hsame.trans hlog.1).trans htimed.quiet, ?_⟩
  obtain ⟨_, _, _, rfl⟩ := htimed
  exact (hdel.congr hlog.1.id hlog.2).congr rfl ⟨rfl, rfl⟩

theorem markAdded_unmatched (hu : r.Unmatched) (id : Nat) (b : Bool) : (r.markAdded id b).Unmatched := by
  have hset : (if r.id = id then { r with isLearner := b } else r).Unmatched := by
    split
    · exact hu.congr rfl ⟨rfl, rfl⟩
    · exact hu
  unfold Raft.markAdded
  simp only
  generalize (if r.id = id then { r with isLearner := b } else r) = g at hset
  have hmodify : ∀ (m : AssocMap Nat Progress), (∀ k p, k ≠ g.id → m.lookup k = some p → p.matched = 0) →
      ∀ k p, k ≠ g.id → (AssocMap.modify id (fun p => { p with recentActive := true }) m).lookup k = some p →
        p.matched = 0 := by
    intro m hm k p hne hp
    by_cases hk : k = id
    · subst hk
      rw [AssocMap.lookup_modify_self] at hp
      obtain ⟨q, hq, rfl⟩ := Option.map_eq_some_iff.mp hp
      exact hm k q hne hq
    · rw [AssocMap.lookup_modify_ne hk] at hp
      exact hm k p hne hp
  unfold Raft.modifyProgress
  split
  · exact ⟨hmodify g.prs hset.voters, hset.learners⟩
  · exact ⟨hset.voters, hmodify g.learnerPrs hset.learners⟩

theorem addNodeOrLearner_unmatched (hu : r.Unmatched) {id : Nat} {b : Bool} (h : r.addNodeOrLearner id b = .ok r') :
    r'.Unmatched := by
  unfold Raft.addNodeOrLearner at h
  split at h
  · obtain ⟨r₁, h₁, h⟩ := bind_ok h
    rw [← Except.ok.inj h]
    exact markAdded_unmatched (setProgress_unmatched (fun _ => rfl) hu h₁) id b
  rename_i pr hpr
  split at h
  · rwa [← Except.ok.inj h]
  split at h
  · rwa [← Except.ok.inj h]
  · rw [← Except.ok.inj h]
    refine markAdded_unmatched ⟨fun k p hne hp => ?_, fun k p hne hp => ?_⟩ id b
    · -- a learner that is promoted keeps its progress
      by_cases hk : k = id
      · subst hk
        simp only [AList.lookup_insert, Option.some.injEq] at hp
        rw [← hp]
        rw [Raft.getProgress] at hpr
        split at hpr
        · rename_i q hq
          exact hu.voters k pr hne (hq.trans hpr)
        · exact hu.learners k pr hne hpr
      · simp only [AList.lookup_insert_ne hk] at hp
        exact hu.voters k p hne hp
    · by_cases hk : k = id
      · subst hk
        simp only [AList.lookup_erase] at hp
        cases hp
      · simp only [AList.lookup_erase_ne hk] at hp
        exact hu.learners k p hne hp

end Changes

section Runs

/-- A node that does not lead removes no node such that it alone commits entries of its term. -/
def NodeAction.NoLoneCommit (n : RawNode) : NodeAction → Prop
  | .applyConfChange cc => cc.confChangeType = confChangeRemoveNode → ¬ n.raft.CommitsAlone cc.nodeId
  | _ => True

theorem Configures.speaks {cc : ConfChange} (hi : r.Idle)
    (hc : cc.confChangeType = confChangeRemoveNode → ¬ r.CommitsAlone cc.nodeId) (h : Configures cc r r') :
    Speaks r r' ∧ r'.Idle := by
  have hadd : ∀ {b : Bool}, r.addNodeOrLearner cc.nodeId b = .ok r' → Speaks r r' ∧ r'.Idle := by
    intro b hadd
    have hunmatched := fun hu => addNodeOrLearner_unmatched hu hadd
    obtain ⟨_, _, _, rfl⟩ := addNodeOrLearner_frame hadd
    exact ⟨.of_same rfl rfl, fun hr => hunmatched (hi hr)⟩
  cases h with
  | ignores change same =>
      rw [same]
      exact ⟨(Quiet.refl r).speaks, hi⟩
  | adds node type add => exact hadd add
  | addsLearner node type add => exact hadd add
  | removes node type remove =>
      by_cases hl : r.state = .leader
      · -- a leader may tell its peers
        have hdel : Quiet r (r.delProgress cc.nodeId) := .of_same rfl rfl
        rcases removeNode_cases remove with rfl | ⟨r₁, changed, r₂, hcommit, hsend, htimed⟩
        · exact ⟨hdel.speaks, fun hr => absurd hl hr⟩
        have hlog : Quiet r r₁ ∧ r₁.state = .leader := by
          obtain ⟨c, rfl⟩ := maybeCommit_frame hcommit
          exact ⟨.of_same rfl rfl, hl⟩
        have hspeaks : Speaks r r₂ ∧ r₂.state = .leader := by
          rcases hsend with ⟨-, rfl⟩ | ⟨-, hbcast⟩
          · exact ⟨hlog.1.speaks, hlog.2⟩
          · have hposts := bcastAppend_posts hbcast
            exact ⟨hlog.1.speaks_trans (hposts.speaks hlog.2), hposts.state.trans hlog.2⟩
        obtain ⟨_, _, _, rfl⟩ := htimed
        exact ⟨⟨hspeaks.1.msgs⟩, fun hr => absurd hspeaks.2 hr⟩
      · obtain ⟨hquiet, hunmatched⟩ := removeNode_idle (hi hl) hl (hc type) remove
        exact ⟨hquiet.speaks, fun _ => hunmatched⟩

/-- One operation. What a `Ready` takes out is gone; nothing else is taken out. -/
theorem run_speaks (hi : n.raft.Idle) (ha : a.NoLoneCommit n) (h : n.run a = .ok n') :
    (Speaks n.raft n'.raft ∨ n'.raft.msgs = []) ∧ n'.raft.Idle := by
  cases run_operates h with
  | refuses message same =>
      rw [same]
      exact ⟨Or.inl (Quiet.refl _).speaks, hi⟩
  | steps msg message r' st step node =>
      rw [node]
      exact ⟨Or.inl (step_speaks step), step_idle hi step⟩
  | ticks action r' tick node =>
      rw [node]
      exact ⟨Or.inl (tick_speaks tick), tick_idle hi tick⟩
  | configures cc action cs apply =>
      subst action
      obtain ⟨hspeaks, hidle⟩ := (applyConfChange_configures apply).1.speaks hi ha
      exact ⟨Or.inl hspeaks, hidle⟩
  | readies action rd ready =>
      rw [ready_frame ready]
      exact ⟨Or.inr rfl, fun hr => (hi hr).congr rfl ⟨rfl, rfl⟩⟩
  | advances rd action node =>
      rw [node]
      exact ⟨Or.inl (.of_same rfl rfl), fun hr => (hi hr).congr rfl ⟨rfl, rfl⟩⟩
  | stores storage action node =>
      rw [node]
      exact ⟨Or.inl (.of_same rfl rfl), fun hr => (hi hr).congr rfl ⟨rfl, rfl⟩⟩

/-- A node starts as a follower that knows nothing of the others. -/
theorem started_unmatched {c : Config}
    (h : RawNode.restartNode c = .ok n ∨ ∃ serialize peers, RawNode.startNode serialize c peers = .ok n) :
    n.raft.Unmatched := by
  have hnew : ∀ {r : Raft}, Raft.new c = .ok r → r.Unmatched := by
    intro r hr
    obtain ⟨⟨peers, learners⟩, -, hr⟩ := bind_ok hr
    obtain ⟨r₁, -, hr⟩ := bind_ok hr
    obtain ⟨r₂, -, hr⟩ := bind_ok hr
    rw [← Except.ok.inj hr]
    exact becomeFollower_unmatched _ _ _
  refine started_holds h (fun r hr => hnew hr) (fun r es log _ _ _ _ => ?_) fun r r' id hr hadd =>
    addNodeOrLearner_unmatched hr hadd
  exact (becomeFollower_unmatched r 1 0).congr rfl ⟨rfl, rfl⟩

/-- In every run in which no node that does not lead commits alone by a removal, every append,
snapshot, heartbeat and request to take over that an operation sends is sent by the leader of a term,
and carries it. -/
theorem only_leaders_replicate {c : Config}
    (hstart : RawNode.restartNode c = .ok n₀ ∨ ∃ serialize peers, RawNode.startNode serialize c peers = .ok n₀)
    (hrun : RawNode.Runs NodeAction.NoLoneCommit n₀ n) (ha : a.NoLoneCommit n) (h : n.run a = .ok n') {m : Message}
    (hm : m ∈ n'.raft.msgs.drop n.raft.msgs.length) (hrep : m.type.isReplication = true) :
    n'.raft.state = .leader ∧ m.term = n'.raft.term := by
  have hi : n.raft.Idle := by
    clear ha h hm
    induction hrun with
    | refl => exact fun _ => started_unmatched hstart
    | tail _ hstep ih =>
        obtain ⟨b, hb, hstep⟩ := hstep
        exact (run_speaks ih hb hstep).2
  rcases (run_speaks hi ha h).1 with hspeaks | hnone
  · obtain ⟨ms, hms, hall⟩ := hspeaks.msgs
    rw [hms, List.drop_left] at hm
    exact hall m hm hrep
  · rw [hnone, List.drop_nil] at hm
    cases hm

theorem only_leaders_replicate_elected : ∃ (n₀ n n' : RawNode) (m : Message), firstVoter = .ok n₀ ∧
    n.run secondVote = .ok n' ∧ m ∈ n'.raft.msgs.drop n.raft.msgs.length ∧ m.type = .msgApp ∧
      n'.raft.state = .leader ∧ m.term = n'.raft.term := by
  obtain ⟨n₀, n, n', hstart, hrun, hvote, hcheck⟩ := RawNode.trial_spec (x := firstVoter) (a := secondVote)
    (p := fun _ n n' => (n'.raft.msgs.drop n.raft.msgs.length).any fun m => decide (m.type = .msgApp))
    (show (RawNode.trial _ [.campaign] _ _).toOption = _ by decide +kernel)
  obtain ⟨m, hm, hty⟩ := List.any_eq_true.mp hcheck
  have hty : m.type = .msgApp := of_decide_eq_true hty
  have hruns : RawNode.Runs NodeAction.NoLoneCommit n₀ n := by
    refine RawNode.runAll_runs [.campaign] ?_ hrun
    intro _ b hb
    rw [List.mem_singleton.mp hb]
    trivial
  obtain ⟨hlead, hterm⟩ := only_leaders_replicate (a := secondVote) (Or.inl hstart) hruns trivial hvote hm
    (by rw [hty]; rfl)
  exact ⟨n₀, n, n', m, hstart, hvote, hm, hty, hlead, hterm⟩

/-- Two voters and a learner. -/
def pairAndLearner : ClusterConfig where
  voters := [1, 2]
  learners := [4]
  settings _ := serverSettings false
  nodup := by decide
  nonzero := by decide

/-- The first voter is elected, hears from nobody for an election timeout and follows. -/
def winAndLose : List NodeAction := [.campaign, secondVote] ++ List.replicate 10 .tick

/-- It is told then that the second voter is gone. -/
def removeSecond : NodeAction := .applyConfChange { confChangeType := confChangeRemoveNode, nodeId := 2 }

/-- A follower commits the entry of the term it once led, and sends it to the learner. -/
theorem follower_replicates : ∃ (n₀ n n' : RawNode) (m : Message),
    RawNode.restartNode (pairAndLearner.config 1 {} 0 fun _ => 0) = .ok n₀ ∧ n₀.runAll winAndLose = .ok n ∧
      n.run removeSecond = .ok n' ∧ m ∈ n'.raft.msgs.drop n.raft.msgs.length ∧ m.type = .msgApp ∧
      n.raft.state = .follower ∧ n'.raft.state = .follower := by
  obtain ⟨n₀, n, n', hstart, hrun, hremove, hcheck⟩ := RawNode.trial_spec (a := removeSecond)
    (p := fun _ n n' => decide (n.raft.state = .follower ∧ n'.raft.state = .follower) &&
      (n'.raft.msgs.drop n.raft.msgs.length).any fun m => decide (m.type = .msgApp))
    (show (RawNode.trial (RawNode.restartNode (pairAndLearner.config 1 {} 0 fun _ => 0)) winAndLose _ _).toOption = _
      by decide +kernel)
  obtain ⟨hstates, hsent⟩ := Bool.and_eq_true_iff.mp hcheck
  obtain ⟨hbefore, hafter⟩ := of_decide_eq_true hstates
  obtain ⟨m, hm, hty⟩ := List.any_eq_true.mp hsent
  exact ⟨n₀, n, n', m, hstart, hrun, hremove, hm, of_decide_eq_true hty, hbefore, hafter⟩

end Runs

end RaftEtcd
