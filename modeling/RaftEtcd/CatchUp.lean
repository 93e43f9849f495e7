import RaftEtcd.NodeRun

/-! How a leader learns that a follower has taken over a snapshot: the follower answers `MsgSnap`
with a `MsgAppResp`, whose index should move the leader's progress out of the snapshot state. -/
namespace RaftEtcd
variable {r r' f f' : Raft} {msg resp : Message}

/-- One of the messages that a node adds when it steps another one. -/
def Raft.Replies (f : Raft) (msg resp : Message) : Prop :=
  ∃ f' st, f.step msg = .ok (f', st) ∧ resp ∈ f'.msgs.drop f.msgs.length

/-- The leader has seen the follower reach the snapshot and sends it entries again. -/
def CaughtUp (r : Raft) (id index : Nat) : Prop :=
  ∃ p, r.getProgress id = some p ∧ index ≤ p.matched ∧ p.state ≠ .snapshot ∧ index + 1 ≤ p.next

/-- A message that belongs to the term of the node reaches its handlers. -/
theorem step_same_term (h : msg.term = r.term) : r.step msg = r.stepBody msg := by
  unfold Raft.step
  rw [h]
  simp

/-- The answer to a snapshot carries no index, whatever became of the snapshot. -/
theorem handleSnapshot_reply (h : f.handleSnapshot msg = .ok f') :
    f'.msgs = f.msgs ++ [{ type := .msgAppResp, to_ := msg.from_, from_ := f.id, term := f.term }] := by
  obtain ⟨⟨f₁, b⟩, h₁, h⟩ := bind_ok h
  obtain ⟨t, rfl, -, ht⟩ := send_spec h
  obtain rfl := ht rfl (by simp)
  rcases restore_spec h₁ with rfl | ⟨log, -, rfl⟩ | ⟨-, prs, lprs, l, rfl⟩
  all_goals rfl

/-- A message from the leader of its term is ignored by a node that leads itself, and goes to the
handler of its type in every other one. -/
theorem from_leader_handled (hty : msg.type.isFromLeader = true) (hterm : f.term = msg.term) {st : Status}
    (h : f.step msg = .ok (f', st)) :
    f'.msgs = f.msgs ∨ ∃ g : Raft, g.id = f.id ∧ g.term = f.term ∧ g.msgs = f.msgs ∧
      (match msg.type with
        | .msgApp => g.handleAppendEntries msg
        | .msgHeartbeat => g.handleHeartbeat msg
        | _ => g.handleSnapshot msg) = .ok f' := by
  have hcand : (f.becomeFollower msg.term msg.from_).id = f.id ∧ (f.becomeFollower msg.term msg.from_).term = f.term ∧
      (f.becomeFollower msg.term msg.from_).msgs = f.msgs := by simp [Raft.becomeFollower, hterm]
  rw [step_same_term hterm.symm] at h
  cases hm : msg.type <;> rw [hm] at hty <;> try cases hty
  all_goals
    simp only [Raft.stepBody, hm] at h
    split at h
    · simp only [Raft.stepFollower, hm] at h
      exact Or.inr ⟨{ f with electionElapsed := 0, lead := msg.from_ }, rfl, rfl, rfl, withOk_ok h⟩
    · simp only [Raft.stepCandidate, hm] at h
      exact Or.inr ⟨_, hcand.1, hcand.2.1, hcand.2.2, withOk_ok h⟩
    · simp only [Raft.stepCandidate, hm] at h
      exact Or.inr ⟨_, hcand.1, hcand.2.1, hcand.2.2, withOk_ok h⟩
    · simp only [Raft.stepLeader, hm] at h
      have h := withOk_ok h
      simp only [Raft.stepLeaderProgress, hm] at h
      split at h
      · obtain rfl := Except.ok.inj h
        exact Or.inl rfl
      · obtain rfl := Except.ok.inj h
        exact Or.inl rfl

theorem snapshot_reply (hty : msg.type = .msgSnap) (hterm : f.term = msg.term) (h : f.Replies msg resp) :
    resp = { type := .msgAppResp, to_ := msg.from_, from_ := f.id, term := f.term } := by
  obtain ⟨f', st, hstep, hresp⟩ := h
  rcases from_leader_handled (by rw [hty]; rfl) hterm hstep with hsame | ⟨g, hid, ht, hm, hg⟩
  · rw [hsame, List.drop_length] at hresp
    cases hresp
  · rw [hty] at hg
    rw [handleSnapshot_reply hg, hm, List.drop_left, hid, ht] at hresp
    exact List.mem_singleton.mp hresp

/-- An acknowledgement of index 0 tells the leader nothing. -/
theorem leaderAppResp_zero {p : Progress} (hp : r.getProgress msg.from_ = some p) (hrej : msg.reject = false)
    (hi : msg.index = 0) (h : r.leaderAppResp msg = .ok r') :
    ∃ p', r'.getProgress msg.from_ = some p' ∧ p'.state = p.state ∧ p'.matched = p.matched ∧
      p'.pendingSnapshot = p.pendingSnapshot := by
  have hmark : (r.modifyProgress msg.from_ fun p => { p with recentActive := true }).getProgress msg.from_ =
      some { p with recentActive := true } := by
    rw [Raft.getProgress_modifyProgress, if_pos rfl, hp]
    rfl
  unfold Raft.leaderAppResp at h
  simp only [hmark, hrej, hi, Progress.maybeUpdate, Nat.not_lt_zero, if_false, decide_false, Bool.false_eq_true] at h
  obtain rfl := Except.ok.inj h
  rw [Raft.getProgress_modifyProgress, if_pos rfl, hmark]
  refine ⟨_, rfl, ?_⟩
  split <;> exact ⟨rfl, rfl, rfl⟩

/-- The reply to a snapshot never ends the snapshot state: the progress stays as it was. -/
theorem snapshot_reply_ignored {p : Progress} (hl : r.state = .leader) (hp : r.getProgress f.id = some p)
    (hterm : f.term = r.term) (hty : msg.type = .msgSnap) (hmsg : msg.term = r.term) (hreply : f.Replies msg resp)
    {st : Status} (h : r.step resp = .ok (r', st)) :
    ∃ p', r'.getProgress f.id = some p' ∧ p'.state = p.state ∧ p'.matched = p.matched ∧
      p'.pendingSnapshot = p.pendingSnapshot := by
  obtain rfl := snapshot_reply hty (hterm.trans hmsg.symm) hreply
  rw [step_same_term (by exact hterm)] at h
  simp only [Raft.stepBody, hl, Raft.stepLeader] at h
  have h := withOk_ok h
  simp only [Raft.stepLeaderProgress, hp] at h
  exact leaderAppResp_zero hp rfl rfl h

/-- A leader that waits for a follower to take over its snapshot is not told when that has happened. -/
theorem snapshot_catch_up_never {p : Progress} (hl : r.state = .leader) (hp : r.getProgress f.id = some p)
    (hsnap : p.state = .snapshot) (hterm : f.term = r.term) (hty : msg.type = .msgSnap) (hmsg : msg.term = r.term)
    (hreply : f.Replies msg resp) {st : Status} (h : r.step resp = .ok (r', st)) :
    ¬ CaughtUp r' f.id p.pendingSnapshot := by
  rintro ⟨q, hq, -, hstate, -⟩
  obtain ⟨p', hp', hs, -, -⟩ := snapshot_reply_ignored hl hp hterm hty hmsg hreply h
  rw [hp'] at hq
  obtain rfl := Option.some.inj hq
  exact hstate (hs.trans hsnap)

/-- A voter whose log starts at a snapshot of index 5. -/
def compactedVoter : Result RawNode :=
  RawNode.restartNode
    { (trio false).config 2
        { hardState := { term := 1, vote := 1, commit := 5 }
          snapshot := { metadata := { index := 5, term := 1, confState := { nodes := [1, 2, 3] } } }
          dummy := { index := 5, term := 1 } } 5 fun _ => 0 with peers := [] }

/-- It is elected, and the first voter turns out to have no log at all. -/
def missesLog : List NodeAction :=
  [.campaign, .step { type := .msgVoteResp, to_ := 2, from_ := 1, term := 2 },
    .step { type := .msgAppResp, to_ := 2, from_ := 1, term := 2, index := 5, reject := true }]

/-- The first voter has heard of the leader. -/
def emptyFollower : Result RawNode := do
  let n ← RawNode.restartNode ((trio false).config 1 {} 0 fun _ => 0)
  n.runAll [.step { type := .msgHeartbeat, to_ := 1, from_ := 2, term := 2 }]

/-- The leader, the follower, the snapshot message, the follower after it, its reply, and the leader
after that. -/
def catchUpRound : Result (Raft × Raft × Message × Raft × Message × Raft) := do
  let n ← compactedVoter
  let n ← n.runAll missesLog
  let f ← emptyFollower
  match n.raft.msgs.getLast? with
  | none => .error "no message"
  | some msg => do
      let (f', _) ← f.raft.step msg
      match f'.msgs.getLast? with
      | none => .error "no reply"
      | some resp => do
          let (r', _) ← n.raft.step resp
          .ok (n.raft, f.raft, msg, f', resp, r')

theorem catchUpRound_spec (h : catchUpRound = .ok (r, f, msg, f', resp, r')) :
    msg ∈ r.msgs ∧ (∃ st, f.step msg = .ok (f', st)) ∧ ∃ st, r.step resp = .ok (r', st) := by
  obtain ⟨_, -, h⟩ := bind_ok h
  obtain ⟨n, -, h⟩ := bind_ok h
  obtain ⟨g, -, h⟩ := bind_ok h
  split at h
  · cases h
  · rename_i msg₁ hmsg
    obtain ⟨⟨g', st⟩, hg, h⟩ := bind_ok h
    simp only at h
    split at h
    · cases h
    · obtain ⟨⟨r₁, st₁⟩, hr, h⟩ := bind_ok h
      simp only [Except.ok.injEq, Prod.mk.injEq] at h
      obtain ⟨rfl, rfl, rfl, rfl, rfl, rfl⟩ := h
      exact ⟨List.mem_of_getLast? hmsg, ⟨st, hg⟩, st₁, hr⟩

theorem snapshot_catch_up_never_restored : ∃ (r f f' r' : Raft) (msg resp : Message) (p : Progress),
    r.state = .leader ∧ r.getProgress f.id = some p ∧ p.state = .snapshot ∧ p.pendingSnapshot = 5 ∧
      msg ∈ r.msgs ∧ f.Replies msg resp ∧ (∃ st, f.step msg = .ok (f', st)) ∧ f'.raftLog.lastIndex = 5 ∧
      (∃ st, r.step resp = .ok (r', st)) ∧ ¬ CaughtUp r' f.id p.pendingSnapshot := by
  obtain ⟨⟨r, f, msg, f', resp, r'⟩, hround, hp⟩ := exists_ok_of_any (x := catchUpRound)
    (p := fun (r, f, msg, f', resp, _) => decide (r.state = .leader ∧ f.term = r.term ∧ msg.type = .msgSnap ∧
      msg.term = r.term ∧ resp ∈ f'.msgs.drop f.msgs.length ∧ f'.raftLog.lastIndex = 5 ∧
      (r.getProgress f.id).map (fun p => (p.state, p.pendingSnapshot)) = some (.snapshot, 5))) (by decide +kernel)
  obtain ⟨hl, hterm, hty, hmsg, hresp, hlast, hprog⟩ := of_decide_eq_true hp
  obtain ⟨hmem, ⟨st, hf⟩, st', hr⟩ := catchUpRound_spec hround
  obtain ⟨p, hp, hps⟩ := Option.map_eq_some_iff.mp hprog
  obtain ⟨hstate, hpend⟩ := Prod.mk.inj hps
  have hreply : f.Replies msg resp := ⟨f', st, hf, hresp⟩
  exact ⟨r, f, f', r', msg, resp, p, hl, hp, hstate, hpend, hmem, hreply, ⟨st, hf⟩, hlast, ⟨st', hr⟩,
    snapshot_catch_up_never hl hp hstate hterm hty hmsg hreply hr⟩

/-- A follower that had nothing installs the snapshot of index 5, and the leader still waits for it. -/
theorem restored_snapshot_unnoticed : ∃ (r f f' r' : Raft) (msg resp : Message) (p : Progress),
    r.state = .leader ∧ r.getProgress f.id = some p ∧ p.state = .snapshot ∧ p.pendingSnapshot = 5 ∧
      f.term = r.term ∧ msg ∈ r.msgs ∧ msg.type = .msgSnap ∧ msg.to_ = f.id ∧ msg.snapshot.metadata.index = 5 ∧
      (∃ st, f.step msg = .ok (f', st)) ∧ f'.raftLog.committed = 5 ∧ f'.msgs = f.msgs ++ [resp] ∧
      (∃ st, r.step resp = .ok (r', st)) ∧ ¬ CaughtUp r' f.id 5 := by
  obtain ⟨⟨r, f, msg, f', resp, r'⟩, hround, hp⟩ := exists_ok_of_any (x := catchUpRound)
    (p := fun (r, f, msg, f', resp, r') => decide (r.state = .leader ∧ f.term = r.term ∧ msg.type = .msgSnap ∧
      msg.to_ = f.id ∧ msg.snapshot.metadata.index = 5 ∧ f'.msgs = f.msgs ++ [resp] ∧ f'.raftLog.committed = 5 ∧
      (r.getProgress f.id).map (fun p => (p.state, p.pendingSnapshot)) = some (.snapshot, 5) ∧
      (r'.getProgress f.id).map (fun p => p.matched) = some 0)) (by decide +kernel)
  obtain ⟨hl, hterm, hty, hto, hindex, hresp, hcommit, hprog, hafter⟩ := of_decide_eq_true hp
  obtain ⟨hmem, hf, hr⟩ := catchUpRound_spec hround
  obtain ⟨p, hp, hps⟩ := Option.map_eq_some_iff.mp hprog
  obtain ⟨hstate, hpend⟩ := Prod.mk.inj hps
  refine ⟨r, f, f', r', msg, resp, p, hl, hp, hstate, hpend, hterm, hmem, hty, hto, hindex, hf, hcommit, hresp, hr, ?_⟩
  rintro ⟨q, hq, hm, -, -⟩
  rw [hq, Option.map_some, Option.some.injEq] at hafter
  omega

end RaftEtcd
