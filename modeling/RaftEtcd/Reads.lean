import RaftEtcd.CatchUp

/-! Linearizable reads under `ReadOnlySafe`: the leader queues a request, broadcasts its context with
a heartbeat, and answers it when a quorum has sent the context back. -/
namespace RaftEtcd
variable {r r' f f' : Raft} {msg resp : Message}

section Completion

/-- What `RawNode::read_index` steps. -/
def readRequest (ctx : Bytes) : Message :=
  { type := .msgReadIndex, entries := [{ type := 15, data := ctx }] }

/-- Some messages, one after the other. -/
def Raft.stepAll (r : Raft) (msgs : List Message) : Result Raft :=
  msgs.foldlM (fun r m => Prod.fst <$> r.step m) r

/-- The request has led to one read state, with the commit index at its arrival. -/
def ReadCompletes (r r' : Raft) (ctx : Bytes) : Prop :=
  r'.readStates = r.readStates ++ [{ index := r.raftLog.committed, requestCtx := ctx }]

/-- A heartbeat carries the context to the other members. -/
theorem bcastHeartbeatWithCtx_msgs {ctx : Bytes} (h : r.bcastHeartbeatWithCtx ctx = .ok r') :
    ∀ m ∈ r'.msgs.drop r.msgs.length,
      m.type = .msgHeartbeat ∧ m.term = r.term ∧ m.from_ = r.id ∧ m.context = ctx := by
  unfold Raft.bcastHeartbeatWithCtx at h
  generalize (r.progressIds.filter fun id => id ≠ r.id) = ids at h
  induction ids generalizing r with
  | nil =>
      obtain rfl := Except.ok.inj h
      simp
  | cons id ids ih =>
      rw [List.foldlM_cons] at h
      obtain ⟨r₁, h₁, h⟩ := bind_ok h
      have hs := sendHeartbeat_sends h₁
      have hbeat : ∃ m, r₁.msgs = r.msgs ++ [m] ∧
          m.type = .msgHeartbeat ∧ m.term = r.term ∧ m.from_ = r.id ∧ m.context = ctx := by
        unfold Raft.sendHeartbeat at h₁
        split at h₁
        · cases h₁
        · obtain ⟨t, rfl, -, ht⟩ := send_spec h₁
          exact ⟨_, rfl, rfl, ht rfl (by simp), rfl, rfl⟩
      obtain ⟨m₁, hm₁, hspec⟩ := hbeat
      obtain ⟨ms, hms⟩ := (Sends.foldlM (fun _ _ _ h => sendHeartbeat_sends h) ids h).msgs
      have hrest := ih h
      rw [← hms, List.drop_left, hs.term, hs.id] at hrest
      intro m hm
      rw [← hms, hm₁, List.append_assoc, List.drop_left, List.singleton_append, List.mem_cons] at hm
      rcases hm with rfl | hm
      · exact hspec
      · exact hrest m hm

/-- The response to a heartbeat comes without the context of the heartbeat. -/
theorem heartbeat_reply (hty : msg.type = .msgHeartbeat) (hterm : f.term = msg.term) (h : f.Replies msg resp) :
    resp = { type := .msgHeartbeatResp, to_ := msg.from_, from_ := f.id, term := f.term } := by
  obtain ⟨f', st, hstep, hresp⟩ := h
  rcases from_leader_handled (by rw [hty]; rfl) hterm hstep with hsame | ⟨g, hid, ht, hm, hg⟩
  · rw [hsame, List.drop_length] at hresp
    cases hresp
  · rw [hty] at hg
    obtain ⟨log, -, hg⟩ := bind_ok hg
    obtain ⟨t, rfl, -, hterm'⟩ := send_spec hg
    obtain rfl := hterm' rfl (by simp)
    simp only [hm, List.drop_left, List.mem_singleton] at hresp
    rw [hresp, hid, ht]

/-- Without a context a heartbeat response is no acknowledgement of a read. -/
theorem step_bare_heartbeatResp (hl : r.state = .leader) (hty : msg.type = .msgHeartbeatResp)
    (hterm : msg.term = r.term) (hctx : msg.context = []) {st : Status} (h : r.step msg = .ok (r', st)) :
    Sends r r' := by
  rw [step_same_term hterm] at h
  simp only [Raft.stepBody, hty, hl, Raft.stepLeader] at h
  have h := withOk_ok h
  simp only [Raft.stepLeaderProgress, hty] at h
  split at h
  · obtain rfl := Except.ok.inj h
    exact .refl r
  · obtain ⟨r₁, hs, hcase⟩ := leaderHeartbeatResp_spec h
    rcases hcase with ⟨rfl, -⟩ | ⟨-, -, hne, -⟩
    · exact hs
    · exact absurd hctx hne

/-- A read request of a leader with other voters only goes out with the heartbeats. -/
theorem step_readRequest (hl : r.state = .leader) (hq : 1 < r.quorum) (hsafe : r.readOnly.option = .safe)
    {ctx : Bytes} {st : Status} (h : r.step (readRequest ctx) = .ok (r', st)) :
    r'.state = .leader ∧ r'.term = r.term ∧ r'.readStates = r.readStates ∧
      ∀ m ∈ r'.msgs.drop r.msgs.length, m.type = .msgHeartbeat ∧ m.term = r.term := by
  simp only [Raft.step, readRequest, if_true, Raft.stepBody, hl, Raft.stepLeader] at h
  rcases leaderReadIndex_spec (withOk_ok h) with ⟨-, hstay⟩ | ⟨ro, ctx', -, h⟩
  · obtain rfl := hstay hq hsafe
    refine ⟨hl, rfl, rfl, fun m hm => ?_⟩
    rw [List.drop_length] at hm
    cases hm
  · have hs := bcastHeartbeatWithCtx_sends h
    refine ⟨hs.state.trans hl, hs.term, hs.readStates, fun m hm => ?_⟩
    obtain ⟨hty, ht, -, -⟩ := bcastHeartbeatWithCtx_msgs h m hm
    exact ⟨hty, ht⟩

/-- Responses of followers to heartbeats of their term leave the read states of the leader alone. -/
theorem stepAll_bare (hl : r.state = .leader) {resps : List Message}
    (hresps : ∀ m ∈ resps, m.type = .msgHeartbeatResp ∧ m.term = r.term ∧ m.context = [])
    (h : r.stepAll resps = .ok r') : r'.readStates = r.readStates := by
  unfold Raft.stepAll at h
  induction resps generalizing r with
  | nil =>
      obtain rfl := Except.ok.inj h
      rfl
  | cons m ms ih =>
      rw [List.foldlM_cons] at h
      obtain ⟨r₁, h₁, h⟩ := bind_ok h
      obtain ⟨st, h₁⟩ := map_fst_ok h₁
      obtain ⟨hty, hterm, hctx⟩ := hresps m (List.mem_cons_self ..)
      have hs := step_bare_heartbeatResp hl hty hterm hctx h₁
      rw [ih (hs.state.trans hl) (fun m' hm' => by
        rw [hs.term]
        exact hresps m' (List.mem_cons_of_mem _ hm')) h, hs.readStates]

/-- No read request of a leader with other voters is ever completed by the responses to the
heartbeats it goes out with, however many of them come back. -/
theorem read_index_never_completes (hl : r.state = .leader) (hvoters : 1 < r.prs.keys.length)
    (hsafe : r.readOnly.option = .safe) {ctx : Bytes} {st : Status} {r₁ : Raft}
    (hreq : r.step (readRequest ctx) = .ok (r₁, st)) {resps : List Message}
    (hresps : ∀ m ∈ resps, ∃ hb ∈ r₁.msgs.drop r.msgs.length, ∃ f : Raft, f.id = hb.to_ ∧ f.term = r.term ∧
      f.Replies hb m) (h : r₁.stepAll resps = .ok r') : ¬ ReadCompletes r r' ctx := by
  have hq : 1 < r.quorum := by
    rw [Raft.quorum]
    omega
  obtain ⟨hl₁, hterm₁, hreads₁, hbeats⟩ := step_readRequest hl hq hsafe hreq
  have hsame : r'.readStates = r.readStates := by
    refine (stepAll_bare hl₁ ?_ h).trans hreads₁
    intro m hm
    obtain ⟨hb, hmem, f, -, hterm, hreply⟩ := hresps m hm
    obtain ⟨hty, ht⟩ := hbeats hb hmem
    rw [heartbeat_reply hty (hterm.trans ht.symm) hreply]
    exact ⟨rfl, hterm.trans hterm₁.symm, rfl⟩
  intro hc
  rw [ReadCompletes, hsame] at hc
  simpa using congrArg List.length hc

/-- The first voter leads, and the second has acknowledged its first entry. -/
def committedLeader : Result RawNode := do
  let n ← firstVoter
  n.runAll (winElection ++ [.step { type := .msgAppResp, to_ := 1, from_ := 2, term := 1, index := 1 }])

/-- The third voter has heard of the leader. -/
def thirdFollower : Result RawNode := do
  let n ← RawNode.restartNode ((trio false).config 3 {} 0 fun _ => 0)
  n.runAll [.step { type := .msgHeartbeat, to_ := 3, from_ := 1, term := 1 }]

/-- The leader before and after the request, the follower, the heartbeat that reaches it, its
response, and the leader after that. -/
def readRound (ctx : Bytes) : Result (Raft × Raft × Raft × Message × Message × Raft) := do
  let n ← committedLeader
  let f ← thirdFollower
  let (r₁, _) ← n.raft.step (readRequest ctx)
  match (r₁.msgs.drop n.raft.msgs.length).find? fun m => m.to_ = 3 with
  | none => .error "no heartbeat"
  | some hb => do
      let (f', _) ← f.raft.step hb
      match f'.msgs.drop f.raft.msgs.length with
      | [] => .error "no response"
      | resp :: _ => do
          let r' ← r₁.stepAll [resp]
          .ok (n.raft, r₁, f.raft, hb, resp, r')

theorem readRound_spec {ctx : Bytes} {r₁ : Raft} {hb : Message} (h : readRound ctx = .ok (r, r₁, f, hb, resp, r')) :
    (∃ st, r.step (readRequest ctx) = .ok (r₁, st)) ∧ hb ∈ r₁.msgs.drop r.msgs.length ∧ f.Replies hb resp ∧
      r₁.stepAll [resp] = .ok r' := by
  obtain ⟨n, -, h⟩ := bind_ok h
  obtain ⟨g, -, h⟩ := bind_ok h
  obtain ⟨⟨q₁, st⟩, hq₁, h⟩ := bind_ok h
  simp only at h
  split at h
  · cases h
  · rename_i m hm
    obtain ⟨⟨g', st'⟩, hg, h⟩ := bind_ok h
    simp only at h
    split at h
    · cases h
    · rename_i resp₁ rest hresp
      obtain ⟨q, hq, h⟩ := bind_ok h
      simp only [Except.ok.injEq, Prod.mk.injEq] at h
      obtain ⟨rfl, rfl, rfl, rfl, rfl, rfl⟩ := h
      refine ⟨⟨st, hq₁⟩, List.mem_of_find?_eq_some hm, ⟨g', st', hg, ?_⟩, hq⟩
      rw [hresp]
      exact List.mem_cons_self ..

theorem read_index_never_completes_trio : ∃ (r r₁ r' : Raft) (resp : Message), r.state = .leader ∧
    1 < r.prs.keys.length ∧ (∃ st, r.step (readRequest [7]) = .ok (r₁, st)) ∧ r₁.stepAll [resp] = .ok r' ∧
      resp.from_ = 3 ∧ r.quorum = 2 ∧ ¬ ReadCompletes r r' [7] := by
  obtain ⟨⟨r, r₁, f, hb, resp, r'⟩, hround, hp⟩ := exists_ok_of_any (x := readRound [7])
    (p := fun (r, _, f, hb, resp, _) => decide (r.state = .leader ∧ 1 < r.prs.keys.length ∧
      r.readOnly.option = .safe ∧ f.id = hb.to_ ∧ f.term = r.term ∧ resp.from_ = 3 ∧ r.quorum = 2)) (by decide +kernel)
  obtain ⟨hl, hvoters, hsafe, hid, hterm, hfrom, hquorum⟩ := of_decide_eq_true hp
  obtain ⟨⟨st, hreq⟩, hmem, hreply, hall⟩ := readRound_spec hround
  refine ⟨r, r₁, r', resp, hl, hvoters, ⟨st, hreq⟩, hall, hfrom, hquorum, ?_⟩
  refine read_index_never_completes hl hvoters hsafe hreq ?_ hall
  intro m hm
  rw [List.mem_singleton.mp hm]
  exact ⟨hb, hmem, f, hid, hterm, hreply⟩

/-- The third voter answers the heartbeat that carries the context 7. With the leader that is a quorum
of three, but the read is not answered: no read state, and the request still waits. -/
theorem confirmed_read_unanswered : ∃ (r r₁ f r' : Raft) (hb resp : Message), r.state = .leader ∧
    r.prs.keys.length = 3 ∧ r.readOnly.option = .safe ∧ r.raftLog.term r.raftLog.committed = .ok r.term ∧
      r.readOnly.pendingReadIndex.lookup [7] = none ∧ (∃ st, r.step (readRequest [7]) = .ok (r₁, st)) ∧
      hb ∈ r₁.msgs.drop r.msgs.length ∧ hb.context = [7] ∧ f.id = hb.to_ ∧ f.term = r.term ∧ f.Replies hb resp ∧
      r.quorum ≤ ({r.id, resp.from_} : Finset Nat).card ∧ r₁.stepAll [resp] = .ok r' ∧
      r'.readOnly.readIndexQueue = [[7]] ∧ ¬ ReadCompletes r r' [7] := by
  obtain ⟨⟨r, r₁, f, hb, resp, r'⟩, hround, hp⟩ := exists_ok_of_any (x := readRound [7])
    (p := fun (r, _, f, hb, resp, r') => decide (r.state = .leader ∧ r.prs.keys.length = 3 ∧
      r.readOnly.option = .safe ∧ r.raftLog.term r.raftLog.committed = .ok r.term ∧
      (r.readOnly.pendingReadIndex.lookup [7]).isNone ∧ hb.context = [7] ∧ f.id = hb.to_ ∧ f.term = r.term ∧
      r.quorum ≤ ({r.id, resp.from_} : Finset Nat).card ∧ r'.readOnly.readIndexQueue = [[7]] ∧
      r'.readStates.length = r.readStates.length)) (by decide +kernel)
  obtain ⟨hl, hvoters, hsafe, hown, hnew, hctx, hid, hterm, hquorum, hqueue, hreads⟩ := of_decide_eq_true hp
  obtain ⟨hreq, hmem, hreply, hall⟩ := readRound_spec hround
  refine ⟨r, r₁, f, r', hb, resp, hl, hvoters, hsafe, hown, Option.isNone_iff_eq_none.mp hnew, hreq, hmem, hctx, hid,
    hterm, hreply, hquorum, hall, hqueue, ?_⟩
  intro hc
  have := congrArg List.length hc
  simp at this
  omega

end Completion

end RaftEtcd
