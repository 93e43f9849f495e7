import RaftEtcd.Reads

/-! Who stands behind a read that the leader answers. The acknowledgements of a request are collected
in a set of node ids; the history of a run remembers beside it who has really acknowledged what. -/
namespace RaftEtcd
variable {r r' : Raft} {msg : Message}

/-- The queue from a request on. -/
def onwards (queue : List Bytes) (ctx : Bytes) : List Bytes := queue.dropWhile (· ≠ ctx)

/-- The message is a heartbeat response that the leader accepts. -/
def Raft.Hears (r : Raft) (msg : Message) : Prop :=
  r.state = .leader ∧ msg.type = .msgHeartbeatResp ∧ (msg.term = 0 ∨ msg.term = r.term) ∧
    (r.getProgress msg.from_).isSome

instance (r : Raft) (msg : Message) : Decidable (r.Hears msg) := inferInstanceAs (Decidable (_ ∧ _))

/-- The requests that the leader takes up for an answer when it steps the message: those that
`advance` walks over once the acknowledgements reach the quorum. -/
def Raft.answered (r : Raft) (msg : Message) : List Bytes :=
  if r.Hears msg ∧ r.readOnly.option = .safe ∧ msg.context ≠ [] ∧ r.quorum ≤ (r.readOnly.recvAck msg).2 then
    match (r.readOnly.recvAck msg).1.collect msg.context r.readOnly.readIndexQueue with
    | .ok (rss, _) => r.readOnly.readIndexQueue.take rss.length
    | .error _ => []
  else []

/-- A heartbeat response makes a read state only for requests that were taken up. -/
theorem answered_of_new_readState (hl : r.state = .leader) (hty : msg.type = .msgHeartbeatResp)
    (hterm : msg.term = r.term) {st : Status} (h : r.step msg = .ok (r', st))
    (hnew : r'.readStates ≠ r.readStates) : r.answered msg ≠ [] := by
  rw [step_same_term hterm] at h
  simp only [Raft.stepBody, hty, hl, Raft.stepLeader] at h
  have h := withOk_ok h
  simp only [Raft.stepLeaderProgress, hty] at h
  split at h
  · obtain rfl := Except.ok.inj h
    exact absurd rfl hnew
  obtain ⟨r₁, hs, hcase⟩ := leaderHeartbeatResp_spec h
  rcases hcase with ⟨rfl, -⟩ | ⟨hsome, hsafe, hctx, ⟨-, rfl⟩ | ⟨hq, ro, rss, hadv, hans⟩⟩
  · exact absurd hs.readStates hnew
  · exact absurd hs.readStates hnew
  · unfold ReadOnly.advance at hadv
    obtain ⟨⟨rss', found⟩, hcollect, hadv⟩ := bind_ok hadv
    have hrss : rss' = rss := by
      simp only at hadv
      split at hadv
      · obtain ⟨pending, -, hadv⟩ := bind_ok hadv
        exact (Prod.mk.inj (Except.ok.inj hadv)).2
      · exact (Prod.mk.inj (Except.ok.inj hadv)).2
    have hqueue : (r.readOnly.recvAck msg).1.readIndexQueue = r.readOnly.readIndexQueue := by
      unfold ReadOnly.recvAck
      split <;> rfl
    rw [hrss, hqueue] at hcollect
    rw [Raft.answered, if_pos ⟨⟨hl, hty, Or.inr hterm, hsome⟩, hsafe, hctx, hq⟩, hcollect]
    intro hnil
    -- nothing taken up means nothing to answer
    rcases List.take_eq_nil_iff.mp hnil with h0 | h0
    · rw [List.length_eq_zero_iff.mp h0] at hans
      obtain rfl := Except.ok.inj hans
      exact hnew hs.readStates
    · rw [h0] at hcollect
      obtain ⟨rfl, -⟩ := Prod.mk.inj (Except.ok.inj hcollect)
      obtain rfl := Except.ok.inj hans
      exact hnew hs.readStates

/-- Who has acknowledged a request, or one queued behind it, since it was queued. -/
def heardAfter (r : Raft) (heard : Bytes → Finset Nat) (a : NodeAction) (ctx : Bytes) : Finset Nat :=
  if ctx ∈ r.readOnly.readIndexQueue then
    match a with
    | .step msg =>
        if r.Hears msg ∧ msg.context ∈ onwards r.readOnly.readIndexQueue ctx then insert msg.from_ (heard ctx)
        else heard ctx
    | _ => heard ctx
  else ∅

/-- The leader and the voters among those who acknowledged a request. -/
def confirming (r : Raft) (acked : Finset Nat) : Finset Nat := insert r.id (acked.filter (· ∈ r.prs.keys))

/-- A node with the history of its reads. -/
structure ReadHistory where
  node : RawNode
  heard : Bytes → Finset Nat

/-- Runs whose actions all meet a condition on the node before them. -/
def ReadHistory.Runs (P : RawNode → NodeAction → Prop) : ReadHistory → ReadHistory → Prop :=
  Relation.ReflTransGen fun s s' => ∃ a, P s.node a ∧ s.node.run a = .ok s'.node ∧
    s'.heard = heardAfter s.node.raft s.heard a

/-- Only voters other than the leader acknowledge reads, no voter that has acknowledged a pending read
is removed, and messages of a leader carry their term. -/
def VotersAcknowledge (n : RawNode) : NodeAction → Prop
  | .step msg => (n.raft.Hears msg → msg.context ∈ n.raft.readOnly.readIndexQueue →
      msg.from_ ∈ n.raft.prs.keys ∧ msg.from_ ≠ n.raft.id) ∧ (msg.type.isFromLeader = true → msg.term ≠ 0)
  | .applyConfChange cc => cc.confChangeType = confChangeRemoveNode →
      ∀ ctx rs, n.raft.readOnly.pendingReadIndex.lookup ctx = some rs → cc.nodeId ∉ rs.acks
  | _ => True

/-- The invariant of the pending reads. The request of a status stays empty, since the assignment
in `add_request` copies nothing. -/
structure ReadInv (r : Raft) (heard : Bytes → Finset Nat) : Prop where
  keys : ∀ ctx, (r.readOnly.pendingReadIndex.lookup ctx).isSome ↔ ctx ∈ r.readOnly.readIndexQueue
  idle : r.state ≠ .leader → r.readOnly.readIndexQueue = []
  acks : ∀ ctx ∈ r.readOnly.readIndexQueue, ∀ ctx' ∈ onwards r.readOnly.readIndexQueue ctx, ∀ rs,
    r.readOnly.pendingReadIndex.lookup ctx' = some rs → rs.acks ⊆ heard ctx
  voters : ∀ ctx rs, r.readOnly.pendingReadIndex.lookup ctx = some rs →
    ∀ k ∈ rs.acks, k ∈ r.prs.keys ∧ k ≠ r.id
  empty : ∀ ctx rs, r.readOnly.pendingReadIndex.lookup ctx = some rs → rs.req.entries = []

section Queue
variable {queue : List Bytes} {ctx ctx' : Bytes}

theorem onwards_self (h : ctx ∈ queue) : ctx ∈ onwards queue ctx := by
  induction queue with
  | nil => cases h
  | cons c queue ih =>
      by_cases hc : c = ctx
      · subst hc
        simp [onwards]
      · have hmem : ctx ∈ queue := List.mem_of_ne_of_mem (Ne.symm hc) h
        simpa [onwards, hc] using ih hmem

/-- A request that is queued last is behind all others. -/
theorem onwards_append (h : ctx ∈ queue) (new : Bytes) : onwards (queue ++ [new]) ctx = onwards queue ctx ++ [new] := by
  induction queue with
  | nil => cases h
  | cons c queue ih =>
      by_cases hc : c = ctx
      · subst hc
        simp [onwards]
      · have hmem : ctx ∈ queue := List.mem_of_ne_of_mem (Ne.symm hc) h
        simpa [onwards, hc] using ih hmem

/-- What `advance` walks over is the queue up to the context, and the context is behind all of it. -/
theorem collect_spec {ro : ReadOnly} {rss : List ReadIndexStatus} {found : Bool}
    (h : ro.collect ctx queue = .ok (rss, found)) (hmem : ctx ∈ queue) :
    found = true ∧ rss ≠ [] ∧ (∀ rs ∈ rss, ∃ c, ro.pendingReadIndex.lookup c = some rs) ∧
      ∀ c ∈ queue.take rss.length, c ∈ queue ∧ ctx ∈ onwards queue c := by
  induction queue generalizing rss found with
  | nil => cases hmem
  | cons c queue ih =>
      rw [ReadOnly.collect] at h
      split at h
      · cases h
      rename_i rs hrs
      split at h
      · rename_i hc
        obtain ⟨rfl, rfl⟩ := Prod.mk.inj (Except.ok.inj h)
        refine ⟨rfl, by simp, fun rs' hrs' => ⟨c, ?_⟩, fun c' hc' => ?_⟩
        · rw [List.mem_singleton.mp hrs']
          exact hrs
        · have hc' : c' = c := by simpa using hc'
          subst hc'
          subst hc
          exact ⟨List.mem_cons_self .., onwards_self (List.mem_cons_self ..)⟩
      · rename_i hc
        have hmem' : ctx ∈ queue := by
          rcases List.mem_cons.mp hmem with rfl | h
          · exact absurd rfl hc
          · exact h
        obtain ⟨⟨rss', found'⟩, h', h⟩ := bind_ok h
        obtain ⟨rfl, rfl⟩ := Prod.mk.inj (Except.ok.inj h)
        obtain ⟨hfound, -, hlook, htake⟩ := ih h' hmem'
        refine ⟨hfound, by simp, fun rs' hrs' => ?_, fun c' hc' => ?_⟩
        · rcases List.mem_cons.mp hrs' with rfl | hrs'
          · exact ⟨c, hrs⟩
          · exact hlook rs' hrs'
        · rw [List.length_cons, List.take_succ_cons, List.mem_cons] at hc'
          by_cases heq : c' = c
          · subst heq
            refine ⟨List.mem_cons_self .., ?_⟩
            simp [onwards, hmem']
          · obtain ⟨hin, hon⟩ := htake c' (hc'.resolve_left heq)
            refine ⟨List.mem_cons_of_mem _ hin, ?_⟩
            simpa [onwards, Ne.symm heq] using hon

/-- A request is queued under the data of its first entry, unless that is pending. -/
theorem addRequest_spec {ro ro' : ReadOnly} {index : Nat} (h : ro.addRequest index msg = .ok ro') :
    ∃ e es, msg.entries = e :: es ∧ ((ro.pendingReadIndex.lookup e.data).isSome ∧ ro' = ro ∨
      ro.pendingReadIndex.lookup e.data = none ∧ ro' = { ro with
        pendingReadIndex := ro.pendingReadIndex.insert e.data { index := index }
        readIndexQueue := ro.readIndexQueue ++ [e.data] }) := by
  unfold ReadOnly.addRequest at h
  split at h
  · cases h
  rename_i e es hentries
  refine ⟨e, es, hentries, ?_⟩
  split at h
  · rename_i rs hrs
    exact Or.inl ⟨by rw [hrs]; rfl, (Except.ok.inj h).symm⟩
  · rename_i hnone
    exact Or.inr ⟨hnone, (Except.ok.inj h).symm⟩

/-- `advance` reads the first entry of a request, so it fails on a pending one when none has entries. -/
theorem ReadOnly.advance_fails {ro : ReadOnly}
    (hempty : ∀ ctx rs, ro.pendingReadIndex.lookup ctx = some rs → rs.req.entries = [])
    (hmem : msg.context ∈ ro.readIndexQueue) (p : ReadOnly × List ReadIndexStatus) : ro.advance msg ≠ .ok p := by
  intro h
  unfold ReadOnly.advance at h
  obtain ⟨⟨rss, found⟩, hcollect, h⟩ := bind_ok h
  obtain ⟨rfl, hne, hlook, -⟩ := collect_spec hcollect hmem
  simp only [if_true] at h
  obtain ⟨pending, herase, -⟩ := bind_ok h
  cases rss with
  | nil => exact hne rfl
  | cons rs rss =>
      obtain ⟨c, hc⟩ := hlook rs (List.mem_cons_self ..)
      rw [ReadOnly.erasePending, hempty c rs hc] at herase
      cases herase

end Queue

section Steps
variable {heard heard' : Bytes → Finset Nat}

/-- A message that neither queues nor acknowledges a read keeps the pending ones or drops them all. -/
theorem step_reads_cases (hterm : msg.type.isFromLeader = true → msg.term ≠ 0) {st : Status}
    (h : r.step msg = .ok (r', st)) :
    (r'.id = r.id ∧ ReadsKept r r') ∨ (r.state = .leader ∧ (msg.term = 0 ∨ msg.term = r.term) ∧
      (msg.type = .msgReadIndex ∧ r.leaderReadIndex msg = .ok r' ∨
        msg.type = .msgHeartbeatResp ∧ r.stepLeaderProgress msg = .ok r')) := by
  by_cases hp : ReadPath r msg
  · obtain ⟨hl, hty⟩ := hp
    by_cases hsame : msg.term = 0 ∨ msg.term = r.term
    · have hbody : r.step msg = r.stepBody msg := by
        rcases hsame with h0 | heq
        · unfold Raft.step
          rw [if_pos h0]
        · exact step_same_term heq
      rw [hbody] at h
      refine Or.inr ⟨hl, hsame, ?_⟩
      rcases hty with hty | hty
      · simp only [Raft.stepBody, hty, hl, Raft.stepLeader] at h
        exact Or.inl ⟨hty, withOk_ok h⟩
      · simp only [Raft.stepBody, hty, hl, Raft.stepLeader] at h
        exact Or.inr ⟨hty, withOk_ok h⟩
    · -- of another term: the leader steps down, or drops the message
      rw [not_or] at hsame
      left
      unfold Raft.step at h
      rw [if_neg hsame.1] at h
      split at h
      · rename_i hgt
        have hfollow : r' = r.becomeFollower msg.term 0 := by
          rcases hty with hty | hty
          all_goals
            simp only [hty, reduceCtorEq, false_or, false_and, if_false, Raft.higherTerm, Raft.stepBody,
              Raft.becomeFollower, Raft.stepFollower, if_true] at h
            exact (Prod.mk.inj (Except.ok.inj h)).1.symm
        have hev := becomeFollower_evolves (W := True) r 0 hgt.le
        rw [hfollow]
        exact ⟨hev.id, hev.toReadsKept⟩
      · rename_i hle
        rw [if_pos (by omega)] at h
        have h := withOk_ok h
        have hr : r = r' := by
          rcases hty with hty | hty
          all_goals
            simp only [Raft.lowerTerm, hty, reduceCtorEq, or_false, and_false, if_false] at h
            exact Except.ok.inj h
        rw [← hr]
        exact ⟨rfl, (Keeps.refl r).evolves.toReadsKept (W := True)⟩
  · have hh := step_handles hterm h
    exact Or.inl ⟨hh.id, hh.reads hp⟩

/-- More is heard of the requests that stay queued. -/
theorem heard_subset (r : Raft) (heard : Bytes → Finset Nat) (a : NodeAction) {ctx : Bytes}
    (h : ctx ∈ r.readOnly.readIndexQueue) : heard ctx ⊆ heardAfter r heard a ctx := by
  unfold heardAfter
  rw [if_pos h]
  split
  · split
    · exact Finset.subset_insert _ _
    · exact Finset.Subset.refl _
  · exact Finset.Subset.refl _

/-- An idle node has nothing to keep. -/
theorem ReadInv.of_cleared (hq : r.readOnly.readIndexQueue = []) (hp : r.readOnly.pendingReadIndex = ∅) :
    ReadInv r heard where
  keys ctx := by rw [hp, hq]; simp
  idle _ := hq
  acks ctx h := by rw [hq] at h; cases h
  voters ctx rs h := by rw [hp] at h; cases h
  empty ctx rs h := by rw [hp] at h; cases h

/-- The same pending reads, with at least the old voters and more heard. -/
theorem ReadInv.keep (hinv : ReadInv r heard) (hid : r'.id = r.id) (hro : r'.readOnly = r.readOnly)
    (hstate : r.state = .leader → r'.state = .leader)
    (hkeys : r.state = .leader → ∀ ctx rs, r.readOnly.pendingReadIndex.lookup ctx = some rs →
      ∀ k ∈ rs.acks, k ∈ r.prs.keys → k ∈ r'.prs.keys)
    (hheard : ∀ ctx ∈ r.readOnly.readIndexQueue, heard ctx ⊆ heard' ctx) : ReadInv r' heard' where
  keys := by rw [hro]; exact hinv.keys
  idle h := by
    rw [hro]
    by_cases hl : r.state = .leader
    · exact absurd (hstate hl) h
    · exact hinv.idle hl
  acks := by
    rw [hro]
    intro ctx hctx ctx' hctx' rs hrs
    exact (hinv.acks ctx hctx ctx' hctx' rs hrs).trans (hheard ctx hctx)
  voters := by
    rw [hro, hid]
    intro ctx rs hrs k hk
    have hl : r.state = .leader := by
      by_contra hnl
      have hmem := (hinv.keys ctx).mp (by rw [hrs]; rfl)
      rw [hinv.idle hnl] at hmem
      cases hmem
    obtain ⟨hv, hne⟩ := hinv.voters ctx rs hrs k hk
    exact ⟨hkeys hl ctx rs hrs k hk hv, hne⟩
  empty := by rw [hro]; exact hinv.empty

theorem ReadInv.readsKept (hinv : ReadInv r heard) (hid : r'.id = r.id) (hk : ReadsKept r r')
    (hheard : ∀ ctx ∈ r.readOnly.readIndexQueue, heard ctx ⊆ heard' ctx) : ReadInv r' heard' := by
  rcases hk.kept with ⟨hq, hp⟩ | ⟨hro, hl⟩
  · exact .of_cleared hq hp
  · refine hinv.keep hid hro (fun h => (hl h).1) (fun h ctx rs _ k _ hv => ?_) hheard
    rw [(hl h).2]
    exact hv

theorem ReadInv.keeps (hinv : ReadInv r heard) (hk : Keeps r r')
    (hheard : ∀ ctx ∈ r.readOnly.readIndexQueue, heard ctx ⊆ heard' ctx) : ReadInv r' heard' :=
  hinv.readsKept hk.id (hk.evolves (W := True)).toReadsKept hheard

/-- A new request has no acknowledgements yet. -/
theorem ReadInv.addRequest (hinv : ReadInv r heard) (hl : r.state = .leader) {ro : ReadOnly} {index : Nat}
    (h : r.readOnly.addRequest index msg = .ok ro)
    (hheard : ∀ ctx ∈ r.readOnly.readIndexQueue, heard ctx ⊆ heard' ctx) : ReadInv { r with readOnly := ro } heard' := by
  obtain ⟨e, es, -, ⟨-, rfl⟩ | ⟨hnone, rfl⟩⟩ := addRequest_spec h
  · exact hinv.keep rfl rfl (fun h => h) (fun _ _ _ _ _ _ hv => hv) hheard
  · have hnew : e.data ∉ r.readOnly.readIndexQueue := by
      intro hmem
      have := (hinv.keys e.data).mpr hmem
      rw [hnone] at this
      cases this
    -- looking up the new request gives an empty status, looking up another one what was there
    have hlook : ∀ ctx rs, (r.readOnly.pendingReadIndex.insert e.data { index := index }).lookup ctx = some rs →
        rs.acks = ∅ ∧ rs.req.entries = [] ∨ ctx ≠ e.data ∧ r.readOnly.pendingReadIndex.lookup ctx = some rs := by
      intro ctx rs hrs
      by_cases hc : ctx = e.data
      · subst hc
        rw [AList.lookup_insert] at hrs
        obtain rfl := Option.some.inj hrs
        exact Or.inl ⟨rfl, rfl⟩
      · rw [AList.lookup_insert_ne hc] at hrs
        exact Or.inr ⟨hc, hrs⟩
    refine ⟨fun ctx => ?_, fun h => absurd hl h, fun ctx hctx ctx' hctx' rs hrs => ?_, fun ctx rs hrs k hk => ?_,
      fun ctx rs hrs => ?_⟩
    · by_cases hc : ctx = e.data
      · subst hc
        simp
      · rw [AList.lookup_insert_ne hc, hinv.keys]
        simp [hc]
    · rcases hlook ctx' rs hrs with ⟨h0, -⟩ | ⟨hne', hold⟩
      · rw [h0]
        exact Finset.empty_subset _
      · have hctx₀ : ctx ∈ r.readOnly.readIndexQueue := by
          rcases List.mem_append.mp hctx with hctx | hctx
          · exact hctx
          · -- behind the new request there is only itself
            rw [List.mem_singleton.mp hctx] at hctx'
            exfalso
            have hdrop : ∀ q : List Bytes, e.data ∉ q → onwards (q ++ [e.data]) e.data = [e.data] := by
              intro q hq
              induction q with
              | nil => simp [onwards]
              | cons c q ih =>
                  have hc : c ≠ e.data := fun hc => hq (hc ▸ List.mem_cons_self ..)
                  simpa [onwards, hc] using ih fun hm => hq (List.mem_cons_of_mem _ hm)
            rw [hdrop _ hnew] at hctx'
            exact hne' (List.mem_singleton.mp hctx')
        have hctx₁ : ctx' ∈ onwards r.readOnly.readIndexQueue ctx := by
          rw [onwards_append hctx₀] at hctx'
          rcases List.mem_append.mp hctx' with hctx' | hctx'
          · exact hctx'
          · exact absurd (List.mem_singleton.mp hctx') hne'
        exact (hinv.acks ctx hctx₀ ctx' hctx₁ rs hold).trans (hheard ctx hctx₀)
    · rcases hlook ctx rs hrs with ⟨h0, -⟩ | ⟨-, hold⟩
      · rw [h0] at hk
        simp at hk
      · exact hinv.voters ctx rs hold k hk
    · rcases hlook ctx rs hrs with ⟨-, h0⟩ | ⟨-, hold⟩
      · exact h0
      · exact hinv.empty ctx rs hold

/-- An acknowledgement is recorded where it belongs and counted, with the leader, in 32 bits. -/
theorem recvAck_spec (ro : ReadOnly) (msg : Message) :
    (ro.pendingReadIndex.lookup msg.context = none ∧ ro.recvAck msg = (ro, 0)) ∨
      ∃ rs, ro.pendingReadIndex.lookup msg.context = some rs ∧
        (ro.recvAck msg).1.readIndexQueue = ro.readIndexQueue ∧
        (ro.recvAck msg).2 ≤ (insert msg.from_ rs.acks).card + 1 ∧
        ∀ ctx, (ro.recvAck msg).1.pendingReadIndex.lookup ctx =
          if ctx = msg.context then some { rs with acks := insert msg.from_ rs.acks }
          else ro.pendingReadIndex.lookup ctx := by
  unfold ReadOnly.recvAck
  split
  · rename_i hnone
    exact Or.inl ⟨hnone, rfl⟩
  · rename_i rs hrs
    refine Or.inr ⟨rs, hrs, rfl, Nat.mod_le _ _, fun ctx => ?_⟩
    rw [AssocMap.lookup_replace, hrs]
    rfl

/-- `recv_ack` on a pending request, when its sender is a voter and the history has noted it. -/
theorem ReadInv.recvAck (hinv : ReadInv r heard) (hl : r.state = .leader)
    (hvoter : msg.context ∈ r.readOnly.readIndexQueue → msg.from_ ∈ r.prs.keys ∧ msg.from_ ≠ r.id)
    (hheard : ∀ ctx ∈ r.readOnly.readIndexQueue, heard ctx ⊆ heard' ctx)
    (hnoted : ∀ ctx ∈ r.readOnly.readIndexQueue, msg.context ∈ onwards r.readOnly.readIndexQueue ctx →
      msg.from_ ∈ heard' ctx) : ReadInv { r with readOnly := (r.readOnly.recvAck msg).1 } heard' := by
  rcases recvAck_spec r.readOnly msg with ⟨-, hsame⟩ | ⟨rs₀, hrs₀, hqueue, -, hlook⟩
  · rw [hsame]
    exact hinv.keep rfl rfl (fun h => h) (fun _ _ _ _ _ _ hv => hv) hheard
  · have hmem : msg.context ∈ r.readOnly.readIndexQueue := (hinv.keys _).mp (by rw [hrs₀]; rfl)
    refine ⟨fun ctx => ?_, fun h => absurd hl h, ?_, fun ctx rs hrs k hk => ?_, fun ctx rs hrs => ?_⟩
    · simp only [hqueue, hlook]
      split
      · rename_i hc
        rw [hc]
        exact ⟨fun _ => hmem, fun _ => rfl⟩
      · exact hinv.keys ctx
    · simp only [hqueue, hlook]
      intro ctx hctx ctx' hctx' rs hrs
      split at hrs
      · rename_i hc
        obtain rfl := Option.some.inj hrs
        rw [hc] at hctx'
        exact Finset.insert_subset (hnoted ctx hctx hctx')
          ((hinv.acks ctx hctx _ hctx' rs₀ hrs₀).trans (hheard ctx hctx))
      · exact (hinv.acks ctx hctx ctx' hctx' rs hrs).trans (hheard ctx hctx)
    · simp only [hlook] at hrs
      split at hrs
      · obtain rfl := Option.some.inj hrs
        rcases Finset.mem_insert.mp hk with rfl | hk
        · exact hvoter hmem
        · exact hinv.voters _ rs₀ hrs₀ k hk
      · exact hinv.voters ctx rs hrs k hk
    · simp only [hlook] at hrs
      split at hrs
      · obtain rfl := Option.some.inj hrs
        exact hinv.empty _ rs₀ hrs₀
      · exact hinv.empty ctx rs hrs

theorem ReadInv.stepLeaderProgress (hinv : ReadInv r heard) (hl : r.state = .leader)
    (hty : msg.type = .msgHeartbeatResp)
    (hvoter : (r.getProgress msg.from_).isSome → msg.context ∈ r.readOnly.readIndexQueue →
      msg.from_ ∈ r.prs.keys ∧ msg.from_ ≠ r.id)
    (hheard : ∀ ctx ∈ r.readOnly.readIndexQueue, heard ctx ⊆ heard' ctx)
    (hnoted : (r.getProgress msg.from_).isSome → ∀ ctx ∈ r.readOnly.readIndexQueue,
      msg.context ∈ onwards r.readOnly.readIndexQueue ctx → msg.from_ ∈ heard' ctx)
    (h : r.stepLeaderProgress msg = .ok r') : ReadInv r' heard' := by
  unfold Raft.stepLeaderProgress at h
  split at h
  · obtain rfl := Except.ok.inj h
    exact hinv.keeps (.refl r) hheard
  rename_i pr hpr
  simp only [hty] at h
  have hsome : (r.getProgress msg.from_).isSome := by rw [hpr]; rfl
  have hack := hinv.recvAck hl (hvoter hsome) hheard (hnoted hsome)
  obtain ⟨r₁, hs, hcase⟩ := leaderHeartbeatResp_spec h
  -- the messages sent before do not matter to the reads
  have hset : ReadInv { r₁ with readOnly := (r.readOnly.recvAck msg).1 } heard' :=
    hack.keeps ⟨⟨hs.id, hs.term, hs.vote, hs.raftLog, hs.state, rfl⟩, hs.keys⟩ fun _ _ => Finset.Subset.refl _
  rcases hcase with ⟨rfl, -⟩ | ⟨-, -, -, ⟨-, rfl⟩ | ⟨hq, ro, rss, hadv, -⟩⟩
  · exact hinv.keeps hs.toKeeps hheard
  · exact hset
  · exfalso
    rcases recvAck_spec r.readOnly msg with ⟨-, h0⟩ | ⟨rs, hrs, hqueue, -, -⟩
    · rw [h0] at hq
      have : 0 < r.quorum := Nat.succ_pos _
      omega
    · refine ReadOnly.advance_fails hset.empty ?_ (ro, rss) hadv
      change msg.context ∈ (r.readOnly.recvAck msg).1.readIndexQueue
      rw [hqueue]
      exact (hinv.keys _).mp (by rw [hrs]; rfl)

end Steps

section Runs
variable {n n' : RawNode} {heard : Bytes → Finset Nat}

/-- A message that the node steps for itself or for its application. -/
theorem ReadInv.stepRaft (hinv : ReadInv n.raft heard) {msg : Message} {a : NodeAction}
    (hterm : msg.type.isFromLeader = true → msg.term ≠ 0)
    (hack : msg.type = .msgHeartbeatResp → a = .step msg ∧ VotersAcknowledge n (.step msg))
    (h : Prod.fst <$> n.stepRaft msg = .ok n') : ReadInv n'.raft (heardAfter n.raft heard a) := by
  obtain ⟨st, h⟩ := map_fst_ok h
  obtain ⟨⟨r₁, st₁⟩, h₁, h⟩ := bind_ok h
  rw [← (Prod.mk.inj (Except.ok.inj h)).1]
  change ReadInv r₁ _
  have hheard : ∀ ctx ∈ n.raft.readOnly.readIndexQueue, heard ctx ⊆ heardAfter n.raft heard a ctx :=
    fun ctx hctx => heard_subset n.raft heard a hctx
  rcases step_reads_cases hterm h₁ with ⟨hid, hk⟩ | ⟨hl, hsame, ⟨-, hread⟩ | ⟨hty, hresp⟩⟩
  · exact hinv.readsKept hid hk hheard
  · rcases leaderReadIndex_spec hread with ⟨hk, -⟩ | ⟨ro, ctx, hro, hb⟩
    · exact hinv.keeps hk hheard
    · exact (hinv.addRequest hl hro hheard).keeps (bcastHeartbeatWithCtx_sends hb).toKeeps
        fun _ _ => Finset.Subset.refl _
  · obtain ⟨rfl, hv⟩ := hack hty
    have hhears : (n.raft.getProgress msg.from_).isSome → n.raft.Hears msg := fun hs => ⟨hl, hty, hsame, hs⟩
    refine hinv.stepLeaderProgress hl hty (fun hs => hv.1 (hhears hs)) hheard ?_ hresp
    intro hs ctx hctx hon
    unfold heardAfter
    rw [if_pos hctx]
    simp only
    rw [if_pos ⟨hhears hs, hon⟩]
    exact Finset.mem_insert_self _ _

/-- Every action keeps the invariant. -/
theorem ReadInv.run (hinv : ReadInv n.raft heard) {a : NodeAction} (ha : VotersAcknowledge n a)
    (h : n.run a = .ok n') : ReadInv n'.raft (heardAfter n.raft heard a) := by
  have hheard : ∀ ctx ∈ n.raft.readOnly.readIndexQueue, heard ctx ⊆ heardAfter n.raft heard a ctx :=
    fun ctx hctx => heard_subset n.raft heard a hctx
  cases a with
  | tick =>
      obtain ⟨r₁, h₁, h⟩ := bind_ok h
      obtain rfl := Except.ok.inj h
      have hev := tick_evolves (W := True) h₁
      exact hinv.readsKept hev.id hev.toReadsKept hheard
  | step msg =>
      change Prod.fst <$> n.step msg = .ok n' at h
      unfold RawNode.step at h
      split at h
      · obtain rfl := Except.ok.inj h
        exact hinv.keeps (.refl _) hheard
      split at h
      · exact hinv.stepRaft ha.2 (fun _ => ⟨rfl, ha⟩) h
      · obtain rfl := Except.ok.inj h
        exact hinv.keeps (.refl _) hheard
  | campaign => exact hinv.stepRaft (by rintro ⟨⟩) (by rintro ⟨⟩) h
  | propose data => exact hinv.stepRaft (by rintro ⟨⟩) (by rintro ⟨⟩) h
  | proposeConfChange data => exact hinv.stepRaft (by rintro ⟨⟩) (by rintro ⟨⟩) h
  | applyConfChange cc =>
      obtain ⟨cs, h⟩ := map_fst_ok h
      obtain ⟨hid, hro, hstate, hkeys⟩ := applyConfChange_reads h
      refine hinv.keep hid hro (fun hl => hstate.trans hl) (fun _ ctx rs hrs k hk hv => ?_) hheard
      refine hkeys k hv fun hrem => ?_
      rintro rfl
      exact ha hrem ctx rs hrs hk
  | transferLeadership lead transferee => exact hinv.stepRaft (by rintro ⟨⟩) (by rintro ⟨⟩) h
  | readIndex rctx => exact hinv.stepRaft (by rintro ⟨⟩) (by rintro ⟨⟩) h
  | reportUnreachable id => exact hinv.stepRaft (by rintro ⟨⟩) (by rintro ⟨⟩) h
  | reportSnapshot id failure => exact hinv.stepRaft (by rintro ⟨⟩) (by rintro ⟨⟩) h
  | ready =>
      obtain ⟨rd, hrd⟩ := map_snd_ok h
      exact hinv.keeps (ready_keeps hrd) hheard
  | advance rd =>
      obtain rfl := Except.ok.inj h
      exact hinv.keep rfl rfl (fun hl => hl) (fun _ _ _ _ _ _ hv => hv) hheard
  | store storage =>
      obtain rfl := Except.ok.inj h
      exact hinv.keep rfl rfl (fun hl => hl) (fun _ _ _ _ _ _ hv => hv) hheard

theorem ReadHistory.Runs.inv {s s' : ReadHistory} (h : ReadHistory.Runs VotersAcknowledge s s')
    (hinv : ReadInv s.node.raft s.heard) : ReadInv s'.node.raft s'.heard := by
  induction h with
  | refl => exact hinv
  | tail _ hstep ih =>
      obtain ⟨a, ha, hrun, hheard⟩ := hstep
      rw [hheard]
      exact ih.run ha hrun

/-- The voters that acknowledged an answered request, with the leader, are a quorum. -/
theorem ReadInv.answered (hinv : ReadInv n.raft heard) {msg : Message} (hv : VotersAcknowledge n (.step msg))
    {ctx : Bytes} (h : ctx ∈ n.raft.answered msg) :
    n.raft.quorum ≤ (confirming n.raft (heardAfter n.raft heard (.step msg) ctx)).card := by
  unfold Raft.answered at h
  split at h
  · rename_i hgo
    obtain ⟨hears, -, -, hq⟩ := hgo
    rcases recvAck_spec n.raft.readOnly msg with ⟨-, h0⟩ | ⟨rs, hrs, -, hcount, -⟩
    · rw [h0] at hq
      have : 0 < n.raft.quorum := Nat.succ_pos _
      omega
    have hmem : msg.context ∈ n.raft.readOnly.readIndexQueue := (hinv.keys _).mp (by rw [hrs]; rfl)
    split at h
    · rename_i rss found hcollect
      obtain ⟨-, -, -, htake⟩ := collect_spec hcollect hmem
      obtain ⟨hctx, hon⟩ := htake ctx h
      have hheard : heardAfter n.raft heard (.step msg) ctx = insert msg.from_ (heard ctx) := by
        unfold heardAfter
        rw [if_pos hctx]
        simp only
        rw [if_pos ⟨hears, hon⟩]
      have hvoter := hv.1 hears hmem
      -- the recorded acknowledgements are voters other than the leader, and all of them were heard
      have hacks : ∀ k ∈ insert msg.from_ rs.acks, k ∈ n.raft.prs.keys ∧ k ≠ n.raft.id := by
        intro k hk
        rcases Finset.mem_insert.mp hk with rfl | hk
        · exact hvoter
        · exact hinv.voters _ rs hrs k hk
      have hsub : insert msg.from_ rs.acks ⊆
          (heardAfter n.raft heard (.step msg) ctx).filter (· ∈ n.raft.prs.keys) := by
        intro k hk
        refine Finset.mem_filter.mpr ⟨?_, (hacks k hk).1⟩
        rw [hheard]
        exact Finset.insert_subset_insert _ (hinv.acks ctx hctx _ hon rs hrs) hk
      have hid : n.raft.id ∉ insert msg.from_ rs.acks := fun hk => (hacks _ hk).2 rfl
      calc n.raft.quorum ≤ (insert msg.from_ rs.acks).card + 1 := hq.trans hcount
        _ = (insert n.raft.id (insert msg.from_ rs.acks)).card := (Finset.card_insert_of_notMem hid).symm
        _ ≤ (confirming n.raft (heardAfter n.raft heard (.step msg) ctx)).card :=
            Finset.card_le_card (Finset.insert_subset_insert _ hsub)
    · cases h
  · cases h

/-- Whenever a leader takes up a read request for an answer, the leader and the voters that have
acknowledged the request or one queued behind it are a quorum, in every run in which only voters
acknowledge reads. -/
theorem safe_read_quorum {s s' : ReadHistory} (hstart : s.node.raft.readOnly.readIndexQueue = [])
    (hnone : s.node.raft.readOnly.pendingReadIndex = ∅) (h : ReadHistory.Runs VotersAcknowledge s s')
    {msg : Message} (hv : VotersAcknowledge s'.node (.step msg)) :
    ∀ ctx ∈ s'.node.raft.answered msg,
      s'.node.raft.quorum ≤ (confirming s'.node.raft (heardAfter s'.node.raft s'.heard (.step msg) ctx)).card :=
  fun _ hctx => (h.inv (.of_cleared hstart hnone)).answered hv hctx

/-- The actions of a list, with the history. -/
def ReadHistory.runAll (s : ReadHistory) : List NodeAction → Result ReadHistory
  | [] => .ok s
  | a :: as => do
      let n ← s.node.run a
      ReadHistory.runAll { node := n, heard := heardAfter s.node.raft s.heard a } as

theorem ReadHistory.runAll_runs {P : RawNode → NodeAction → Prop} {s s' : ReadHistory} (as : List NodeAction)
    (hall : ∀ n, ∀ a ∈ as, P n a) (h : s.runAll as = .ok s') : ReadHistory.Runs P s s' := by
  induction as generalizing s with
  | nil =>
      obtain rfl := Except.ok.inj h
      exact .refl
  | cons a as ih =>
      obtain ⟨n, hn, h⟩ := bind_ok h
      exact .head ⟨a, hall _ a (List.mem_cons_self ..), hn, rfl⟩
        (ih (fun n a ha => hall n a (List.mem_cons_of_mem _ ha)) h)

/-- Three voters and a learner. -/
def trioAndLearner : ClusterConfig where
  voters := [1, 2, 3]
  learners := [4]
  settings _ := serverSettings false
  nodup := by decide
  nonzero := by decide

/-- The first voter is elected, commits its first entry and is asked to read. -/
def asksToRead : List NodeAction :=
  [.campaign, .step { type := .msgVoteResp, to_ := 1, from_ := 2, term := 1 },
    .step { type := .msgAppResp, to_ := 1, from_ := 2, term := 1, index := 1 }, .readIndex [7]]

def readingLeader : Result (ReadHistory × ReadHistory) := do
  let n ← RawNode.restartNode (trioAndLearner.config 1 {} 0 fun _ => 0)
  let s ← ReadHistory.runAll { node := n, heard := fun _ => ∅ } asksToRead
  .ok ({ node := n, heard := fun _ => ∅ }, s)

/-- The context comes back from a member. -/
def contextFrom (id : Nat) : Message :=
  { type := .msgHeartbeatResp, to_ := 1, from_ := id, term := 1, context := [7] }

theorem readingLeader_runs {P : RawNode → NodeAction → Prop} (hall : ∀ n, ∀ a ∈ asksToRead, P n a)
    {s s' : ReadHistory} (h : readingLeader = .ok (s, s')) : ReadHistory.Runs P s s' := by
  obtain ⟨n, -, h⟩ := bind_ok h
  obtain ⟨s₁, hs₁, h⟩ := bind_ok h
  obtain ⟨rfl, rfl⟩ := Prod.mk.inj (Except.ok.inj h)
  exact ReadHistory.runAll_runs asksToRead hall hs₁

theorem safe_read_quorum_voter : ∃ s s' : ReadHistory, ReadHistory.Runs VotersAcknowledge s s' ∧
    s'.node.raft.answered (contextFrom 2) = [[7]] ∧ ∀ ctx ∈ s'.node.raft.answered (contextFrom 2),
      s'.node.raft.quorum ≤
        (confirming s'.node.raft (heardAfter s'.node.raft s'.heard (.step (contextFrom 2)) ctx)).card := by
  obtain ⟨⟨s, s'⟩, hrun, hp⟩ := exists_ok_of_any (x := readingLeader) (p := fun (s, s') =>
    decide (s.node.raft.readOnly.readIndexQueue = [] ∧ s.node.raft.readOnly.pendingReadIndex.keys = [] ∧
      s'.node.raft.answered (contextFrom 2) = [[7]] ∧ 2 ∈ s'.node.raft.prs.keys ∧ s'.node.raft.id = 1))
    (by decide +kernel)
  obtain ⟨hqueue, hpending, hanswered, hvoter, hid⟩ := of_decide_eq_true hp
  have hempty : s.node.raft.readOnly.pendingReadIndex = ∅ := by
    apply AList.ext
    exact List.map_eq_nil_iff.mp hpending
  have hall : ∀ n, ∀ a ∈ asksToRead, VotersAcknowledge n a := by
    intro n a ha
    simp only [asksToRead, List.mem_cons, List.not_mem_nil, or_false] at ha
    rcases ha with rfl | rfl | rfl | rfl
    · trivial
    · exact ⟨fun hh => absurd hh.2.1 (by simp), by rintro ⟨⟩⟩
    · exact ⟨fun hh => absurd hh.2.1 (by simp), by rintro ⟨⟩⟩
    · trivial
  have hruns := readingLeader_runs hall hrun
  refine ⟨s, s', hruns, hanswered, safe_read_quorum hqueue hempty hruns ⟨fun _ _ => ⟨hvoter, ?_⟩, by rintro ⟨⟩⟩⟩
  rw [hid]
  decide

/-- The learner alone sends the context back, and the leader of three voters takes that for a quorum. -/
theorem learner_confirms_read : ∃ s s' : ReadHistory, s.node.raft.readOnly.readIndexQueue = [] ∧
    s.node.raft.readOnly.pendingReadIndex = ∅ ∧ ReadHistory.Runs (fun _ _ => True) s s' ∧
      s'.node.raft.state = .leader ∧ s'.node.raft.readOnly.option = .safe ∧
      [7] ∈ s'.node.raft.answered (contextFrom 4) ∧
      ¬ s'.node.raft.quorum ≤
        (confirming s'.node.raft (heardAfter s'.node.raft s'.heard (.step (contextFrom 4)) [7])).card := by
  obtain ⟨⟨s, s'⟩, hrun, hp⟩ := exists_ok_of_any (x := readingLeader) (p := fun (s, s') =>
    decide (s.node.raft.readOnly.readIndexQueue = [] ∧ s.node.raft.readOnly.pendingReadIndex.keys = [] ∧
      s'.node.raft.state = .leader ∧ s'.node.raft.readOnly.option = .safe ∧
      [7] ∈ s'.node.raft.answered (contextFrom 4) ∧ ¬ s'.node.raft.quorum ≤
        (confirming s'.node.raft (heardAfter s'.node.raft s'.heard (.step (contextFrom 4)) [7])).card))
    (by decide +kernel)
  obtain ⟨hqueue, hpending, hl, hsafe, hanswered, hfew⟩ := of_decide_eq_true hp
  have hempty : s.node.raft.readOnly.pendingReadIndex = ∅ := by
    apply AList.ext
    exact List.map_eq_nil_iff.mp hpending
  exact ⟨s, s', hqueue, hempty, readingLeader_runs (fun _ _ _ => trivial) hrun, hl, hsafe, hanswered, hfew⟩

end Runs

end RaftEtcd
