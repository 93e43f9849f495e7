import RaftEtcd.Evolve.Step

/-! Runs of one `RawNode`: any sequence of its operations, in any state, with the application free
to change the storage between them. -/
namespace RaftEtcd

/-- What an application can do with a node. -/
inductive NodeAction where
  | tick
  | step (msg : Message)
  | campaign
  | propose (data : Bytes)
  | proposeConfChange (data : Bytes)
  | applyConfChange (cc : ConfChange)
  | transferLeadership (lead transferee : Nat)
  | readIndex (rctx : Bytes)
  | reportUnreachable (id : Nat)
  | reportSnapshot (id : Nat) (failure : Bool)
  | ready
  | advance (rd : Ready)
  | store (storage : MemoryStorage)

/-- The node after the action; statuses and what a `Ready` holds go to the application. -/
def RawNode.run (n : RawNode) : NodeAction → Result RawNode
  | .tick => n.tick
  | .step msg => Prod.fst <$> n.step msg
  | .campaign => Prod.fst <$> n.campaign
  | .propose data => Prod.fst <$> n.propose data
  | .proposeConfChange data => Prod.fst <$> n.proposeConfChange data
  | .applyConfChange cc => Prod.fst <$> n.applyConfChange cc
  | .transferLeadership lead transferee => Prod.fst <$> n.transferLeadership lead transferee
  | .readIndex rctx => Prod.fst <$> n.readIndex rctx
  | .reportUnreachable id => Prod.fst <$> n.reportUnreachable id
  | .reportSnapshot id failure => Prod.fst <$> n.reportSnapshot id failure
  | .ready => Prod.snd <$> n.ready
  | .advance rd => .ok (n.advance rd)
  | .store storage =>
      .ok { n with raft := { n.raft with raftLog := { n.raft.raftLog with storage := storage } } }

/-- Runs whose actions all meet a condition on the node before them. -/
def RawNode.Runs (P : RawNode → NodeAction → Prop) : RawNode → RawNode → Prop :=
  Relation.ReflTransGen fun n n' => ∃ a, P n a ∧ n.run a = .ok n'

/-- The actions of a list, one after the other. -/
def RawNode.runAll (n : RawNode) : List NodeAction → Result RawNode
  | [] => .ok n
  | a :: as => do
      let n ← n.run a
      n.runAll as

theorem RawNode.runAll_runs {P : RawNode → NodeAction → Prop} {n n' : RawNode} (as : List NodeAction)
    (hall : ∀ n, ∀ a ∈ as, P n a) (h : n.runAll as = .ok n') : RawNode.Runs P n n' := by
  induction as generalizing n with
  | nil =>
      obtain rfl := Except.ok.inj h
      exact .refl
  | cons a as ih =>
      obtain ⟨n₁, h₁, h⟩ := bind_ok h
      exact .head ⟨a, hall n a (List.mem_cons_self ..), h₁⟩
        (ih (fun n a ha => hall n a (List.mem_cons_of_mem _ ha)) h)

section ConfChanges
variable {r r' : Raft} {id : Nat}

/-- Adding a node touches the peers only, and takes no voter away. -/
theorem addNodeOrLearner_spec {b : Bool} (h : r.addNodeOrLearner id b = .ok r') :
    SameSelf r r' ∧ ∀ k ∈ r.prs, k ∈ r'.prs := by
  have hmark : ∀ r₁ : Raft, Keeps r₁ (r₁.markAdded id b) := by
    intro r₁
    have hset : Keeps r₁ (if r₁.id = id then { r₁ with isLearner := b } else r₁) := by
      split
      · exact ⟨⟨rfl, rfl, rfl, rfl, rfl, rfl⟩, rfl⟩
      · exact .refl r₁
    exact hset.trans (modifyProgress_sends _ id _).toKeeps
  -- the new peers are set first, then one of them is marked
  have hadd : ∀ r₁ : Raft, SameSelf r r₁ → (∀ k ∈ r.prs, k ∈ r₁.prs) →
      SameSelf r (r₁.markAdded id b) ∧ ∀ k ∈ r.prs, k ∈ (r₁.markAdded id b).prs := by
    intro r₁ hsame hkeys
    refine ⟨hsame.trans (hmark r₁).toSameSelf, fun k hk => ?_⟩
    have hk₁ := hkeys k hk
    rw [AList.mem_keys] at hk₁ ⊢
    rw [(hmark r₁).keys]
    exact hk₁
  unfold Raft.addNodeOrLearner at h
  split at h
  · obtain ⟨r₁, h₁, h⟩ := bind_ok h
    obtain rfl := Except.ok.inj h
    obtain ⟨⟨prs, lprs, rfl⟩, hkeys⟩ := setProgress_spec h₁
    exact hadd _ ⟨rfl, rfl, rfl, rfl, rfl, rfl⟩ hkeys
  split at h
  · obtain rfl := Except.ok.inj h
    exact ⟨(Keeps.refl r).toSameSelf, fun _ hk => hk⟩
  split at h
  · obtain rfl := Except.ok.inj h
    exact ⟨(Keeps.refl r).toSameSelf, fun _ hk => hk⟩
  · obtain rfl := Except.ok.inj h
    exact hadd _ ⟨rfl, rfl, rfl, rfl, rfl, rfl⟩ fun k hk => (AList.mem_insert _).mpr (Or.inr hk)

/-- Removing a node may commit entries, and takes no other voter away. -/
theorem removeNode_spec {W : Prop} (h : r.removeNode id = .ok r') :
    Advances W r r' ∧ r'.readOnly = r.readOnly ∧ r'.state = r.state ∧
      ∀ k ∈ r.prs, k ≠ id → k ∈ r'.prs := by
  have hdel : SameSelf r (r.delProgress id) := ⟨rfl, rfl, rfl, rfl, rfl, rfl⟩
  have herase : ∀ k ∈ r.prs, k ≠ id → k ∈ (r.delProgress id).prs := fun k hk hne =>
    AList.mem_erase.mpr ⟨hne, hk⟩
  unfold Raft.removeNode at h
  simp only at h
  split at h
  · obtain rfl := Except.ok.inj h
    exact ⟨hdel.advances, rfl, rfl, herase⟩
  · obtain ⟨⟨r₁, changed⟩, h₁, h⟩ := bind_ok h
    obtain ⟨log, rfl, hgrow⟩ := maybeCommit_spec (W := W) h₁
    have hlog : Advances W r { r.delProgress id with raftLog := log } :=
      hdel.advances.trans (Evolves.ofLog hgrow).toAdvances
    -- what follows only tells the peers
    have hend : ∀ r₂ : Raft, Keeps { r.delProgress id with raftLog := log } r₂ →
        Advances W r r₂ ∧ r₂.readOnly = r.readOnly ∧ r₂.state = r.state ∧ ∀ k ∈ r.prs, k ≠ id → k ∈ r₂.prs := by
      intro r₂ hk₂
      refine ⟨hlog.trans hk₂.toSameSelf.advances, hk₂.readOnly, hk₂.state, fun k hk hne => ?_⟩
      rw [AList.mem_keys, hk₂.keys]
      exact herase k hk hne
    have habort : ∀ r₂ : Raft, Keeps r₂
        (if r₂.state = .leader ∧ r₂.leadTransferee = id then r₂.abortLeaderTransfer else r₂) := by
      intro r₂
      split
      · exact ⟨⟨rfl, rfl, rfl, rfl, rfl, rfl⟩, rfl⟩
      · exact .refl r₂
    simp only at h
    split at h
    · obtain ⟨r₂, h₂, h⟩ := bind_ok h
      obtain rfl := Except.ok.inj h
      exact hend _ ((bcastAppend_sends h₂).toKeeps.trans (habort r₂))
    · obtain rfl := Except.ok.inj h
      exact hend _ (habort _)

theorem applyConfChange_advances {W : Prop} {n n' : RawNode} {cc : ConfChange} {cs : ConfState}
    (h : n.applyConfChange cc = .ok (n', cs)) : Advances W n.raft n'.raft := by
  have hend : ∀ {r₁ : Raft} {cs₁ : ConfState}, Advances W n.raft r₁ →
      (Except.ok ({ n with raft := r₁ }, cs₁) : Result _) = .ok (n', cs) → Advances W n.raft n'.raft := by
    intro r₁ cs₁ hadv h
    rw [← (Prod.mk.inj (Except.ok.inj h)).1]
    exact hadv
  unfold RawNode.applyConfChange at h
  split at h
  · exact hend (.refl _) h
  split at h
  · obtain ⟨r₁, h₁, h⟩ := bind_ok h
    exact hend (addNodeOrLearner_spec h₁).1.advances h
  split at h
  · obtain ⟨r₁, h₁, h⟩ := bind_ok h
    exact hend (addNodeOrLearner_spec h₁).1.advances h
  split at h
  · obtain ⟨r₁, h₁, h⟩ := bind_ok h
    exact hend (removeNode_spec h₁).1 h
  split at h
  · exact hend (.refl _) h
  · cases h

/-- A change of the membership leaves the reads alone, and takes at most the node away that it removes. -/
theorem applyConfChange_reads {n n' : RawNode} {cc : ConfChange} {cs : ConfState}
    (h : n.applyConfChange cc = .ok (n', cs)) :
    n'.raft.id = n.raft.id ∧ n'.raft.readOnly = n.raft.readOnly ∧ n'.raft.state = n.raft.state ∧
      ∀ k ∈ n.raft.prs.keys, (cc.confChangeType = confChangeRemoveNode → k ≠ cc.nodeId) → k ∈ n'.raft.prs.keys := by
  have hend : ∀ {r₁ : Raft} {cs₁ : ConfState}, SameSelf n.raft r₁ → (∀ k ∈ n.raft.prs, k ∈ r₁.prs) →
      (Except.ok ({ n with raft := r₁ }, cs₁) : Result _) = .ok (n', cs) → n'.raft.id = n.raft.id ∧
        n'.raft.readOnly = n.raft.readOnly ∧ n'.raft.state = n.raft.state ∧
        ∀ k ∈ n.raft.prs.keys, (cc.confChangeType = confChangeRemoveNode → k ≠ cc.nodeId) →
          k ∈ n'.raft.prs.keys := by
    intro r₁ cs₁ hs hk h
    rw [← (Prod.mk.inj (Except.ok.inj h)).1]
    exact ⟨hs.id, hs.readOnly, hs.state, fun k hmem _ => hk k hmem⟩
  unfold RawNode.applyConfChange at h
  split at h
  · exact hend (Keeps.refl _).toSameSelf (fun _ hk => hk) h
  split at h
  · obtain ⟨r₁, h₁, h⟩ := bind_ok h
    exact hend (addNodeOrLearner_spec h₁).1 (addNodeOrLearner_spec h₁).2 h
  split at h
  · obtain ⟨r₁, h₁, h⟩ := bind_ok h
    exact hend (addNodeOrLearner_spec h₁).1 (addNodeOrLearner_spec h₁).2 h
  split at h
  · rename_i hrem
    obtain ⟨r₁, h₁, h⟩ := bind_ok h
    obtain ⟨hadv, hro, hstate, hkeys⟩ := removeNode_spec (W := True) h₁
    rw [← (Prod.mk.inj (Except.ok.inj h)).1]
    exact ⟨hadv.id, hro, hstate, fun k hmem hne => hkeys k hmem (hne hrem)⟩
  split at h
  · exact hend (Keeps.refl _).toSameSelf (fun _ hk => hk) h
  · cases h

end ConfChanges

section Operations
variable {msg : Message}

/-- The message that an operation hands to the state machine, if any. -/
def NodeAction.message (n : RawNode) : NodeAction → Option Message
  | .step msg =>
      if msg.isLocalMsg then none
      else if (n.raft.getProgress msg.from_).isSome || !msg.isResponseMsg then some msg
      else none
  | .campaign => some { type := .msgHup }
  | .propose data =>
      some { type := .msgProp, from_ := n.raft.id, entries := [{ type := entryNormal, data := data }] }
  | .proposeConfChange data => some { type := .msgProp, entries := [{ type := entryConfChange, data := data }] }
  | .transferLeadership lead transferee => some { type := .msgTransferLeader, from_ := transferee, to_ := lead }
  | .readIndex rctx => some { type := .msgReadIndex, entries := [{ type := 15, data := rctx }] }
  | .reportUnreachable id => some { type := .msgUnreachable, from_ := id }
  | .reportSnapshot id failure => some { type := .msgSnapStatus, from_ := id, reject := failure }
  | _ => none

/-- The messages that a node makes for itself when it is called. -/
def MessageType.isOwn : MessageType → Bool
  | .msgHup | .msgProp | .msgTransferLeader | .msgReadIndex | .msgUnreachable | .msgSnapStatus => true
  | _ => false

/-- What a call steps is a message that came in, or one of the node's own. -/
theorem message_cases {n : RawNode} {a : NodeAction} (h : a.message n = some msg) :
    a = .step msg ∧ msg.isLocalMsg = false ∨
      (∀ m, a ≠ .step m) ∧ msg.type.isOwn = true ∧ (msg.type = .msgHup → a = .campaign) := by
  cases a with
  | step m =>
      simp only [NodeAction.message] at h
      split at h
      · cases h
      rename_i hlocal
      split at h
      · obtain rfl := Option.some.inj h
        exact Or.inl ⟨rfl, by simpa using hlocal⟩
      · cases h
  | tick => cases h
  | applyConfChange cc => cases h
  | ready => cases h
  | advance rd => cases h
  | store storage => cases h
  | campaign =>
      obtain rfl := Option.some.inj h
      exact Or.inr ⟨nofun, rfl, fun _ => rfl⟩
  | _ =>
      obtain rfl := Option.some.inj h
      exact Or.inr ⟨nofun, rfl, nofun⟩

/-- A message that no peer has sent is none of a leader's. -/
theorem message_own {n : RawNode} {a : NodeAction} (h : a.message n = some msg) :
    a = .step msg ∨ msg.type.isFromLeader = false := by
  rcases message_cases h with ⟨rfl, -⟩ | ⟨-, hown, -⟩
  · exact Or.inl rfl
  · cases hty : msg.type with
    | msgApp => rw [hty] at hown; cases hown
    | msgSnap => rw [hty] at hown; cases hown
    | msgHeartbeat => rw [hty] at hown; cases hown
    | _ => exact Or.inr rfl

/-- What an operation is. -/
inductive Operates (n : RawNode) (a : NodeAction) (n' : RawNode) : Prop
  | refuses (message : a.message n = none) (same : n' = n)
  | steps (msg : Message) (message : a.message n = some msg) (r' : Raft) (st : Status)
      (step : n.raft.step msg = .ok (r', st)) (node : n' = { n with raft := r' })
  | ticks (action : a = .tick) (r' : Raft) (tick : n.raft.tick = .ok r') (node : n' = { n with raft := r' })
  | configures (cc : ConfChange) (action : a = .applyConfChange cc) (cs : ConfState)
      (apply : n.applyConfChange cc = .ok (n', cs))
  | readies (action : a = .ready) (rd : Ready) (ready : n.ready = .ok (rd, n'))
  | advances (rd : Ready) (action : a = .advance rd) (node : n' = n.advance rd)
  | stores (storage : MemoryStorage) (action : a = .store storage)
      (node : n' = { n with raft := { n.raft with raftLog := { n.raft.raftLog with storage := storage } } })

theorem map_snd_ok {α β : Type} {x : Result (α × β)} {b : β} (h : Prod.snd <$> x = .ok b) :
    ∃ a, x = .ok (a, b) := by
  cases x with
  | error e => cases h
  | ok p =>
      obtain rfl := Except.ok.inj h
      exact ⟨p.1, rfl⟩

theorem run_operates {n n' : RawNode} {a : NodeAction} (h : n.run a = .ok n') : Operates n a n' := by
  have hstep : ∀ {msg : Message}, a.message n = some msg → Prod.fst <$> n.stepRaft msg = .ok n' →
      Operates n a n' := by
    intro msg hmsg h
    obtain ⟨st, h⟩ := map_fst_ok h
    obtain ⟨⟨r', st'⟩, hr, h⟩ := bind_ok h
    exact .steps msg hmsg r' st' hr (Prod.mk.inj (Except.ok.inj h)).1.symm
  cases a with
  | tick =>
      obtain ⟨r', hr, h⟩ := bind_ok h
      exact .ticks rfl r' hr (Except.ok.inj h).symm
  | step msg =>
      change Prod.fst <$> n.step msg = .ok n' at h
      unfold RawNode.step at h
      split at h
      · rename_i hlocal
        exact .refuses (by rw [NodeAction.message, if_pos hlocal]) (Except.ok.inj h).symm
      rename_i hlocal
      split at h
      · rename_i hpeer
        exact hstep (by rw [NodeAction.message, if_neg hlocal, if_pos hpeer]) h
      · rename_i hpeer
        exact .refuses (by rw [NodeAction.message, if_neg hlocal, if_neg hpeer]) (Except.ok.inj h).symm
  | campaign => exact hstep rfl h
  | propose data => exact hstep rfl h
  | proposeConfChange data => exact hstep rfl h
  | applyConfChange cc =>
      obtain ⟨cs, h⟩ := map_fst_ok h
      exact .configures cc rfl cs h
  | transferLeadership lead transferee => exact hstep rfl h
  | readIndex rctx => exact hstep rfl h
  | reportUnreachable id => exact hstep rfl h
  | reportSnapshot id failure => exact hstep rfl h
  | ready =>
      obtain ⟨rd, h⟩ := map_snd_ok h
      exact .readies rfl rd h
  | advance rd => exact .advances rd rfl (Except.ok.inj h).symm
  | store storage => exact .stores storage rfl (Except.ok.inj h).symm

end Operations

section Monotone

/-- A message from another node carries a term, unless it is a proposal or a read request. -/
def NodeAction.Termed (_ : RawNode) : NodeAction → Prop
  | .step msg => msg.term ≠ 0 ∨ msg.type = .msgProp ∨ msg.type = .msgReadIndex
  | _ => True

/-- What a node has promised in `r` it has not taken back in `r'`. -/
structure Onward (r r' : Raft) : Prop where
  term : r.term ≤ r'.term
  vote : r'.term = r.term → r.vote ≠ 0 → r'.vote = r.vote
  committed : r.raftLog.committed ≤ r'.raftLog.committed

variable {r r' r'' : Raft} {n n' : RawNode}

theorem Onward.refl (r : Raft) : Onward r r := ⟨le_rfl, fun _ _ => rfl, le_rfl⟩

theorem Onward.trans (h : Onward r r') (h' : Onward r' r'') : Onward r r'' where
  term := h.term.trans h'.term
  vote ht hv := by
    have h1 := h.term
    have h2 := h'.term
    have hv' := h.vote (by omega) hv
    rw [h'.vote (by omega) (hv' ▸ hv), hv']
  committed := h.committed.trans h'.committed

theorem advanceLog_committed (l : RaftLog) (rd : Ready) : (RawNode.advanceLog l rd).committed = l.committed := by
  have happ : ∀ (l : RaftLog) (i : Nat), (l.appliedTo i).committed = l.committed := by
    intro l i
    unfold RaftLog.appliedTo
    split <;> rfl
  unfold RawNode.advanceLog
  dsimp only
  split
  · cases rd.entries.getLast? <;> dsimp only <;> split <;> first | exact happ _ _ | rfl
  · cases rd.entries.getLast? <;> dsimp only <;> split <;> first | exact happ _ _ | rfl

/-- A `Ready` takes the messages, and the committed entries no longer count. -/
theorem ready_frame {rd : Ready} (h : n.ready = .ok (rd, n')) :
    n' = { n with raft := { n.raft with
      msgs := [], uncommittedSize := n.raft.uncommittedSize - payloadSum rd.committedEntries } } := by
  obtain ⟨rd₁, -, h⟩ := bind_ok h
  obtain ⟨rfl, rfl⟩ := Prod.mk.inj (Except.ok.inj h)
  rw [Raft.reduceUncommittedSize_eq]

theorem ready_keeps {rd : Ready} (h : n.ready = .ok (rd, n')) : Keeps n.raft n'.raft := by
  rw [ready_frame h]
  exact ⟨⟨rfl, rfl, rfl, rfl, rfl, rfl⟩, rfl⟩

/-- The first voter of a fresh cluster. -/
def firstVoter : Result RawNode := RawNode.restartNode ((trio false).config 1 {} 0 fun _ => 0)

/-- It stands for election and gets the vote of the second. -/
def winElection : List NodeAction :=
  [.campaign, .step { type := .msgVoteResp, to_ := 1, from_ := 2, term := 1 }]

end Monotone

end RaftEtcd
