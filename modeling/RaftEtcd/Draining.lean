import RaftEtcd.Healthy
import RaftEtcd.RaftNode

/-! Taking what a node has ready, storing it, applying the changes of the configuration in it and advancing,
again and again, until nothing is ready any more. -/
namespace RaftEtcd

/-- The changes of the configuration among some entries; one that cannot be read is skipped. -/
def confChanges (decode : Bytes → Option ConfChange) (es : List Entry) : List ConfChange :=
  (es.filter fun e => e.type == entryConfChange).filterMap fun e => decode e.data

namespace RawNode
variable (decode : Bytes → Option ConfChange)

/-- One round of the loop. -/
def drainRound (n : RawNode) : Result RawNode := do
  let (rd, n) ← n.ready
  let storage ← persist n.raft.raftLog.storage rd
  let n := { n with raft := { n.raft with raftLog := { n.raft.raftLog with storage := storage } } }
  let (n, _) ← n.applyConfChanges (confChanges decode rd.committedEntries)
  .ok (n.advance rd)

/-- So many rounds, unless nothing is ready before. -/
def drain : Nat → RawNode → Result RawNode
  | 0, n => .ok n
  | k + 1, n => if n.hasReady then n.drainRound decode >>= drain k else .ok n

end RawNode

/-- A change that can be applied to some members: its type is known, and a removal leaves a voter behind or
nobody at all. -/
def ConfChange.Appliable (m : Membership) (cc : ConfChange) : Prop :=
  cc.nodeId = 0 ∨ cc.Known ∧ (cc.confChangeType = confChangeRemoveNode →
    (m.apply cc).voters ≠ ∅ ∨ (m.apply cc).learners = ∅)

instance (m : Membership) (cc : ConfChange) : Decidable (cc.Appliable m) := inferInstanceAs (Decidable (_ ∨ _))

/-- Each change can be applied to what the ones before it leave. -/
def Membership.Takes (m : Membership) : List ConfChange → Prop
  | [] => True
  | cc :: ccs => cc.Appliable m ∧ (m.apply cc).Takes ccs

/-- What the next round applies can be applied. -/
def RawNode.Appliable (decode : Bytes → Option ConfChange) (n : RawNode) : Prop :=
  ∀ es, n.raft.raftLog.nextEntries = .ok es → n.raft.members.Takes (confChanges decode es)

/-! ### Changes -/

section Changes
variable {n n' : RawNode} {cc : ConfChange} {ccs : List ConfChange}

theorem delProgress_members (r : Raft) (id : Nat) : (r.delProgress id).members =
    { voters := r.members.voters.erase id, learners := r.members.learners.erase id } := by
  simp only [Raft.members, Raft.delProgress, AssocMap.toFinset_keys_erase]

theorem keys_eq_nil_iff {m : AssocMap Nat Progress} : m.keys = [] ↔ m.keys.toFinset = ∅ :=
  (List.toFinset_eq_empty_iff _).symm

theorem Membership.apply_remove {m : Membership} (hnode : cc.nodeId ≠ 0) (hremove : cc.confChangeType = confChangeRemoveNode) :
    m.apply cc = { voters := m.voters.erase cc.nodeId, learners := m.learners.erase cc.nodeId } := by
  unfold Membership.apply
  rw [if_neg hnode, hremove, if_neg (by decide), if_neg (by decide), if_pos rfl]

/-- Exactly the changes that can be applied go through. -/
theorem applyConfChange_ok_iff (hlog : n.raft.raftLog.Servable) (hw : n.raft.Windowed) (ht : n.raft.Termless) :
    (∃ n' cs, n.applyConfChange cc = .ok (n', cs)) ↔ cc.Appliable n.raft.members := by
  unfold RawNode.applyConfChange
  by_cases hnode : cc.nodeId = 0
  · rw [if_pos hnode]
    exact ⟨fun _ => Or.inl hnode, fun _ => ⟨_, _, rfl⟩⟩
  rw [if_neg hnode]
  have hadds : ∀ b : Bool, ∃ n' cs, (do
      let raft ← n.raft.addNodeOrLearner cc.nodeId b
      let n : RawNode := { n with raft := raft }
      Except.ok (n, n.confState) : Result _) = .ok (n', cs) := by
    intro b
    obtain ⟨r', hadd⟩ := addNodeOrLearner_total n.raft cc.nodeId b
    rw [hadd]
    exact ⟨_, _, rfl⟩
  by_cases hadd : cc.confChangeType = confChangeAddNode
  · rw [if_pos hadd]
    refine ⟨fun _ => Or.inr ⟨Or.inl hadd, fun hremove => ?_⟩, fun _ => hadds false⟩
    rw [hadd] at hremove
    exact absurd hremove (by decide)
  rw [if_neg hadd]
  by_cases hlearner : cc.confChangeType = confChangeAddLearnerNode
  · rw [if_pos hlearner]
    refine ⟨fun _ => Or.inr ⟨Or.inr (Or.inr (Or.inr hlearner)), fun hremove => ?_⟩, fun _ => hadds true⟩
    rw [hlearner] at hremove
    exact absurd hremove (by decide)
  rw [if_neg hlearner]
  by_cases hremove : cc.confChangeType = confChangeRemoveNode
  · rw [if_pos hremove]
    have happly := Membership.apply_remove (m := n.raft.members) hnode hremove
    rw [← delProgress_members] at happly
    constructor
    · rintro ⟨n', cs, h⟩
      refine Or.inr ⟨Or.inr (Or.inl hremove), fun _ => ?_⟩
      rw [happly]
      by_contra hnone
      rw [not_or, not_not] at hnone
      have hprs : (n.raft.delProgress cc.nodeId).prs.keys = [] := keys_eq_nil_iff.mpr hnone.1
      rw [removeNode_voterless hprs fun hnil => hnone.2 (keys_eq_nil_iff.mp hnil)] at h
      cases h
    · rintro (hzero | ⟨-, hleft⟩)
      · exact absurd hzero hnode
      · have hleft := hleft hremove
        rw [happly] at hleft
        have hvoter : (n.raft.delProgress cc.nodeId).prs.keys ≠ [] ∨ (n.raft.delProgress cc.nodeId).learnerPrs.keys = [] :=
          hleft.imp (fun hne hnil => hne (keys_eq_nil_iff.mp hnil)) keys_eq_nil_iff.mpr
        obtain ⟨r', hr'⟩ := removeNode_ok hlog hw ht hvoter
        rw [hr']
        exact ⟨_, _, rfl⟩
  rw [if_neg hremove]
  by_cases hupdate : cc.confChangeType = confChangeUpdateNode
  · rw [if_pos hupdate]
    exact ⟨fun _ => Or.inr ⟨Or.inr (Or.inr (Or.inl hupdate)), fun h => absurd h hremove⟩, fun _ => ⟨_, _, rfl⟩⟩
  · rw [if_neg hupdate]
    constructor
    · rintro ⟨n', cs, h⟩
      cases h
    · rintro (hzero | ⟨hknown, -⟩)
      · exact absurd hzero hnode
      · rcases hknown with h | h | h | h
        · exact absurd h hadd
        · exact absurd h hremove
        · exact absurd h hupdate
        · exact absurd h hlearner

end Changes

/-! ### What a round hands out and stores -/

section Rounds
variable {s : Driver} {d : Nat}

/-- What is committed and not applied is handed out, at least an entry of it. -/
theorem Anchored.nextEntries_ok (h : Anchored s d) : ∃ es, s.log.nextEntries = .ok es ∧
    (es = [] ↔ s.log.hasNextEntries = false) := by
  have hlast := h.tail.lastIndex
  have hlt := h.tail.committed_lt
  have hok : ∃ es, s.log.nextEntries = .ok es := by
    unfold RaftLog.nextEntries
    simp only
    by_cases hnext : s.log.committed + 1 > max (s.log.applied + 1) s.log.firstIndex
    · have hfirst : s.log.firstIndex ≤ max (s.log.applied + 1) s.log.firstIndex := le_max_right _ _
      obtain ⟨es, hes⟩ := h.tail.slice_ok hfirst hnext.le (by omega) s.log.maxNextEntsSize
      rw [if_pos hnext, hes]
      exact ⟨es, rfl⟩
    · rw [if_neg hnext]
      exact ⟨[], rfl⟩
  obtain ⟨es, hes⟩ := hok
  exact ⟨es, hes, RaftLog.nextEntries_announced hes⟩

/-- Storing a `Ready` goes through: its entries go on in the storage, or behind the snapshot that is stored first. -/
theorem Anchored.persist_ok (h : Anchored s d) {rd : Ready} (hout : s.outstanding = some (rd, false))
    (hents : rd.entries = s.log.unstable.entries) (hsnap : rd.snapshot = s.log.unstable.snapshot.getD {}) :
    ∃ st, RaftEtcd.persist s.log.storage rd = .ok st := by
  obtain ⟨u, hh⟩ := h.handedOut rd false hout
  obtain ⟨st, -, hdummy, hstents, heq⟩ := persist_eq s.log.storage rd
  rw [heq]
  -- the entries do not begin beyond the end of the storage
  have hplace : s.log.unstable.offset ≤ st.lastIndex + 1 := by
    rw [MemoryStorage.lastIndex, hdummy, hstents]
    cases hs : s.log.unstable.snapshot with
    | none =>
        have hoffset := h.tail.offset_le
        have hstay : s.log.storage.withSnapshot rd.snapshot = s.log.storage := by
          rw [hsnap, hs]
          rfl
        rw [hstay]
        simpa only [RaftLog.base, hs, Option.map_none, Option.getD_none, MemoryStorage.lastIndex] using hoffset
    | some snap =>
        have hoffset := h.tail.offset_pending hs
        have hunsaved := hh.unsaved snap hs (Or.inl rfl)
        have hrd : rd.snapshot = snap := by
          rw [hsnap, hs]
          rfl
        rw [hrd]
        rcases withSnapshot_cases s.log.storage snap with ⟨hempty, -⟩ | ⟨-, ⟨hold, -⟩ | ⟨-, -, hindex, hnil⟩⟩
        · rw [Snapshot.isEmpty, beq_iff_eq] at hempty
          omega
        · omega
        · rw [hindex, hnil, hoffset]
          exact le_rfl
  have hidx : IndexedFrom s.log.unstable.offset rd.entries := hents ▸ h.delivered.unstable
  unfold MemoryStorage.append
  cases hcons : rd.entries with
  | nil => exact ⟨st, rfl⟩
  | cons e es =>
      rw [hcons] at hidx
      have hfirst : e.index = s.log.unstable.offset := hidx.cons.1
      simp only
      split
      · exact ⟨st, rfl⟩
      rename_i hlong
      have hdrop := hidx.drop (st.firstIndex - e.index)
      have hlen : ((e :: es).drop (st.firstIndex - e.index)).length = (e :: es).length - (st.firstIndex - e.index) :=
        List.length_drop
      simp only [List.length_cons] at hlen hlong
      cases hkept : (e :: es).drop (st.firstIndex - e.index) with
      | nil =>
          rw [hkept, List.length_nil] at hlen
          omega
      | cons e' es' =>
          rw [hkept] at hdrop
          have hfirst' := hdrop.cons.1
          simp only
          rw [if_pos ?_]
          · exact ⟨_, rfl⟩
          · simp only [MemoryStorage.lastIndex, MemoryStorage.firstIndex] at hplace hfirst' ⊢
            omega

end Rounds

/-! ### A round -/

/-- A node that nothing is out of, with a snapshot of what its storage has compacted. -/
structure RawNode.Drainable (n : RawNode) (d : Nat) : Prop where
  healthy : Driver.Healthy { node := n } d
  kept : n.raft.raftLog.storage.dummy.index ≤ n.raft.raftLog.storage.snapshot.metadata.index

/-- A node whose `Ready` is stored and not advanced yet. -/
structure RawNode.MidRound (rd : Ready) (n : RawNode) (d : Nat) : Prop where
  healthy : Driver.Healthy { node := n, outstanding := some (rd, true) } d
  kept : n.raft.raftLog.storage.dummy.index ≤ n.raft.raftLog.storage.snapshot.metadata.index

namespace RawNode
variable {n n' : RawNode} {rd : Ready} {d : Nat} {cc : ConfChange} {ccs : List ConfChange}

theorem MidRound.apply (h : n.MidRound rd d) {cs : ConfState} (happly : n.applyConfChange cc = .ok (n', cs)) :
    n'.MidRound rd d ∧ n'.raft.raftLog.unstable = n.raft.raftLog.unstable := by
  have hrun : n.run (.applyConfChange cc) = .ok n' := by
    change Prod.fst <$> n.applyConfChange cc = _
    rw [happly]
    rfl
  have hstorage := (applyConfChange_advances (W := True) happly).log.storage
  refine ⟨⟨h.healthy.call (a := .applyConfChange cc) trivial hrun, ?_⟩, applyConfChange_unstable happly⟩
  rw [hstorage]
  exact h.kept

theorem MidRound.applyAll (h : n.MidRound rd d) {css : List ConfState} (happly : n.applyConfChanges ccs = .ok (n', css)) :
    n'.MidRound rd d ∧ n'.raft.raftLog.unstable = n.raft.raftLog.unstable := by
  induction ccs generalizing n css with
  | nil =>
      obtain ⟨rfl, rfl⟩ := Prod.mk.inj (Except.ok.inj happly)
      exact ⟨h, rfl⟩
  | cons cc ccs ih =>
      obtain ⟨⟨n₁, cs⟩, h₁, happly⟩ := bind_ok happly
      obtain ⟨⟨n₂, css'⟩, h₂, happly⟩ := bind_ok happly
      obtain ⟨rfl, rfl⟩ := Prod.mk.inj (Except.ok.inj happly)
      obtain ⟨hmid, hsame⟩ := h.apply h₁
      obtain ⟨hmid', hsame'⟩ := ih hmid h₂
      exact ⟨hmid', hsame'.trans hsame⟩

/-- Exactly the sequences of changes that can be applied go through. -/
theorem MidRound.applyAll_ok_iff (h : n.MidRound rd d) :
    (∃ n' css, n.applyConfChanges ccs = .ok (n', css)) ↔ n.raft.members.Takes ccs := by
  induction ccs generalizing n with
  | nil => exact ⟨fun _ => trivial, fun _ => ⟨n, [], rfl⟩⟩
  | cons cc ccs ih =>
      have hfirst : (∃ n₁ cs, n.applyConfChange cc = .ok (n₁, cs)) ↔ cc.Appliable n.raft.members :=
        applyConfChange_ok_iff (h.healthy.servable h.kept) h.healthy.windowed h.healthy.termless
      have hmembers : ∀ {n₁ cs}, n.applyConfChange cc = .ok (n₁, cs) → n₁.raft.members = n.raft.members.apply cc :=
        fun happly => ((applyConfChange_configures happly).1.refines h.healthy.configured).2
      constructor
      · rintro ⟨n', css, happly⟩
        obtain ⟨⟨n₁, cs⟩, h₁, happly⟩ := bind_ok happly
        obtain ⟨⟨n₂, css'⟩, h₂, -⟩ := bind_ok happly
        refine ⟨hfirst.mp ⟨n₁, cs, h₁⟩, ?_⟩
        rw [← hmembers h₁]
        exact (ih (h.apply h₁).1).mp ⟨n₂, css', h₂⟩
      · rintro ⟨hcc, hccs⟩
        obtain ⟨n₁, cs, h₁⟩ := hfirst.mpr hcc
        rw [← hmembers h₁] at hccs
        obtain ⟨n₂, css, h₂⟩ := (ih (h.apply h₁).1).mpr hccs
        refine ⟨n₂, cs :: css, ?_⟩
        rw [applyConfChanges, h₁]
        change n₁.applyConfChanges ccs >>= _ = _
        rw [h₂]
        rfl

/-- The node once its `Ready` is stored. -/
def stored (n : RawNode) (st : MemoryStorage) : RawNode :=
  { n with raft := { n.raft with raftLog := { n.raft.raftLog with storage := st } } }

/-- Taking and storing a `Ready` never fails. -/
theorem Drainable.begin (h : n.Drainable d) : ∃ rd n₁ st, n.ready = .ok (rd, n₁) ∧
    persist n₁.raft.raftLog.storage rd = .ok st ∧ (n₁.stored st).MidRound rd (rd.reaches d) := by
  obtain ⟨es, hnext, -⟩ := h.healthy.anchored.nextEntries_ok
  have hnext' : n.raft.raftLog.nextEntries = .ok es := hnext
  have hready : ∃ rd n₁, n.ready = .ok (rd, n₁) := by
    unfold RawNode.ready Ready.new
    rw [hnext']
    exact ⟨_, _, rfl⟩
  obtain ⟨rd, n₁, hrd⟩ := hready
  obtain ⟨-, hents, hsnap, hlog⟩ := ready_spec hrd
  have h₁ := h.healthy.ready rfl hrd
  obtain ⟨st, hst⟩ := h₁.anchored.persist_ok rfl (hents.trans (congrArg (·.unstable.entries) hlog.symm))
    (hsnap.trans (congrArg (fun l : RaftLog => l.unstable.snapshot.getD {}) hlog.symm))
  have hst' : persist n₁.raft.raftLog.storage rd = .ok st := hst
  have h₂ := h₁.setStorage (h₁.anchored.persist rfl hst)
  refine ⟨rd, n₁, st, hrd, hst', ⟨⟨h₂.anchored.of_log rfl rfl, h₂.windowed, h₂.termless, h₂.configured⟩, ?_⟩⟩
  -- what a snapshot replaces it stands for
  have hidx : IndexedFrom n₁.raft.raftLog.unstable.offset rd.entries := by
    rw [hents, hlog]
    exact h.healthy.anchored.delivered.unstable
  obtain ⟨hsnapshot, -, -⟩ := persist_stores hidx hst'
  have hdummy : st.dummy.index = n₁.raft.raftLog.storage.dummy.index ∨
      st.dummy.index = rd.snapshot.metadata.index ∧ rd.snapshot.isEmpty = false :=
    (persist_numbered h₁.anchored.delivered.stored hidx hst').2
  have hkept : n₁.raft.raftLog.storage.dummy.index ≤ n₁.raft.raftLog.storage.snapshot.metadata.index := by
    rw [hlog]
    exact h.kept
  change st.dummy.index ≤ st.snapshot.metadata.index
  rw [hsnapshot]
  rcases withSnapshot_cases n₁.raft.raftLog.storage rd.snapshot with ⟨hempty, heq⟩ | ⟨-, ⟨hold, heq⟩ | ⟨hnew, heq, -⟩⟩
  · rw [heq, hdummy.resolve_right fun hfull => by rw [hempty] at hfull; cases hfull.2]
    exact hkept
  · rw [heq]
    omega
  · rw [heq]
    omega

/-- Nothing that was stored is unstable any more. -/
theorem MidRound.advance (h : n.MidRound rd d) (hents : rd.entries = n.raft.raftLog.unstable.entries)
    (hsnap : rd.snapshot = n.raft.raftLog.unstable.snapshot.getD {}) :
    (n.advance rd).Drainable d ∧ (n.advance rd).raft.raftLog.unstable.reach = n.raft.raftLog.unstable.reach ∧
      (n.advance rd).raft.raftLog.unstable.snapshot = none ∧ (n.advance rd).raft.raftLog.unstable.entries = [] := by
  have hsame : ∀ snap, n.raft.raftLog.unstable.snapshot = some snap → rd.snapshot = snap := by
    intro snap hs
    rw [hsnap, hs]
    rfl
  have hpos : ∀ snap, n.raft.raftLog.unstable.snapshot = some snap → snap.metadata.index ≠ 0 := by
    intro snap hs
    have := Driver.pending_pos h.healthy.anchored hs
    omega
  have hmay : Driver.MayAdvance { node := n, outstanding := some (rd, true) } rd := by
    intro snap e hs hne _
    exact absurd (congrArg (·.metadata.index) (hsame snap hs)).symm hne
  have hadvance := h.healthy.advance rfl hmay .refl
  obtain ⟨hstorage, -⟩ := advanceLog_leaves (l := n.raft.raftLog) rd hpos
  refine ⟨⟨hadvance, ?_⟩, advanceLog_reach rd hpos, advanceLog_empties h.healthy.anchored.delivered.unstable hents hsnap hpos⟩
  change (advanceLog n.raft.raftLog rd).storage.dummy.index ≤ (advanceLog n.raft.raftLog rd).storage.snapshot.metadata.index
  rw [hstorage]
  exact h.kept

/-- A pending snapshot is ahead of what was delivered, and a `Ready` starts there. -/
theorem Drainable.start (h : n.Drainable d) {n₁ : RawNode} (hrd : n.ready = .ok (rd, n₁)) :
    d ≤ rd.start d ∧ (n.raft.raftLog.hasNextEntries = false → n.raft.raftLog.committed ≤ rd.start d) := by
  obtain ⟨-, -, hsnap, -⟩ := ready_spec hrd
  have hdel := h.healthy.anchored.delivered
  have happlied : n.raft.raftLog.applied ≤ d := hdel.applied_le
  have hdummy : n.raft.raftLog.storage.dummy.index ≤ d := hdel.dummy_le
  have hnone : n.raft.raftLog.hasNextEntries = false →
      n.raft.raftLog.committed + 1 ≤ max (n.raft.raftLog.applied + 1) n.raft.raftLog.firstIndex := by
    intro hfalse
    exact Nat.not_lt.mp (of_decide_eq_false hfalse)
  unfold Ready.start
  cases hs : n.raft.raftLog.unstable.snapshot with
  | none =>
      have hempty : rd.snapshot.isEmpty = true := by
        rw [hsnap, hs]
        rfl
      rw [if_pos hempty]
      refine ⟨le_rfl, fun hfalse => ?_⟩
      have hle := hnone hfalse
      simp only [RaftLog.firstIndex, Unstable.maybeFirstIndex, hs, Option.map_none, MemoryStorage.firstIndex] at hle
      omega
  | some snap =>
      have hlt : d < snap.metadata.index := ((hdel.waiting rfl).pending snap hs).1
      have hrd : rd.snapshot = snap := by
        rw [hsnap, hs]
        rfl
      have hfull : rd.snapshot.isEmpty = false := by
        rw [hrd, Snapshot.isEmpty, beq_eq_false_iff_ne]
        omega
      rw [if_neg (by rw [hfull]; decide), hrd]
      refine ⟨hlt.le, fun hfalse => ?_⟩
      have hle := hnone hfalse
      simp only [RaftLog.firstIndex, Unstable.maybeFirstIndex, hs, Option.map_some] at hle
      omega

/-- A round that hands out nothing to apply leaves nothing ready. -/
theorem nothing_ready {n₁ : RawNode} {st : MemoryStorage} (hrd : n.ready = .ok (rd, n₁))
    (hsnap : ((n₁.stored st).advance rd).raft.raftLog.unstable.snapshot = none)
    (hents : ((n₁.stored st).advance rd).raft.raftLog.unstable.entries = [])
    (hnext : ((n₁.stored st).advance rd).raft.raftLog.hasNextEntries = false) :
    ((n₁.stored st).advance rd).hasReady = false := by
  have hcommitted : ((n₁.stored st).advance rd).raft.raftLog.committed = n.raft.raftLog.committed := by
    refine (advanceLog_committed _ rd).trans ?_
    change n₁.raft.raftLog.committed = _
    rw [(ready_keeps hrd).raftLog]
  obtain ⟨rd₁, hnew, hready⟩ := bind_ok hrd
  obtain ⟨hrd₁, hn₁⟩ := Prod.mk.inj (Except.ok.inj hready)
  rw [hrd₁] at hnew
  obtain ⟨es, -, hnew⟩ := bind_ok hnew
  have hfields : rd.softState = (if n.raft.softState ≠ n.prevSoftState then some n.raft.softState else none) ∧
      rd.hardState = (if n.raft.hardState ≠ n.prevHardState then n.raft.hardState else {}) ∧
      rd.readState = n.raft.readStates := by
    rw [← Except.ok.inj hnew]
    exact ⟨rfl, rfl, rfl⟩
  obtain ⟨hsoftReady, hhardReady, hreadReady⟩ := hfields
  -- the node itself, but for its log
  have hself : n₁.raft.softState = n.raft.softState ∧ n₁.raft.term = n.raft.term ∧ n₁.raft.vote = n.raft.vote ∧
      n₁.raft.msgs = [] ∧ n₁.raft.readStates = n.raft.readStates ∧ n₁.prevSoftState = n.prevSoftState ∧
      n₁.prevHardState = n.prevHardState := by
    rw [ready_frame hrd]
    exact ⟨rfl, rfl, rfl, rfl, rfl, rfl, rfl⟩
  obtain ⟨hsoft, hterm, hvote, hmsgs, hreads, hprevSoft, hprevHard⟩ := hself
  have hsoft' : ((n₁.stored st).advance rd).raft.softState = ((n₁.stored st).advance rd).prevSoftState := by
    change n₁.raft.softState = rd.softState.getD n₁.prevSoftState
    rw [hsoft, hprevSoft, hsoftReady]
    split
    · rfl
    · rename_i hsame
      exact not_not.mp hsame
  have hhard : ((n₁.stored st).advance rd).raft.hardState = n.raft.hardState := by
    change ({ term := n₁.raft.term, vote := n₁.raft.vote, commit := _ } : HardState) =
      { term := n.raft.term, vote := n.raft.vote, commit := n.raft.raftLog.committed }
    rw [hterm, hvote, hcommitted]
  have hhard' : n.raft.hardState.isEmptyState = false → ((n₁.stored st).advance rd).prevHardState = n.raft.hardState := by
    intro hfull
    change (if !rd.hardState.isEmptyState then rd.hardState else n₁.prevHardState) = n.raft.hardState
    rw [hhardReady, hprevHard]
    by_cases hsame : n.raft.hardState = n.prevHardState
    · simp only [hsame, ne_eq, not_true_eq_false, if_false]
      rfl
    · simp only [hsame, ne_eq, not_false_eq_true, if_true, hfull, Bool.not_false]
  have hreads' : ((n₁.stored st).advance rd).raft.readStates = [] := by
    change (if rd.readState ≠ [] then [] else n₁.raft.readStates) = []
    rw [hreads, hreadReady]
    split
    · rfl
    · rename_i hnil
      exact not_not.mp hnil
  have hmsgs' : ((n₁.stored st).advance rd).raft.msgs = [] := hmsgs
  unfold RawNode.hasReady
  simp only [hsoft', hhard, hsnap, hents, hnext, hreads', hmsgs', ne_eq, not_true_eq_false, decide_false, List.isEmpty_nil,
    Bool.not_true, Bool.or_false, Bool.false_or]
  cases hfull : n.raft.hardState.isEmptyState with
  | true => rfl
  | false => simp [hhard' hfull]

variable (decode : Bytes → Option ConfChange)

/-- A round goes through exactly if its changes can be applied. It never takes the log back, and gets ahead
with what it delivers as long as something is ready after it. -/
theorem Drainable.round (h : n.Drainable d) : ((∃ n', n.drainRound decode = .ok n') ↔ n.Appliable decode) ∧
    ∀ n', n.drainRound decode = .ok n' → ∃ d', n'.Drainable d' ∧
      n'.raft.raftLog.unstable.reach = n.raft.raftLog.unstable.reach ∧ d ≤ d' ∧ (n'.hasReady = true → d < d') := by
  obtain ⟨rd, n₁, st, hrd, hst, hmid⟩ := h.begin
  obtain ⟨hnext, hents, hsnap, hlog⟩ := ready_spec hrd
  obtain ⟨hstart, hnothing⟩ := h.start hrd
  have hround : n.drainRound decode = (do
      let (n, _) ← (n₁.stored st).applyConfChanges (confChanges decode rd.committedEntries)
      Except.ok (n.advance rd)) := by
    unfold RawNode.drainRound
    rw [hrd]
    change persist n₁.raft.raftLog.storage rd >>= _ = _
    rw [hst]
    rfl
  have hmembers : (n₁.stored st).raft.members = n.raft.members := by
    rw [ready_frame hrd]
    rfl
  rw [hround]
  constructor
  · have hall : (∃ n' css, _ = Except.ok (n', css)) ↔ _ := @hmid.applyAll_ok_iff _ _ _ (confChanges decode rd.committedEntries)
    rw [hmembers] at hall
    constructor
    · rintro ⟨n', h'⟩
      obtain ⟨⟨n₂, css⟩, h₂, -⟩ := bind_ok h'
      intro es hes
      obtain rfl := Except.ok.inj (hnext.symm.trans hes)
      exact hall.mp ⟨n₂, css, h₂⟩
    · intro happliable
      obtain ⟨n₂, css, h₂⟩ := hall.mpr (happliable _ hnext)
      rw [h₂]
      exact ⟨_, rfl⟩
  · intro n' h'
    obtain ⟨⟨n₂, css⟩, h₂, h'⟩ := bind_ok h'
    obtain rfl := Except.ok.inj h'
    obtain ⟨hmid₂, hunstable⟩ := hmid.applyAll h₂
    have hstored : (n₁.stored st).raft.raftLog.unstable = n.raft.raftLog.unstable := by
      change n₁.raft.raftLog.unstable = _
      rw [hlog]
    rw [hstored] at hunstable
    obtain ⟨hdrain, hreach, hnone, hnil⟩ := hmid₂.advance (hents.trans (congrArg _ hunstable.symm))
      (hsnap.trans (congrArg (fun u : Unstable => u.snapshot.getD {}) hunstable.symm))
    refine ⟨rd.reaches d, hdrain, hreach.trans (congrArg _ hunstable), Nat.le_add_right_of_le hstart, fun hready => ?_⟩
    by_contra hstuck
    rw [Ready.reaches] at hstuck hdrain
    have hempty : rd.committedEntries = [] := List.eq_nil_of_length_eq_zero (by omega)
    -- with nothing to apply the node is the stored one, and everything committed is delivered
    rw [hempty] at h₂
    obtain rfl := (Prod.mk.inj (Except.ok.inj h₂)).1
    obtain ⟨es, hes, hiff⟩ := h.healthy.anchored.nextEntries_ok
    have hes' : n.raft.raftLog.nextEntries = .ok es := hes
    obtain rfl := Except.ok.inj (hnext.symm.trans hes')
    have hcommitted := hnothing (hiff.mp hempty)
    have hnextFalse : ((n₁.stored st).advance rd).raft.raftLog.hasNextEntries = false := by
      have hahead : rd.start d + rd.committedEntries.length ≤ _ := (hdrain.healthy.anchored.delivered.waiting rfl).ahead
      have hsame : ((n₁.stored st).advance rd).raft.raftLog.committed = n.raft.raftLog.committed := by
        refine (advanceLog_committed _ rd).trans ?_
        change n₁.raft.raftLog.committed = _
        rw [hlog]
      unfold RaftLog.hasNextEntries
      refine decide_eq_false ?_
      simp only [RaftLog.firstIndex, Unstable.maybeFirstIndex, hnone, Option.map_none, MemoryStorage.firstIndex, hsame]
      simp only [Driver.log] at hahead
      omega
    rw [nothing_ready hrd hnone hnil hnextFalse] at hready
    cases hready

/-! ### The loop -/

theorem drain_done (h : n.hasReady = false) (k : Nat) : n.drain decode k = .ok n := by
  cases k with
  | zero => rfl
  | succ k => rw [drain, if_neg (by rw [h]; decide)]

theorem drain_add (j k : Nat) (n : RawNode) : n.drain decode (j + k) = n.drain decode j >>= drain decode k := by
  induction j generalizing n with
  | zero =>
      rw [Nat.zero_add]
      rfl
  | succ j ih =>
      rw [Nat.succ_add, drain, drain]
      split
      · cases n.drainRound decode with
        | error e => rfl
        | ok n₁ => exact ih n₁
      · rename_i hdone
        exact (drain_done decode (by simpa using hdone) k).symm

/-- After finitely many rounds nothing is ready. -/
def Drains (n : RawNode) : Prop := ∃ k n', n.drain decode k = .ok n' ∧ n'.hasReady = false

variable {decode}

theorem Drainable.drain (h : n.Drainable d) {k : Nat} (hdrain : n.drain decode k = .ok n') : ∃ d', n'.Drainable d' := by
  induction k generalizing n d with
  | zero =>
      obtain rfl := Except.ok.inj hdrain
      exact ⟨d, h⟩
  | succ k ih =>
      rw [RawNode.drain] at hdrain
      split at hdrain
      · obtain ⟨n₁, h₁, hdrain⟩ := bind_ok hdrain
        obtain ⟨d₁, hn₁, -⟩ := (h.round decode).2 n₁ h₁
        exact ih hn₁ hdrain
      · obtain rfl := Except.ok.inj hdrain
        exact ⟨d, h⟩

/-- What is not delivered yet bounds the number of rounds. -/
theorem Drainable.drains (h : n.Drainable d)
    (happliable : ∀ k n', n.drain decode k = .ok n' → n'.hasReady = true → n'.Appliable decode) : n.Drains decode := by
  obtain ⟨m, hm⟩ : ∃ m, n.raft.raftLog.unstable.reach ≤ d + m := ⟨_, Nat.le_add_left _ _⟩
  induction m generalizing n d with
  | zero =>
      have hcom : d ≤ n.raft.raftLog.committed := h.healthy.anchored.delivered.le_committed
      have hlt : n.raft.raftLog.committed < n.raft.raftLog.unstable.reach := h.healthy.anchored.tail.committed_lt
      omega
  | succ m ih =>
      cases hready : n.hasReady with
      | false => exact ⟨0, n, rfl, hready⟩
      | true =>
          obtain ⟨hround, hnext⟩ := h.round decode
          obtain ⟨n₁, h₁⟩ := hround.mpr (happliable 0 n rfl hready)
          obtain ⟨d₁, hn₁, hreach, hle, hahead⟩ := hnext n₁ h₁
          have hfirst : ∀ k, n.drain decode (k + 1) = n₁.drain decode k := by
            intro k
            rw [RawNode.drain, if_pos hready, h₁]
            rfl
          cases hready₁ : n₁.hasReady with
          | false => exact ⟨1, n₁, hfirst 0, hready₁⟩
          | true =>
              have hlt := hahead hready₁
              obtain ⟨k, n', hdrain, hdone⟩ := ih hn₁ (fun k n' hk => happliable (k + 1) n' ((hfirst k).trans hk))
                (by omega)
              exact ⟨k + 1, n', (hfirst k).trans hdrain, hdone⟩

/-- A loop that ends has applied every change that came up. -/
theorem Drainable.appliable (h : n.Drainable d) (hdrains : n.Drains decode) {j : Nat} (hdrain : n.drain decode j = .ok n')
    (hready : n'.hasReady = true) : n'.Appliable decode := by
  obtain ⟨k, n₀, hk, hdone⟩ := hdrains
  -- the loop has not ended yet
  have hlt : j < k := by
    by_contra hge
    obtain ⟨i, rfl⟩ := Nat.exists_eq_add_of_le (Nat.not_lt.mp hge)
    rw [drain_add, hk] at hdrain
    obtain rfl := Except.ok.inj ((drain_done decode hdone i).symm.trans hdrain)
    rw [hdone] at hready
    cases hready
  obtain ⟨i, rfl⟩ := Nat.exists_eq_add_of_lt hlt
  rw [Nat.add_assoc, drain_add, hdrain] at hk
  change n'.drain decode (i + 1) = .ok n₀ at hk
  rw [RawNode.drain, if_pos hready] at hk
  obtain ⟨n₁, h₁, -⟩ := bind_ok hk
  obtain ⟨d', hn'⟩ := h.drain hdrain
  exact (hn'.round decode).1.mp ⟨n₁, h₁⟩

end RawNode

section Runs
variable {c : Config} {n₀ : RawNode} {s : Driver} {decode : Bytes → Option ConfChange}

/-- In every run of a node, once nothing is out, the loop comes to an end exactly if each change that comes up
in one of its rounds can be applied. -/
theorem draining_terminates_iff (hc : c.Sound) (hmax : c.maxInflightMsgs % 2 ^ 32 ≤ 2 ^ 31)
    (hstart : RawNode.restartNode c = .ok n₀ ∨ ∃ serialize peers, RawNode.startNode serialize c peers = .ok n₀)
    (hs : Driver.Moves { node := n₀ } s) (hout : s.outstanding = none)
    (hkept : s.log.storage.dummy.index ≤ s.log.storage.snapshot.metadata.index) :
    s.node.Drains decode ↔
      ∀ k n, s.node.drain decode k = .ok n → n.hasReady = true → n.Appliable decode := by
  obtain ⟨d₀, h₀⟩ := Driver.started_healthy hc hmax hstart
  obtain ⟨d, h⟩ := h₀.moves hs
  have hn : s.node.Drainable d := ⟨⟨h.anchored.of_log rfl hout.symm, h.windowed, h.termless, h.configured⟩, hkept⟩
  exact ⟨fun hdrains k n hk hready => hn.appliable hdrains hk hready, fun happliable => hn.drains happliable⟩

/-- A voter with a learner. -/
def voterWithLearner : Config := { loneVoter with learners := [2] }

theorem voterWithLearner_sound : voterWithLearner.Sound where
  stored := .nil _
  snapshot_le := le_rfl
  applied_ge := Or.inl rfl
  applied_le := Nat.zero_le _

/-- The voter elects itself and proposes a change. -/
def proposeChange (cc : ConfChange) : Result (RawNode × RawNode) := do
  let n₀ ← RawNode.restartNode voterWithLearner
  let n₁ ← n₀.run .campaign
  let n ← n₁.run (.proposeConfChange (messagePack.pack cc.toObj))
  .ok (n₀, n)

theorem proposeChange_moves {cc : ConfChange} {n : RawNode} (h : proposeChange cc = .ok (n₀, n)) :
    RawNode.restartNode voterWithLearner = .ok n₀ ∧ Driver.Moves { node := n₀ } { node := n } := by
  obtain ⟨a₀, h₀, h⟩ := bind_ok h
  obtain ⟨a₁, h₁, h⟩ := bind_ok h
  obtain ⟨a, h₂, h⟩ := bind_ok h
  obtain ⟨rfl, rfl⟩ := Prod.mk.inj (Except.ok.inj h)
  exact ⟨h₀, .head (.call (a := .campaign) trivial h₁) (.head (.call (a := .proposeConfChange _) trivial h₂) .refl)⟩

/-- The learner becomes a voter. -/
theorem draining_terminates_iff_promotion : ∃ n₀ n, RawNode.restartNode voterWithLearner = .ok n₀ ∧
    Driver.Moves { node := n₀ } { node := n } ∧ n.hasReady = true ∧
    n.Drains (RaftNode.decodeConfChange messagePack) ∧
    ∀ k n', n.drain (RaftNode.decodeConfChange messagePack) k = .ok n' → n'.hasReady = true →
      n'.Appliable (RaftNode.decodeConfChange messagePack) := by
  obtain ⟨⟨⟨n₀, n⟩, n'⟩, hrun, hcheck⟩ := exists_ok_of_any
    (x := do
      let p ← proposeChange { confChangeType := confChangeAddNode, nodeId := 2 }
      let n' ← p.2.drain (RaftNode.decodeConfChange messagePack) 1
      .ok (p, n'))
    (p := fun ((_, n), n') => decide (n.hasReady = true ∧ n'.hasReady = false ∧ n.raft.raftLog.storage.dummy.index ≤
      n.raft.raftLog.storage.snapshot.metadata.index)) (by decide +kernel)
  obtain ⟨hready, hdone, hkept⟩ := of_decide_eq_true hcheck
  obtain ⟨p, hp, hrun⟩ := bind_ok hrun
  obtain ⟨a, ha, hrun⟩ := bind_ok hrun
  obtain ⟨rfl, rfl⟩ := Prod.mk.inj (Except.ok.inj hrun)
  obtain ⟨hstart, hmoves⟩ := proposeChange_moves hp
  have hdrains : n.Drains (RaftNode.decodeConfChange messagePack) := ⟨1, a, ha, hdone⟩
  exact ⟨n₀, n, hstart, hmoves, hready, hdrains,
    (draining_terminates_iff voterWithLearner_sound (by decide) (Or.inl hstart) hmoves rfl hkept).mp hdrains⟩

/-- Removing the only voter while the learner stays: the round that applies the change never ends, since
`maybe_commit` looks for a quorum among no voters. -/
theorem draining_stuck_voterless : ∃ n₀ n, RawNode.restartNode voterWithLearner = .ok n₀ ∧
    Driver.Moves { node := n₀ } { node := n } ∧ n.hasReady = true ∧
    n.raft.raftLog.storage.dummy.index ≤ n.raft.raftLog.storage.snapshot.metadata.index ∧
    n.drainRound (RaftNode.decodeConfChange messagePack) =
      .error "match_buf_[match_buf_.size() - quorum()] out of range" ∧
    ¬ n.Drains (RaftNode.decodeConfChange messagePack) := by
  obtain ⟨⟨n₀, n⟩, hrun, hcheck⟩ := exists_ok_of_any
    (x := proposeChange { confChangeType := confChangeRemoveNode, nodeId := 1 })
    (p := fun (_, n) => decide (n.hasReady = true ∧ n.raft.raftLog.storage.dummy.index ≤
      n.raft.raftLog.storage.snapshot.metadata.index) &&
      failsWith "match_buf_[match_buf_.size() - quorum()] out of range"
        (n.drainRound (RaftNode.decodeConfChange messagePack))) (by decide +kernel)
  obtain ⟨hcheck, hround⟩ := Bool.and_eq_true_iff.mp hcheck
  obtain ⟨hready, hkept⟩ := of_decide_eq_true hcheck
  obtain ⟨hstart, hmoves⟩ := proposeChange_moves hrun
  have hround : n.drainRound (RaftNode.decodeConfChange messagePack) =
      .error "match_buf_[match_buf_.size() - quorum()] out of range" := eq_error_of_failsWith hround
  refine ⟨n₀, n, hstart, hmoves, hready, hkept, hround, ?_⟩
  rintro ⟨k, n', hdrain, hdone⟩
  cases k with
  | zero =>
      obtain rfl := Except.ok.inj hdrain
      rw [hready] at hdone
      cases hdone
  | succ k =>
      rw [RawNode.drain, if_pos hready, hround] at hdrain
      cases hdrain

end Runs

end RaftEtcd
