import RaftEtcd.Refine.Run

/-! What a node finds in its storage when it starts, and what a `Ready` leaves there. -/
namespace RaftEtcd
open Consensus
variable {cfg : ClusterConfig}

/-- What holds of every storage: it was never compacted and holds no snapshot. -/
structure StoreGood (st : MemoryStorage) : Prop where
  dummy_index : st.dummy.index = 0
  dummy_term : st.dummy.term = 0
  snapshot : st.snapshot = {}
  indexed : IndexedFrom 1 st.ents
  vote_zero : st.hardState.term = 0 → st.hardState.vote = 0

theorem StoreGood.fresh : StoreGood {} := ⟨rfl, rfl, rfl, .nil 1, fun _ => rfl⟩

def absDisk (st : MemoryStorage) : Disk Nat Entry :=
  ⟨st.hardState.term, absVote st.hardState.vote, st.ents, st.hardState.commit⟩

theorem HardState.eq_of_isEmptyState {hs : HardState} (h : hs.isEmptyState = true) : hs = {} := by
  obtain ⟨t, v, c⟩ := hs
  simp only [isEmptyState, Bool.and_eq_true, beq_iff_eq] at h
  obtain ⟨⟨rfl, rfl⟩, rfl⟩ := h
  rfl

section Restart

/-- Learners are only added to the learners. -/
theorem addLearners_spec {r r' : Raft} (ls : List Nat) (h : r.addLearners ls = .ok r') :
    ∃ lprs lr, r' = { r with learnerPrs := lprs, isLearner := lr } ∧
      (∀ id ∈ lprs.keys, id ∈ r.learnerPrs.keys ∨ id ∈ ls) ∧ (r.id ∈ ls → lr = true) ∧
      (r.isLearner = true → lr = true) := by
  induction ls generalizing r with
  | nil =>
      obtain rfl := Except.ok.inj h
      exact ⟨r.learnerPrs, r.isLearner, rfl, fun _ hid => Or.inl hid, nofun, fun hl => hl⟩
  | cons l ls ih =>
      unfold Raft.addLearners at h
      rw [List.foldlM_cons] at h
      obtain ⟨r₁, h₁, h⟩ := bind_ok h
      split at h₁
      · cases h₁
      obtain rfl := Except.ok.inj h₁
      obtain ⟨lprs, lr, rfl, hkeys, hself, hkeep⟩ := ih h
      refine ⟨lprs, lr, rfl, ?_, ?_, ?_⟩
      · intro id hid
        rcases hkeys id hid with hid | hid
        · rcases List.mem_cons.mp ((AList.keys_insert (a := l) ..) ▸ hid) with rfl | hid
          · exact Or.inr (List.mem_cons_self ..)
          · exact Or.inl (List.mem_of_mem_erase hid)
        · exact Or.inr (List.mem_cons_of_mem _ hid)
      · intro hid
        rcases List.mem_cons.mp hid with rfl | hid
        · exact hkeep (by simp)
        · exact hself hid
      · intro hl
        exact hkeep (by simp [hl])

/-- A log over a storage, before anything is added to it. -/
theorem RaftLog.new_whole {st : MemoryStorage} (hst : StoreGood st) (size a : Nat) {c : Nat} (hc : c ≤ st.ents.length) :
    ({ RaftLog.new st size with committed := c, applied := a } : RaftLog).Whole ∧
      ({ RaftLog.new st size with committed := c, applied := a } : RaftLog).log = st.ents := by
  have hlog : ({ RaftLog.new st size with committed := c, applied := a } : RaftLog).log = st.ents := by
    rw [RaftLog.log]
    simp [RaftLog.new, MemoryStorage.lastIndex, MemoryStorage.firstIndex, hst.dummy_index]
  refine ⟨⟨hst.dummy_index, hst.dummy_term, hst.snapshot, rfl, ?_, ?_, ?_, hst.indexed, ?_, ?_⟩, hlog⟩
  · simp [RaftLog.new]
  · simp [RaftLog.new, MemoryStorage.lastIndex, hst.dummy_index]
  · simp [RaftLog.new, MemoryStorage.lastIndex, hst.dummy_index]
  · rw [hlog]
    exact hst.indexed
  · rw [hlog]
    exact hc

/-- The hard state is taken over, or it is empty and there is nothing to take over. -/
theorem loadState_spec {r r' : Raft} {hs : HardState} (hw : r.raftLog.committed = 0) (ht : r.term = 0) (hv : r.vote = 0)
    (h : (if !hs.isEmptyState then r.loadState hs else .ok r) = .ok r') :
    hs.commit ≤ r.raftLog.lastIndex ∧
      r' = { r with raftLog := { r.raftLog with committed := hs.commit }, term := hs.term, vote := hs.vote } := by
  split at h
  · unfold Raft.loadState at h
    split at h
    · cases h
    · rename_i hrange
      obtain rfl := Except.ok.inj h
      exact ⟨by omega, rfl⟩
  · rename_i hne
    obtain rfl : hs = {} := HardState.eq_of_isEmptyState (by simpa using hne)
    have hr : r = { r with
        raftLog := { r.raftLog with committed := r.raftLog.committed }
        term := r.term
        vote := r.vote } := rfl
    rw [hw, ht, hv] at hr
    rw [← Except.ok.inj h]
    exact ⟨Nat.zero_le _, hr⟩

theorem appliedTo_spec (r : Raft) (i : Nat) :
    ∃ a, (if i > 0 then { r with raftLog := r.raftLog.appliedTo i } else r) =
      { r with raftLog := { r.raftLog with applied := a } } := by
  split
  · rename_i hi
    exact ⟨i, by rw [RaftLog.appliedTo, if_neg (by omega)]⟩
  · exact ⟨r.raftLog.applied, rfl⟩

/-- A node as it comes up: a follower that knows what its storage holds. -/
theorem new_spec {st : MemoryStorage} {n applied : Nat} {draws : Nat → Nat} {r : Raft} (hst : StoreGood st)
    (hn : n ∈ cfg.members) (h : Raft.new (cfg.config n st applied draws) = .ok r) :
    Good cfg r ∧ r.id = n ∧ r.raftLog.storage = st ∧ r.hardState = st.hardState ∧ r.abs = (absDisk st).node := by
  unfold Raft.new at h
  obtain ⟨⟨peers, learners⟩, hpeers, h⟩ := bind_ok h
  obtain ⟨r₁, h₁, h⟩ := bind_ok h
  obtain ⟨r₂, h₂, h⟩ := bind_ok h
  obtain ⟨a, happ⟩ := appliedTo_spec r₂ (cfg.config n st applied draws).applied
  obtain rfl := Except.ok.inj h
  rw [happ]
  have hinit : peers = cfg.voters ∧ learners = cfg.learners := by
    rw [Raft.initialPeers, ClusterConfig.config] at hpeers
    simp only [hst.snapshot] at hpeers
    have heq := Except.ok.inj hpeers
    exact ⟨(Prod.mk.inj heq).1.symm, (Prod.mk.inj heq).2.symm⟩
  obtain ⟨rfl, rfl⟩ := hinit
  obtain ⟨lprs, lr, rfl, hlkeys, hself, -⟩ := addLearners_spec _ h₁
  obtain ⟨hc, hr₂⟩ := loadState_spec (by simp [RaftLog.new, ClusterConfig.config, MemoryStorage.firstIndex,
    hst.dummy_index]) rfl rfl h₂
  have hlen : st.hardState.commit ≤ st.ents.length := by
    simpa [RaftLog.new, RaftLog.lastIndex, Unstable.maybeLastIndex, MemoryStorage.lastIndex, hst.dummy_index,
      ClusterConfig.config] using hc
  obtain ⟨hw, hlog⟩ := RaftLog.new_whole hst (cfg.config n st applied draws).maxCommittedSizePerReady a hlen
  have hkeys := AssocMap.keys_foldl_insert
    (fun _ => { Progress.new (cfg.config n st applied draws).maxInflightMsgs with next := 1 }) cfg.voters ∅
    (by simpa using (List.nodup_append.mp cfg.nodup).1)
  have hgood : Good cfg { r₂ with raftLog := { r₂.raftLog with applied := a } } := by
    rw [hr₂]
    refine ⟨hw, hn, ?_, ?_, ?_, fun hrole => (by rcases hrole with hr | hr <;> cases hr), fun hl => (by cases hl),
      hst.vote_zero, fun hl => (by cases hl), fun m hm => absurd hm List.not_mem_nil, fun hpre => ⟨n, hpre⟩⟩
    · simpa using hkeys
    · intro id hid
      rcases hlkeys id hid with hid | hid
      · cases hid
      · exact hid
    · intro hl
      rcases List.mem_append.mp hn with hv | hlr
      · exact hv
      · exact absurd (hself hlr) (by simpa using hl)
  have hfollow : Sim cfg ∅ True _ (Raft.becomeFollower _ _ 0) := becomeFollower_sim hgood le_rfl
  refine ⟨hfollow.good, ?_, ?_, ?_, ?_⟩
  · rw [hfollow.id, hr₂]
    rfl
  · rw [hfollow.storage, hr₂]
    rfl
  · simp only [Raft.hardState, Raft.becomeFollower, Raft.reset_vote, Raft.reset_term, Raft.reset_raftLog,
      if_true, hr₂]
    rfl
  · refine abs_eq_retire (a := (absDisk st).node) (Or.inl rfl) ?_ ?_ ?_ ?_ ?_ <;>
      simp only [Raft.becomeFollower, Raft.reset_vote, Raft.reset_term, Raft.reset_raftLog, Raft.reset_msgs,
        if_true, hr₂]
    · rfl
    · rfl
    · exact hlog
    · rfl
    · exact absMsgs_nil

end Restart

section HandleReady

/-- The unstable entries go to where they belong in the storage. -/
theorem append_unstable {l : RaftLog} (hw : l.Whole) {st : MemoryStorage} (hd : st.dummy = l.storage.dummy)
    (he : st.ents = l.storage.ents) : st.append l.unstable.entries = .ok { st with ents := l.log } := by
  have hpos := hw.offset_pos
  have hle := hw.offset_le
  rw [hw.log_eq, ← he]
  rw [← he] at hle
  cases hes : l.unstable.entries with
  | nil =>
      have hoff := hw.offset_eq hes
      rw [← he] at hoff
      rw [MemoryStorage.append, hoff, Nat.add_sub_cancel, List.take_length, List.append_nil]
  | cons e es =>
      have hidx : e.index = l.unstable.offset := by
        have hget := hw.get_unstable (i := l.unstable.offset - 1) (by omega)
        rw [hes, show l.unstable.offset - 1 + 1 - l.unstable.offset = 0 by omega] at hget
        have := hw.indexed _ _ hget
        omega
      have hfirst : st.firstIndex - e.index = 0 := by
        rw [MemoryStorage.firstIndex, hd, hw.dummy_index]
        omega
      have hlow : ¬ e.index + (e :: es).length - 1 < st.firstIndex := by
        rw [MemoryStorage.firstIndex, hd, hw.dummy_index, List.length_cons]
        omega
      rw [MemoryStorage.append]
      simp only [hlow, if_false, hfirst, List.drop_zero]
      simp only [hd, hw.dummy_index, Nat.sub_zero, hidx]
      rw [if_pos hle]

theorem stableTo_last {u : Unstable} {e : Entry} (hlast : u.entries.getLast? = some e)
    (hidx : e.index + 1 = u.offset + u.entries.length) :
    u.stableTo e.index e.term = { u with entries := [], offset := e.index + 1 } := by
  have hne : u.entries ≠ [] := by
    intro h
    rw [h] at hlast
    cases hlast
  have hpos := List.length_pos_iff.mpr hne
  have hterm : u.maybeTerm e.index = some e.term := by
    rw [Unstable.maybeTerm, if_neg (by omega), Unstable.maybeLastIndex, if_pos hne]
    simp only
    rw [if_neg (by omega), show e.index - u.offset = u.entries.length - 1 by omega,
      ← List.getLast?_eq_getElem?, hlast]
    rfl
  rw [Unstable.stableTo, hterm]
  simp only
  rw [if_pos ⟨trivial, by omega⟩, List.drop_eq_nil_of_le (by omega)]

/-- The log once everything in it is stable. -/
theorem advanceLog_spec {l : RaftLog} (hw : l.Whole) {rd : Ready} (hs : HardState)
    (hes : rd.entries = l.unstable.entries) (hsnap : rd.snapshot = {}) :
    (RawNode.advanceLog { l with storage := { l.storage with hardState := hs, ents := l.log } } rd).Whole ∧
    (RawNode.advanceLog { l with storage := { l.storage with hardState := hs, ents := l.log } } rd).log = l.log ∧
    (RawNode.advanceLog { l with storage := { l.storage with hardState := hs, ents := l.log } } rd).storage =
      { l.storage with hardState := hs, ents := l.log } ∧
    (RawNode.advanceLog { l with storage := { l.storage with hardState := hs, ents := l.log } } rd).committed =
      l.committed := by
  have hlen := hw.length_log
  have hpos := hw.offset_pos
  -- only the unstable part and the applied index are new
  obtain ⟨a, hadv⟩ : ∃ a, RawNode.advanceLog { l with storage := { l.storage with hardState := hs, ents := l.log } } rd =
      { l with
        storage := { l.storage with hardState := hs, ents := l.log }
        unstable := { l.unstable with entries := [], offset := l.log.length + 1 }
        applied := a } := by
    have happ : ∀ l' : RaftLog, ∃ a, (if rd.appliedCursor > 0 then l'.appliedTo rd.appliedCursor else l') =
        { l' with applied := a } := by
      intro l'
      split
      · rename_i hc
        exact ⟨rd.appliedCursor, by rw [RaftLog.appliedTo, if_neg (by omega)]⟩
      · exact ⟨l'.applied, rfl⟩
    obtain ⟨a, ha⟩ := happ { l with storage := { l.storage with hardState := hs, ents := l.log } }
    refine ⟨a, ?_⟩
    rw [RawNode.advanceLog, ha, hsnap, hes]
    cases hlast : l.unstable.entries.getLast? with
    | none =>
        have hnil : l.unstable.entries = [] := List.getLast?_eq_none_iff.mp hlast
        have hoff : l.unstable.offset = l.log.length + 1 := by
          rw [hnil, List.length_nil] at hlen
          omega
        have hu : l.unstable = { l.unstable with entries := l.unstable.entries, offset := l.unstable.offset } := rfl
        rw [hnil, hoff] at hu
        exact congrArg (fun u => ({ l with
          storage := { l.storage with hardState := hs, ents := l.log }, unstable := u, applied := a } : RaftLog)) hu
    | some e =>
        have hne : l.unstable.entries ≠ [] := by
          intro h
          rw [h] at hlast
          cases hlast
        have hnpos := List.length_pos_iff.mpr hne
        have hidx : e.index = l.log.length := by
          have hend : l.unstable.entries[l.unstable.entries.length - 1]? = some e := by
            rw [← List.getLast?_eq_getElem?, hlast]
          have hget := hw.get_unstable (i := l.log.length - 1) (by omega)
          rw [show l.log.length - 1 + 1 - l.unstable.offset = l.unstable.entries.length - 1 by omega, hend] at hget
          have := hw.indexed _ _ hget
          omega
        have hst := stableTo_last hlast (by omega)
        rw [hidx] at hst
        simp only [RaftLog.stableTo, hidx, hst]
        rfl
  rw [hadv]
  have hlog : ({ l with
      storage := { l.storage with hardState := hs, ents := l.log }
      unstable := { l.unstable with entries := [], offset := l.log.length + 1 }
      applied := a } : RaftLog).log = l.log := by
    rw [RaftLog.log]
    simp [MemoryStorage.firstIndex, hw.dummy_index]
  refine ⟨⟨hw.dummy_index, hw.dummy_term, hw.stored_snapshot, hw.no_snapshot, ?_, ?_, ?_, hw.indexed, ?_, ?_⟩,
    hlog, rfl, rfl⟩
  · exact Nat.le_add_left 1 _
  · exact le_rfl
  · exact fun _ => rfl
  · rw [hlog]
    exact hw.indexed
  · rw [hlog]
    exact hw.committed_le

/-- The hard state that a node has handed out is the stored one, or none yet. -/
def Handed (node : RawNode) : Prop :=
  node.prevHardState = node.raft.raftLog.storage.hardState ∨ node.prevHardState = {}

/-- The storage is not ahead of the node. -/
def Behind (r : Raft) : Prop :=
  r.raftLog.storage.hardState.term ≤ r.term ∧ r.raftLog.storage.hardState.commit ≤ r.raftLog.committed

/-- What is durable once a `Ready` has been handled. -/
structure Flushed (cfg : ClusterConfig) (node node' : RawNode) : Prop where
  good : Good cfg node'.raft
  id : node'.raft.id = node.raft.id
  store : StoreGood node'.raft.raftLog.storage
  handed : Handed node'
  abs : node'.raft.abs = { node.raft.abs with out := ∅ }
  bounded : Bounded node.raft → Bounded node'.raft
  disk : Behind node.raft → absDisk node'.raft.raftLog.storage = node.raft.abs.disk
  behind : Behind node.raft → Behind node'.raft

/-- A hard state that is not handed out again is the stored one. -/
theorem stored_hardState {node : RawNode} (hst : StoreGood node.raft.raftLog.storage)
    (hprev : Handed node) (hb : Behind node.raft) {hs : HardState}
    (h : hs = if node.raft.hardState ≠ node.prevHardState then node.raft.hardState else {}) :
    (if hs.isEmptyState then node.raft.raftLog.storage.hardState else hs) = node.raft.hardState := by
  have hempty : node.raft.hardState = {} → node.raft.raftLog.storage.hardState = {} := by
    intro h0
    have ht : node.raft.term = 0 := congrArg HardState.term h0
    have hc : node.raft.raftLog.committed = 0 := congrArg HardState.commit h0
    obtain ⟨hb1, hb2⟩ := hb
    have hv := hst.vote_zero (by omega)
    apply HardState.eq_of_isEmptyState
    simp only [HardState.isEmptyState, Bool.and_eq_true, beq_iff_eq]
    omega
  split at h
  · split
    · rename_i he
      have h0 : node.raft.hardState = {} := h ▸ HardState.eq_of_isEmptyState he
      rw [h0, hempty h0]
    · exact h
  · rename_i hsame
    have hsame : node.raft.hardState = node.prevHardState := not_not.mp hsame
    have he : hs.isEmptyState = true := by
      rw [h]
      rfl
    rw [if_pos he]
    rcases hprev with hprev | hprev
    · rw [hsame, hprev]
    · rw [hsame.trans hprev, hempty (hsame.trans hprev)]

theorem persist_spec {l : RaftLog} (hw : l.Whole) {rd : Ready} {st' : MemoryStorage}
    (hes : rd.entries = l.unstable.entries) (hsnap : rd.snapshot = {}) (h : persist l.storage rd = .ok st') :
    st' = { l.storage with
      hardState := if rd.hardState.isEmptyState then l.storage.hardState else rd.hardState
      ents := l.log } := by
  unfold persist at h
  rw [hsnap, hes] at h
  simp only [Snapshot.isEmpty, beq_self_eq_true, if_true] at h
  split at h
  · rw [append_unstable hw rfl rfl] at h
    rename_i he
    rw [if_pos he]
    exact (Except.ok.inj h).symm
  · have happend : (l.storage.setHardState rd.hardState).append l.unstable.entries =
        .ok { l.storage.setHardState rd.hardState with ents := l.log } := append_unstable hw rfl rfl
    rw [happend] at h
    rename_i he
    rw [if_neg he]
    exact (Except.ok.inj h).symm

/-- A `Ready` makes the whole node durable and takes its messages. -/
theorem handleReady_spec {node node' : RawNode} {msgs : List Message} (hg : Good cfg node.raft)
    (hst : StoreGood node.raft.raftLog.storage) (hprev : Handed node) (h : node.handleReady = .ok (msgs, node')) :
    msgs = node.raft.msgs ∧ Flushed cfg node node' := by
  unfold RawNode.handleReady at h
  obtain ⟨⟨rd, n₁⟩, hready, h⟩ := bind_ok h
  obtain ⟨st', hpersist, h⟩ := bind_ok h
  obtain ⟨rfl, rfl⟩ := Prod.mk.inj (Except.ok.inj h)
  unfold RawNode.ready at hready
  obtain ⟨rd', hrd, hready⟩ := bind_ok hready
  obtain ⟨rfl, rfl⟩ := Prod.mk.inj (Except.ok.inj hready)
  unfold Ready.new at hrd
  obtain ⟨ces, -, hrd⟩ := bind_ok hrd
  have hrd := (Except.ok.inj hrd).symm
  have hmsgs : rd'.messages = node.raft.msgs := by rw [hrd]
  have hes : rd'.entries = node.raft.raftLog.unstable.entries := by rw [hrd]
  have hsnap : rd'.snapshot = {} := by
    rw [hrd]
    simp only [hg.whole.no_snapshot, Option.getD_none]
  have hhs : rd'.hardState =
      if node.raft.hardState ≠ node.prevHardState then node.raft.hardState else {} := by rw [hrd]
  have hsame := reduceUncommittedSize_same { node.raft with msgs := [] } rd'.committedEntries
  have hquiet : Good cfg { node.raft with msgs := [] } :=
    ⟨hg.whole, hg.member, hg.keys, hg.learnerKeys, hg.voter, hg.term_pos, hg.leader_voter, hg.vote_zero,
      hg.next_pos, nofun, hg.pre⟩
  generalize Raft.reduceUncommittedSize { node.raft with msgs := [] } rd'.committedEntries = r₁ at hsame hpersist
  have hg₁ := hsame.good hquiet
  have hlog₁ : r₁.raftLog = node.raft.raftLog := hsame.raftLog
  simp only [hlog₁] at hpersist
  obtain rfl := persist_spec hg.whole hes hsnap hpersist
  refine ⟨hmsgs, ?_⟩
  generalize hhs' : (if rd'.hardState.isEmptyState then node.raft.raftLog.storage.hardState else rd'.hardState) = hs'
  obtain ⟨hw, hlog, hstore, hcom⟩ := advanceLog_spec hg.whole hs' hes hsnap
  have hdisk : Behind node.raft → hs' = node.raft.hardState := fun hb =>
    hhs'.symm.trans (stored_hardState hst hprev hb hhs)
  have hvote : hs'.term = 0 → hs'.vote = 0 := by
    rw [← hhs']
    split
    · exact hst.vote_zero
    · rename_i he
      rw [hhs] at he ⊢
      split
      · exact hg.vote_zero
      · rename_i hne
        rw [if_neg hne] at he
        exact absurd rfl he
  simp only [RawNode.advance, hlog₁]
  generalize RawNode.advanceLog { node.raft.raftLog with
    storage := { node.raft.raftLog.storage with hardState := hs', ents := node.raft.raftLog.log } } rd' = log'
    at hw hlog hstore hcom ⊢
  refine ⟨?_, ?_, ?_, ?_, ?_, ?_, ?_, ?_⟩
  · exact ⟨hw, hg₁.member, hg₁.keys, hg₁.learnerKeys, hg₁.voter, hg₁.term_pos, hg₁.leader_voter, hg₁.vote_zero,
      hg₁.next_pos, hg₁.msgs, hg₁.pre⟩
  · exact hsame.id
  · simp only [hstore]
    exact ⟨hst.dummy_index, hst.dummy_term, hst.snapshot, hg.whole.indexed, hvote⟩
  · simp only [Handed, hstore, ← hhs']
    cases rd'.hardState.isEmptyState with
    | true => exact hprev
    | false => exact Or.inl rfl
  · have habs : r₁.abs = { node.raft.abs with out := ∅ } := by
      rw [hsame.abs, ← absMsgs_nil]
      rfl
    rw [← habs]
    ext1 <;> try rfl
    · exact hlog.trans (congrArg RaftLog.log hlog₁.symm)
    · exact hcom.trans (congrArg RaftLog.committed hlog₁.symm)
  · intro hb hl id p hp
    have hb₁ : Bounded r₁ := hsame.bounded hb
    simp only [hlog, ← hlog₁]
    exact hb₁ hl id p hp
  · intro hb
    simp only [hstore, absDisk, hdisk hb]
    rfl
  · intro hb
    simp only [Behind, hstore, hdisk hb, hcom, hsame.term]
    exact ⟨le_rfl, le_rfl⟩

end HandleReady

end RaftEtcd
