import RaftEtcd.Refine.Sends

/-! Elections and commitment on one node: tallies, campaigns, the first entry of a leader and the
commit index that a quorum of acknowledgements allows. -/
namespace RaftEtcd
open Consensus
variable {cfg : ClusterConfig} {N : Set (Msg Nat Entry)} {B : Prop} {r r' : Raft}

theorem Good.card_voters (hg : Good cfg r) : cfg.voters.toFinset.card = r.prs.keys.length := by
  rw [List.toFinset_card_of_nodup (List.nodup_append.mp cfg.nodup).1, hg.keys.length_eq]

/-- As many nodes as the quorum asks for are more than half of the voters. -/
theorem Good.card_lt_of_quorum (hg : Good cfg r) {k : Nat} (h : r.quorum ≤ k) :
    cfg.voters.toFinset.card < 2 * k := by
  rw [hg.card_voters]
  rw [Raft.quorum] at h
  omega

theorem Raft.poll_fst (r : Raft) (id : Nat) (v : Bool) :
    (r.poll id v).1 = if (r.votes.lookup id).isSome then r else { r with votes := r.votes.insert id v } := rfl

/-- A vote enters the tally only with a grant behind it. -/
theorem poll_tells (hg : Good cfg r) {id : Nat} {v : Bool}
    (hm : r.state = .candidate → v = true → id = r.id ∨ .grant id r.id r.term ∈ N) :
    Tells cfg N B r (r.poll id v).1 := by
  rw [Raft.poll_fst]
  split
  · exact .refl hg
  · rename_i hnone
    refine ⟨⟨⟨hg.whole, hg.member, hg.keys, hg.learnerKeys, hg.voter, hg.term_pos, hg.leader_voter,
      hg.vote_zero, hg.next_pos, hg.msgs, hg.pre⟩, rfl, rfl, fun _ hb => ⟨hb, ?_⟩⟩, rfl, rfl, rfl⟩
    by_cases hadd : r.state = .candidate ∧ v = true
    · obtain ⟨hc, rfl⟩ := hadd
      have habs : ({ r with votes := r.votes.insert id true } : Raft).abs =
          { r.abs with votes := insert id r.abs.votes } := by
        ext1 <;> try rfl
        ext m
        by_cases hmid : m = id
        · subst m
          simp [Raft.abs, hc]
        · simp [Raft.abs, hc, hmid]
      rw [habs]
      exact .single (.tally _ id (Raft.abs_role_candidate.mpr hc) (hm hc rfl))
    · have habs : ({ r with votes := r.votes.insert id v } : Raft).abs = r.abs := by
        ext1 <;> try rfl
        ext m
        by_cases hc : r.state = .candidate
        · have hv : v = false := by
            cases v with
            | false => rfl
            | true => exact absurd ⟨hc, rfl⟩ hadd
          by_cases hmid : m = id
          · subst m
            simp [Raft.abs, hc, hv, Option.not_isSome_iff_eq_none.mp hnone]
          · simp [Raft.abs, hc, hmid]
        · simp [Raft.abs, hc]
      rw [habs]

/-- The count that `poll` returns is the size of a set of granted votes. -/
theorem poll_count (r : Raft) (id : Nat) (v : Bool) (hc : r.state = .candidate) :
    ∃ Q : Finset Nat, ↑Q ⊆ (r.poll id v).1.abs.votes ∧ Q.card = (r.poll id v).2 := by
  obtain ⟨Q, hQ, hcard⟩ := AssocMap.exists_finset_countP (r.poll id v).1.votes (· == true)
  refine ⟨Q, ?_, hcard⟩
  intro m hm
  obtain ⟨a, ha, hat⟩ := hQ m hm
  have hstate : (r.poll id v).1.state = .candidate := by
    rw [Raft.poll_fst]
    split <;> exact hc
  refine ⟨hstate, ?_⟩
  rw [ha, eq_of_beq hat]

theorem RaftLog.maybeCommit_spec {l l' : RaftLog} (h : l.Whole) {i t : Nat} {b : Bool}
    (hm : l.maybeCommit i t = .ok (l', b)) :
    l' = l ∨ (l.committed < i ∧ i ≤ l.log.length ∧ termAt Entry.term l.log i = t ∧
      l' = { l with committed := i }) := by
  rw [RaftLog.maybeCommit] at hm
  split at hm
  · rename_i hlt
    rw [h.term_eq] at hm
    simp only at hm
    split at hm
    · rename_i ht
      obtain ⟨l₁, h₁, hm⟩ := bind_ok hm
      rw [← (Prod.mk.inj (Except.ok.inj hm)).1]
      obtain ⟨rfl, hle⟩ := RaftLog.commitTo_spec h h₁
      rw [max_eq_right (by omega)] at hle ⊢
      exact Or.inr ⟨hlt, hle, ht, rfl⟩
    · exact Or.inl (Prod.mk.inj (Except.ok.inj hm)).1.symm
  · exact Or.inl (Prod.mk.inj (Except.ok.inj hm)).1.symm

/-- The sorted match indexes give a majority that has reached the one chosen. -/
theorem Good.match_majority (hg : Good cfg r) (hl : r.state = .leader) {i : Nat}
    (hq : r.quorum ≤ ((AssocMap.values r.prs).map Progress.matched).length)
    (hi : (((AssocMap.values r.prs).map Progress.matched).insertionSort (· ≤ ·))[
      ((AssocMap.values r.prs).map Progress.matched).length - r.quorum]? = some i) :
    ∃ Q, Majority cfg.voters.toFinset Q ∧ ∀ m ∈ Q, m ≠ r.id → i ≤ r.abs.matched m := by
  have hcount := List.le_countP_insertionSort _ hi
  rw [List.countP_map] at hcount
  obtain ⟨Q, hQ, hcard⟩ := AssocMap.exists_finset_countP r.prs ((fun y => decide (i ≤ y)) ∘ Progress.matched)
  refine ⟨Q, ⟨?_, hg.card_lt_of_quorum (by omega)⟩, ?_⟩
  · intro m hm
    obtain ⟨p, hp, -⟩ := hQ m hm
    have hk : m ∈ r.prs.keys := (AssocMap.lookup_isSome_iff _ _).mp (by rw [hp]; rfl)
    exact List.mem_toFinset.mpr (hg.keys.mem_iff.mp hk)
  · intro m hm hne
    obtain ⟨p, hp, hle⟩ := hQ m hm
    have hget : r.getProgress m = some p := by
      rw [Raft.getProgress, hp]
    simp only [Raft.abs, hl, hne, ne_eq, not_false_eq_true, and_self, if_true, hget, Option.map_some,
      Option.getD_some]
    simpa using hle

/-- `maybe_commit` moves the commit index, and only to an index that a majority has reached. -/
theorem maybeCommit_sim (hg : Good cfg r) (hl : r.state = .leader) {b : Bool}
    (h : r.maybeCommit = .ok (r', b)) :
    Sim cfg N B r r' ∧ ∃ c, r' = { r with raftLog := { r.raftLog with committed := c } } := by
  unfold Raft.maybeCommit at h
  simp only at h
  split at h
  · cases h
  rename_i hq
  split at h
  · cases h
  rename_i mci hmci
  obtain ⟨⟨log, changed⟩, hlog, h⟩ := bind_ok h
  rw [← (Prod.mk.inj (Except.ok.inj h)).1]
  rw [List.length_insertionSort] at hq hmci
  rcases RaftLog.maybeCommit_spec hg.whole hlog with rfl | ⟨hlt, hle, ht, rfl⟩
  · exact ⟨.refl hg, r.raftLog.committed, rfl⟩
  · refine ⟨⟨⟨hg.whole.withCommitted hle, hg.member, hg.keys, hg.learnerKeys, hg.voter, hg.term_pos,
      hg.leader_voter, hg.vote_zero, hg.next_pos, hg.msgs, hg.pre⟩, rfl, rfl, fun _ hb => ⟨hb, ?_⟩⟩, mci, rfl⟩
    obtain ⟨Q, hQ, hm⟩ := hg.match_majority hl (Nat.not_lt.mp hq) hmci
    exact .single (.commit r.abs mci Q (Raft.abs_role_leader.mpr hl) hlt.le hle hQ hm ht)

theorem stampEntries_length (t i : Nat) (es : List Entry) : (Raft.stampEntries t i es).length = es.length := by
  induction es generalizing i with
  | nil => rfl
  | cons e es ih => rw [Raft.stampEntries, List.length_cons, List.length_cons, ih]

theorem stampEntries_term (t i : Nat) (es : List Entry) : ∀ e ∈ Raft.stampEntries t i es, e.term = t := by
  induction es generalizing i with
  | nil =>
      intro e he
      cases he
  | cons e es ih =>
      intro e' he'
      rw [Raft.stampEntries] at he'
      rcases List.mem_cons.mp he' with rfl | he'
      · rfl
      · exact ih (i + 1) e' he'

theorem stampEntries_indexed (t i : Nat) (es : List Entry) : IndexedFrom i (Raft.stampEntries t i es) := by
  induction es generalizing i with
  | nil => exact .nil i
  | cons e es ih =>
      intro k e' hk
      cases k with
      | zero =>
          rw [Raft.stampEntries] at hk
          rw [← Option.some.inj hk]
          rfl
      | succ k =>
          have := ih (i + 1) k e' hk
          omega

/-- A leader that appends stamped entries at the end of its log. -/
theorem appendLog_sim (hg : Good cfg r) (hl : r.state = .leader) {es : List Entry} {log : RaftLog}
    (h : r.raftLog.append (Raft.stampEntries r.term (r.raftLog.lastIndex + 1) es) = .ok log) :
    Sim cfg N B r { r with raftLog := log } ∧ r.raftLog.log.length ≤ log.log.length := by
  have hspec : log.Whole ∧ log.log = r.raftLog.log ++ Raft.stampEntries r.term (r.raftLog.lastIndex + 1) es ∧
      log.committed = r.raftLog.committed ∧ log.storage = r.raftLog.storage := by
    by_cases hne : Raft.stampEntries r.term (r.raftLog.lastIndex + 1) es = []
    · rw [hne] at h ⊢
      obtain rfl := Except.ok.inj h
      exact ⟨hg.whole, (List.append_nil _).symm, rfl, rfl⟩
    · obtain ⟨hw, hlog, -, -, hc, hst⟩ := hg.whole.append_spec (Nat.le_add_left 1 _) hne
        (stampEntries_indexed _ _ _) h
      rw [Nat.add_sub_cancel, hg.whole.lastIndex_eq, List.take_length] at hlog
      rw [hg.whole.lastIndex_eq]
      exact ⟨hw, hlog, hc, hst⟩
  obtain ⟨hw, hlog, hc, hst⟩ := hspec
  have hlen : r.raftLog.log.length ≤ log.log.length := by
    rw [hlog, List.length_append]
    omega
  refine ⟨⟨⟨hw, hg.member, hg.keys, hg.learnerKeys, hg.voter, hg.term_pos, hg.leader_voter, hg.vote_zero,
    hg.next_pos, hg.msgs, hg.pre⟩, rfl, hst, fun _ hb => ⟨?_, .single ?_⟩⟩, hlen⟩
  · intro hl' id p hp
    obtain ⟨h1, h2⟩ := hb hl' id p hp
    exact ⟨h1.trans (Nat.add_le_add_right hlen 1), h2.trans hlen⟩
  · have habs : ({ r with raftLog := log } : Raft).abs =
        { r.abs with log := r.abs.log ++ Raft.stampEntries r.term (r.raftLog.lastIndex + 1) es } := by
      ext1 <;> try rfl
      · exact hlog
      · exact hc
    rw [habs]
    exact .append r.abs _ (Raft.abs_role_leader.mpr hl) (stampEntries_term _ _ _)

theorem maybeUpdate_spec (p : Progress) (n : Nat) :
    (p.maybeUpdate n).1.matched = max p.matched n ∧ (p.maybeUpdate n).1.next = max p.next (n + 1) ∧
      (p.maybeUpdate n).1.state = p.state := by
  rw [Progress.maybeUpdate]
  by_cases h1 : p.matched < n <;> by_cases h2 : p.next < n + 1 <;> simp [h1, h2] <;> omega

/-- A leader's own progress after an append. -/
theorem selfUpdate_tells (hg : Good cfg r) (n : Nat) (hn : n ≤ r.raftLog.log.length) :
    Tells cfg N B r (r.modifyProgress r.id fun p => (p.maybeUpdate n).1) := by
  refine modifyProgress_tells hg _ _ ?_ ?_
  · intro hl p hp
    obtain ⟨h1, h2⟩ := hg.next_pos hl _ p hp
    obtain ⟨-, hnx, hst⟩ := maybeUpdate_spec p n
    refine ⟨?_, hst ▸ h2, fun hne => absurd rfl hne⟩
    rw [hnx]
    exact h1.trans (le_max_left _ _)
  · intro _ hb hl p hp
    obtain ⟨h1, h2⟩ := hb hl _ p hp
    obtain ⟨hma, hnx, -⟩ := maybeUpdate_spec p n
    rw [hma, hnx]
    exact ⟨max_le h1 (by omega), max_le h2 hn⟩

theorem increaseUncommittedSize_same (r : Raft) (es : List Entry) :
    SameCore r (r.increaseUncommittedSize es).1 := by
  rw [Raft.increaseUncommittedSize]
  split <;> exact ⟨rfl, rfl, rfl, rfl, rfl, rfl, rfl, rfl, rfl, rfl, rfl⟩

/-- What is 0 already stays so. -/
theorem Raft.reduceUncommittedSize_eq (r : Raft) (es : List Entry) :
    r.reduceUncommittedSize es = { r with uncommittedSize := r.uncommittedSize - payloadSum es } := by
  unfold Raft.reduceUncommittedSize
  split
  · rename_i hzero
    rw [hzero, Nat.zero_sub, ← hzero]
  · rfl

theorem reduceUncommittedSize_same (r : Raft) (es : List Entry) : SameCore r (r.reduceUncommittedSize es) := by
  rw [Raft.reduceUncommittedSize_eq]
  exact ⟨rfl, rfl, rfl, rfl, rfl, rfl, rfl, rfl, rfl, rfl, rfl⟩

theorem appendEntry_sim (hg : Good cfg r) (hl : r.state = .leader) {es : List Entry} {b : Bool}
    (h : r.appendEntry es = .ok (r', b)) : Sim cfg N B r r' ∧ r'.state = .leader ∧ r'.term = r.term := by
  unfold Raft.appendEntry at h
  simp only at h
  have hsame := increaseUncommittedSize_same r (Raft.stampEntries r.term (r.raftLog.lastIndex + 1) es)
  split at h
  · rename_i r₁ hr₁
    rw [hr₁] at hsame
    obtain ⟨rfl, -⟩ := Prod.mk.inj (Except.ok.inj h)
    exact ⟨hsame.sim hg, hsame.state.trans hl, hsame.term⟩
  · rename_i r₁ hr₁
    rw [hr₁] at hsame
    have hg₁ := hsame.good hg
    have hl₁ : r₁.state = .leader := hsame.state.trans hl
    obtain ⟨log, hlog, h⟩ := bind_ok h
    rw [← hsame.raftLog, ← hsame.term] at hlog
    obtain ⟨hsim₂, hlen⟩ := appendLog_sim (N := N) (B := B) hg₁ hl₁ hlog
    split at h
    · cases h
    · obtain ⟨⟨r₃, b₃⟩, h₃, h⟩ := bind_ok h
      obtain ⟨rfl, -⟩ := Prod.mk.inj (Except.ok.inj h)
      have hup : Tells cfg N B { r₁ with raftLog := log }
          (Raft.modifyProgress { r₁ with raftLog := log } r₁.id fun p => (p.maybeUpdate log.lastIndex).1) :=
        selfUpdate_tells hsim₂.good log.lastIndex (by rw [hsim₂.good.whole.lastIndex_eq])
      obtain ⟨hsim₃, c, rfl⟩ := maybeCommit_sim (N := N) (B := B) hup.good (hup.state.trans hl₁) h₃
      exact ⟨((hsame.sim hg).trans hsim₂).trans (hup.toSim.trans hsim₃), hup.state.trans hl₁,
        hup.term.trans hsame.term⟩

/-- The node at the moment it has won: its tallies are gone and every progress is fresh. -/
theorem lead_sim {r₁ : Raft} (hg : Good cfg r) (hc : r.state = .candidate) (hv : r.id ∈ cfg.voters) {Q : Finset Nat}
    (hQ : ↑Q ⊆ r.abs.votes) (hcard : cfg.voters.toFinset.card < 2 * Q.card)
    (h₁ : r₁ = { r.reset r.term with lead := (r.reset r.term).id, state := .leader }) : Sim cfg N B r r₁ := by
  have hget : ∀ id, r₁.getProgress id = (r.getProgress id).map (r.resetProgress id) := by
    intro id
    rw [h₁]
    exact r.reset_getProgress r.term id
  have hfresh : ∀ id p, r₁.getProgress id = some p → p.next = r.raftLog.log.length + 1 ∧ p.state = .probe ∧
      p.matched = if id = r.id then r.raftLog.log.length else 0 := by
    intro id p hp
    rw [hget] at hp
    obtain ⟨q, -, rfl⟩ := Option.map_eq_some_iff.mp hp
    rw [Raft.resetProgress, hg.whole.lastIndex_eq]
    exact ⟨rfl, rfl, rfl⟩
  have hid : r₁.id = r.id := by simp [h₁]
  have hlog : r₁.raftLog = r.raftLog := by simp [h₁]
  have hstate : r₁.state = .leader := by rw [h₁]
  have hterm : r₁.term = r.term := by simp [h₁]
  have hvote : r₁.vote = r.vote := by simp [h₁, Raft.reset_vote]
  have hmsgs : r₁.msgs = r.msgs := by simp [h₁]
  refine ⟨⟨hlog ▸ hg.whole, hid ▸ hg.member, ?_, ?_, ?_, ?_, ?_, ?_, ?_, ?_, ?_⟩, hid, by rw [hlog],
    fun _ _ => ⟨?_, .single ?_⟩⟩
  · simpa [h₁] using hg.keys
  · simpa [h₁] using hg.learnerKeys
  · simpa [h₁] using hg.voter
  · rw [hterm]
    exact fun _ => hg.term_pos (Or.inl hc)
  · rw [hid]
    exact fun _ => hv
  · rw [hterm, hvote]
    exact hg.vote_zero
  · intro _ id p hp
    obtain ⟨hn, hs, -⟩ := hfresh id p hp
    rw [hn, hs]
    exact ⟨Nat.le_add_left 1 _, by decide⟩
  · rw [hmsgs, hid]
    exact hg.msgs
  · simpa [h₁] using hg.pre
  · intro _ id p hp
    obtain ⟨hn, -, hm⟩ := hfresh id p hp
    rw [hlog, hn, hm]
    refine ⟨le_rfl, ?_⟩
    split
    · exact le_rfl
    · exact Nat.zero_le _
  · have habs : r₁.abs = { r.abs.retire with role := .leader } := by
      ext1
      · exact hterm
      · exact congrArg absVote hvote
      · exact Raft.abs_role_leader.mpr hstate
      · exact congrArg RaftLog.log hlog
      · exact congrArg RaftLog.committed hlog
      · exact Raft.abs_votes_of_ne (by rw [hstate]; decide)
      · funext m
        simp only [Raft.abs, Node.retire, hstate, hid, true_and]
        split
        · rename_i hne
          cases hp : r₁.getProgress m with
          | none => rfl
          | some p => simp [(hfresh m p hp).2.2, hne]
        · rfl
      · exact congrArg absMsgs hmsgs
    rw [habs]
    exact .lead r.abs Q (List.mem_toFinset.mpr hv) (Raft.abs_role_candidate.mpr hc) hQ hcard

/-- A node that becomes leader has passed the assertions, and has appended the empty entry of its term. -/
theorem becomeLeader_spec (h : r.becomeLeader = .ok r') : ∃ p r₁,
    (r.reset r.term).prs.lookup (r.reset r.term).id = some p ∧
      Raft.appendEntry { r.reset r.term with
        lead := (r.reset r.term).id
        state := .leader
        prs := AssocMap.modify (r.reset r.term).id Progress.becomeReplicate (r.reset r.term).prs
        pendingConfIndex := (r.reset r.term).raftLog.lastIndex } [{}] = .ok (r₁, true) ∧
      r' = r₁.reduceUncommittedSize [{}] := by
  unfold Raft.becomeLeader at h
  split at h
  · cases h
  simp only at h
  split at h
  · cases h
  · rename_i p hp
    obtain ⟨⟨r₁, ok⟩, happend, h⟩ := bind_ok h
    cases ok with
    | false => cases h
    | true => exact ⟨p, r₁, hp, happend, (Except.ok.inj h).symm⟩

theorem becomeLeader_sim (hg : Good cfg r) (hc : r.state = .candidate) {Q : Finset Nat}
    (hQ : ↑Q ⊆ r.abs.votes) (hcard : cfg.voters.toFinset.card < 2 * Q.card) (h : r.becomeLeader = .ok r') :
    Sim cfg N B r r' ∧ r'.state = .leader := by
  obtain ⟨p, r₂, hp, h₂, rfl⟩ := becomeLeader_spec h
  have hv : r.id ∈ cfg.voters := by
    have hk : r.id ∈ (r.reset r.term).prs.keys := by
      rw [← r.reset_id r.term]
      exact (AssocMap.lookup_isSome_iff _ _).mp (by rw [hp]; rfl)
    rw [Raft.reset_prs_keys] at hk
    exact hg.keys.mem_iff.mp hk
  have hlead : Sim cfg N B r { r.reset r.term with lead := (r.reset r.term).id, state := .leader } :=
    lead_sim hg hc hv hQ hcard rfl
  -- the leader's own progress leaves the probing state
  have hrep : Tells cfg N B { r.reset r.term with lead := (r.reset r.term).id, state := .leader }
      (Raft.modifyProgress { r.reset r.term with lead := (r.reset r.term).id, state := .leader }
        (r.reset r.term).id Progress.becomeReplicate) := by
    refine modifyProgress_tells hlead.good _ _ ?_ ?_
    · intro _ q _
      exact ⟨Nat.le_add_left 1 _, by simp [Progress.becomeReplicate, Progress.resetState], fun hne => absurd rfl hne⟩
    · intro _ hb hl q hq
      have hm := (hb hl _ q hq).2
      exact ⟨Nat.add_le_add_right hm 1, hm⟩
  rw [Raft.modifyProgress, if_pos (by rw [hp]; rfl)] at hrep
  have hpend : SameCore
      { { r.reset r.term with lead := (r.reset r.term).id, state := .leader } with
        prs := AssocMap.modify (r.reset r.term).id Progress.becomeReplicate (r.reset r.term).prs }
      { { { r.reset r.term with lead := (r.reset r.term).id, state := .leader } with
        prs := AssocMap.modify (r.reset r.term).id Progress.becomeReplicate (r.reset r.term).prs } with
        pendingConfIndex := (r.reset r.term).raftLog.lastIndex } :=
    ⟨rfl, rfl, rfl, rfl, rfl, rfl, rfl, rfl, rfl, rfl, rfl⟩
  obtain ⟨happ, hl₂, -⟩ := appendEntry_sim (N := N) (B := B) (hpend.good hrep.good) rfl h₂
  have hred := reduceUncommittedSize_same r₂ [{}]
  exact ⟨((hlead.trans hrep.toSim).trans (hpend.sim hrep.good)).trans (happ.trans (hred.sim happ.good)),
    hred.state.trans hl₂⟩

theorem campaignElection_sim (hg : Good cfg r) (h : r.campaignElection = .ok r') : Sim cfg N B r r' := by
  unfold Raft.campaignElection at h
  obtain ⟨r₁, h₁, h⟩ := bind_ok h
  obtain ⟨hcand, hc, -, -, -⟩ := becomeCandidate_sim (N := N) (B := B) hg hg.id_ne_zero h₁
  have hpoll : Tells cfg N B r₁ (r₁.poll r₁.id true).1 := poll_tells hcand.good fun _ _ => Or.inl rfl
  have hc₂ : (r₁.poll r₁.id true).1.state = .candidate := hpoll.state.trans hc
  simp only at h
  split at h
  · rename_i hq
    obtain ⟨Q, hQ, hcard⟩ := poll_count r₁ r₁.id true hc
    have hlead := becomeLeader_sim (N := N) (B := B) hpoll.good hc₂ hQ
      (hpoll.good.card_lt_of_quorum (by omega)) h
    exact hcand.trans (hpoll.toSim.trans hlead.1)
  · have hsend := sendVoteRequests_tells (N := N) (B := B) hpoll.good (Or.inl ⟨rfl, hc₂, rfl⟩) h
    exact hcand.trans (hpoll.toSim.trans hsend.toSim)

theorem campaign_sim (hg : Good cfg r) {ct : CampaignType} (hct : ct = .preElection → r.preVote = true)
    (h : r.campaign ct = .ok r') : Sim cfg N B r r' := by
  cases ct with
  | preElection =>
      unfold Raft.campaign at h
      simp only at h
      obtain ⟨r₁, h₁, h⟩ := bind_ok h
      obtain ⟨hpre, hs, -, -⟩ := becomePreCandidate_sim (N := N) (B := B) hg h₁
      have hpoll : Tells cfg N B r₁ (r₁.poll r₁.id true).1 := poll_tells hpre.good fun _ _ => Or.inl rfl
      split at h
      · exact hpre.trans (hpoll.toSim.trans (campaignElection_sim hpoll.good h))
      · have hsend := sendVoteRequests_tells (N := N) (B := B) hpoll.good (Or.inr ⟨rfl, hg.pre (hct rfl)⟩) h
        exact hpre.trans (hpoll.toSim.trans hsend.toSim)
  | election => exact campaignElection_sim hg h
  | transfer => exact campaignElection_sim hg h

end RaftEtcd
