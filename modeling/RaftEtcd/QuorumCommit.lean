import Mathlib.Order.Bounds.Basic
import RaftEtcd.LogicalLog.Basic

/-! `Raft::maybe_commit` on a leader. It sorts the match indexes of the voters and looks at the one entry
that the position of the quorum gives; that is the last one that a quorum holds, and since terms do not
decrease along the log no earlier entry of the leader's term can be missed. -/
namespace RaftEtcd

theorem AssocMap.card_filter_lookup {κ α : Type} [DecidableEq κ] (m : AssocMap κ α) (p : α → Bool) :
    (m.keys.toFinset.filter fun k => (m.lookup k).any p).card = (AssocMap.values m).countP p := by
  have hnd : ((m.entries.filter fun s => p s.2).map Sigma.fst).Nodup := m.nodupKeys.sublist List.filter_sublist
  have hset : m.keys.toFinset.filter (fun k => (m.lookup k).any p) =
      ((m.entries.filter fun s => p s.2).map Sigma.fst).toFinset := by
    ext k
    simp only [Finset.mem_filter, List.mem_toFinset, List.mem_map, List.mem_filter, Option.any_eq_true]
    constructor
    · rintro ⟨-, a, ha, hp⟩
      exact ⟨⟨k, a⟩, ⟨AList.mem_lookup_iff.mp ha, hp⟩, rfl⟩
    · rintro ⟨⟨k', a⟩, ⟨hmem, hp⟩, rfl⟩
      have ha : m.lookup k' = some a := AList.mem_lookup_iff.mpr hmem
      exact ⟨(AssocMap.lookup_isSome_iff _ _).mp (by rw [ha]; rfl), a, ha, hp⟩
  rw [hset, List.toFinset_card_of_nodup hnd, List.length_map, AssocMap.values, List.countP_map,
    List.countP_eq_length_filter]
  rfl

namespace Raft
variable {r : Raft}

/-- The voters that are known to hold the log up to an index. -/
def holders (r : Raft) (i : Nat) : Finset Nat :=
  r.prs.keys.toFinset.filter fun id => (r.prs.lookup id).any fun p => i ≤ p.matched

/-- An entry of the leader's term that a quorum of voters holds. -/
def Committable (r : Raft) (i : Nat) : Prop := r.raftLog.term i = .ok r.term ∧ r.quorum ≤ (r.holders i).card

theorem card_holders (r : Raft) (i : Nat) :
    (r.holders i).card = ((AssocMap.values r.prs).map Progress.matched).countP fun m => i ≤ m := by
  rw [holders, AssocMap.card_filter_lookup, List.countP_map]
  rfl

/-- Some voter holds what a quorum holds. -/
theorem exists_holder {i : Nat} (h : r.quorum ≤ (r.holders i).card) :
    ∃ p ∈ AssocMap.values r.prs, i ≤ p.matched := by
  have hpos : 0 < (r.holders i).card := lt_of_lt_of_le (Nat.succ_pos _) h
  rw [card_holders, List.countP_pos_iff] at hpos
  obtain ⟨m, hm, hle⟩ := hpos
  obtain ⟨p, hp, rfl⟩ := List.mem_map.mp hm
  exact ⟨p, hp, of_decide_eq_true hle⟩

/-- With a voter there is a last index that a quorum holds, and `maybe_commit` asks the log for it,
whatever the leader knows of its learners. -/
theorem maybeCommit_picks (hv : r.prs.keys ≠ []) : ∃ mci, (∀ i, i ≤ mci ↔ r.quorum ≤ (r.holders i).card) ∧
    ∀ learners, ({ r with learnerPrs := learners } : Raft).maybeCommit = (do
      let (log, changed) ← r.raftLog.maybeCommit mci r.term
      .ok ({ r with learnerPrs := learners, raftLog := log }, changed)) := by
  have hlen : ((AssocMap.values r.prs).map Progress.matched).length = r.prs.keys.length := by
    simp [AssocMap.values, AList.keys, List.keys]
  have hpos : 0 < r.prs.keys.length := List.length_pos_iff.mpr hv
  have hquorum : r.quorum ≤ r.prs.keys.length := by
    rw [quorum]
    omega
  obtain ⟨mci, hmci⟩ : ∃ mci, (((AssocMap.values r.prs).map Progress.matched).insertionSort (· ≤ ·))[
      r.prs.keys.length - r.quorum]? = some mci := by
    refine ⟨_, List.getElem?_eq_getElem ?_⟩
    rw [List.length_insertionSort, hlen, quorum]
    omega
  refine ⟨mci, fun i => ?_, fun learners => ?_⟩
  · rw [List.le_insertionSort_iff _ hmci, card_holders, hlen]
    omega
  · unfold maybeCommit
    simp only [quorum, List.length_insertionSort, hlen] at hquorum hmci ⊢
    rw [if_neg (Nat.not_lt.mpr hquorum), hmci]

end Raft

/-- The terms of a log are all found; they do not decrease and do not pass the term of the node. -/
structure RaftLog.Ascending (l : RaftLog) (t : Nat) : Prop where
  found : ∀ i ≤ l.lastIndex, ∃ u ≤ t, l.term i = .ok u
  mono : ∀ i j u v, i ≤ j → j ≤ l.lastIndex → l.term i = .ok u → l.term j = .ok v → u ≤ v

/-- What the log says to the index that it is asked for. -/
theorem RaftLog.Ascending.maybeCommit {l : RaftLog} {t i : Nat} (h : l.Ascending t) (hi : i ≤ l.lastIndex) :
    ∃ u ≤ t, l.term i = .ok u ∧ l.maybeCommit i t =
      .ok ({ l with committed := if l.committed < i ∧ u = t then i else l.committed }, decide (l.committed < i ∧ u = t)) := by
  obtain ⟨u, hu, hterm⟩ := h.found i hi
  refine ⟨u, hu, hterm, ?_⟩
  rw [RaftLog.maybeCommit, hterm]
  by_cases hlt : l.committed < i
  · by_cases heq : u = t
    · simp [hlt, heq, RaftLog.commitTo, Nat.not_lt.mpr hi, bind, Except.bind]
    · simp [hlt, heq]
  · simp [hlt]

/-- The commit index becomes the last entry of the leader's term that a quorum of voters holds, unless
that is behind it. -/
theorem maybeCommit_exact {r : Raft} (hv : r.prs.keys ≠ [])
    (hm : ∀ p ∈ AssocMap.values r.prs, p.matched ≤ r.raftLog.lastIndex) (ht : r.raftLog.Ascending r.term) :
    ∃ c changed, r.maybeCommit = .ok ({ r with raftLog := { r.raftLog with committed := c } }, changed) ∧
      IsGreatest (insert r.raftLog.committed { i | r.Committable i }) c ∧
      (changed = true ↔ c ≠ r.raftLog.committed) ∧
      ∀ learners, ({ r with learnerPrs := learners } : Raft).maybeCommit =
        .ok ({ r with learnerPrs := learners, raftLog := { r.raftLog with committed := c } }, changed) := by
  obtain ⟨mci, hmci, heq⟩ := Raft.maybeCommit_picks hv
  have hlast : mci ≤ r.raftLog.lastIndex := by
    obtain ⟨p, hp, hle⟩ := Raft.exists_holder ((hmci mci).mp le_rfl)
    exact hle.trans (hm p hp)
  obtain ⟨u, hu, hterm, hlog⟩ := ht.maybeCommit hlast
  rw [hlog] at heq
  refine ⟨_, _, heq r.learnerPrs, ⟨?_, ?_⟩, ?_, heq⟩
  · split
    · rename_i hpicked
      refine Or.inr ⟨?_, (hmci mci).mp le_rfl⟩
      rw [hterm, hpicked.2]
    · exact Or.inl rfl
  · -- an entry of the leader's term below the one that is looked at makes that one of the same term
    rintro i (rfl | ⟨hi, hq⟩)
    · split
      · rename_i hpicked
        exact hpicked.1.le
      · exact le_rfl
    · have hle := (hmci i).mpr hq
      have hge := ht.mono i mci r.term u hle hlast hi hterm
      split
      · exact hle
      · rename_i hnot
        by_contra hlt
        exact hnot ⟨by omega, le_antisymm hu hge⟩
  · rw [decide_eq_true_eq]
    split
    · rename_i hpicked
      simp only [hpicked, and_self, true_iff]
      omega
    · rename_i hnot
      simp [hnot]

/-- Two entries of term 1 and one of term 2. -/
def splitLog : RaftLog :=
  { storage := { ents := [{ index := 1, term := 1 }, { index := 2, term := 1 }, { index := 3, term := 2 }] }
    unstable := { offset := 4 }
    committed := 1
    applied := 1
    maxNextEntsSize := 0 }

theorem splitLog_ascending : splitLog.Ascending 2 := by
  have hlast : splitLog.lastIndex = 3 := rfl
  have hterms : ∀ i ≤ 3, splitLog.term i = .ok ([0, 1, 1, 2].getD i 0) := by decide
  have hbound : ∀ i ≤ 3, [0, 1, 1, 2].getD i 0 ≤ 2 := by decide
  have hmono : ∀ j ≤ 3, ∀ i ≤ j, [0, 1, 1, 2].getD i 0 ≤ [0, 1, 1, 2].getD j 0 := by decide
  refine ⟨fun i hi => ⟨_, hbound i hi, hterms i hi⟩, fun i j u v hij hj hu hv => ?_⟩
  rw [hterms i (hij.trans hj)] at hu
  rw [hterms j hj] at hv
  rw [← Except.ok.inj hu, ← Except.ok.inj hv]
  exact hmono j hj i hij

/-- A leader of term 2 with three voters, of which the third has only the first entry, and with a learner
that has all. -/
def splitLeader : Raft :=
  { id := 1
    term := 2
    state := .leader
    raftLog := splitLog
    maxMsgSize := 0
    maxUncommittedSize := 0
    maxInflight := 1
    prs := (((∅ : AssocMap Nat Progress).insert 3 { Progress.new 1 with matched := 1 }).insert 2
      { Progress.new 1 with matched := 3 }).insert 1 { Progress.new 1 with matched := 3 }
    learnerPrs := (∅ : AssocMap Nat Progress).insert 4 { Progress.new 1 with matched := 3 }
    readOnly := { option := .safe }
    checkQuorum := false
    preVote := false
    heartbeatTimeout := 1
    electionTimeout := 10
    disableProposalForwarding := false
    randomDevice := { draws := fun _ => 0, max := 10 } }

/-- The entries of both terms are committed at once. -/
theorem maybeCommit_exact_split : ∃ r', splitLeader.maybeCommit = .ok (r', true) ∧ r'.raftLog.committed = 3 := by
  have hmatched : ∀ p ∈ AssocMap.values splitLeader.prs, p.matched ≤ 3 := by decide
  obtain ⟨c, changed, heq, ⟨hin, hle⟩, hchanged, -⟩ :=
    maybeCommit_exact (r := splitLeader) (by decide) hmatched splitLog_ascending
  have hthree : splitLeader.Committable 3 := ⟨by decide, by decide⟩
  have hge : 3 ≤ c := hle (Or.inr hthree)
  have hc : c = 3 := by
    rcases hin with rfl | ⟨-, hq⟩
    · exact absurd hge (by decide)
    · obtain ⟨p, hp, hcp⟩ := Raft.exists_holder hq
      exact le_antisymm (hcp.trans (hmatched p hp)) hge
  obtain rfl := hchanged.mpr (by rw [hc]; decide)
  exact ⟨{ splitLeader with raftLog := { splitLog with committed := c } }, heq, hc⟩

end RaftEtcd
