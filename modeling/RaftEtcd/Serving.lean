import RaftEtcd.Termless
import RaftEtcd.Unapplied

/-! Sending cannot fail: from a log in one piece, with a snapshot for what is compacted, every peer with a
sound window gets what is due to it. -/
namespace RaftEtcd
variable {r r' r'' : Raft} {msg : Message}

namespace RaftLog
variable {l l' : RaftLog} {i : Nat}

/-- A log from which every peer can be served. -/
structure Servable (l : RaftLog) : Prop where
  tail : l.Tail 0
  held : 1 < l.firstIndex → l.snapshot.isEmpty = false

/-- Every index has a term, if only that of an index outside the log. -/
theorem Tail.term_ok (h : l.Tail 0) (i : Nat) : ∃ t, l.term i = .ok t := by
  have hlast := h.lastIndex
  unfold RaftLog.term
  split
  · exact ⟨0, rfl⟩
  rename_i hrange
  cases hterm : l.unstable.maybeTerm i with
  | some t => exact ⟨t, rfl⟩
  | none =>
      simp only
      -- the index is below the unstable entries, and no snapshot is pending
      have hstored : i < l.unstable.offset ∧ l.unstable.snapshot = none := by
        unfold Unstable.maybeTerm at hterm
        split at hterm
        · rename_i hlow
          refine ⟨hlow, ?_⟩
          cases hs : l.unstable.snapshot with
          | none => rfl
          | some s =>
              have hoffset := h.offset_pending hs
              simp only [hs] at hterm
              split at hterm
              · cases hterm
              · simp only [RaftLog.firstIndex, Unstable.maybeFirstIndex, hs, Option.map_some] at hrange
                omega
        · rename_i hhigh
          have hlength : ¬ i - l.unstable.offset < l.unstable.entries.length := by
            intro hlt
            have hne : l.unstable.entries ≠ [] := List.ne_nil_of_length_pos (by omega)
            rw [Unstable.maybeLastIndex, if_pos hne] at hterm
            simp only at hterm
            rw [if_neg (by omega), List.getElem?_eq_getElem hlt] at hterm
            cases hterm
          omega
      obtain ⟨hlow, hnone⟩ := hstored
      have hoffset := h.offset_le
      simp only [RaftLog.base, hnone, Option.map_none, Option.getD_none, MemoryStorage.lastIndex] at hoffset
      simp only [RaftLog.firstIndex, Unstable.maybeFirstIndex, hnone, Option.map_none, MemoryStorage.firstIndex] at hrange
      have hin : i - l.storage.dummy.index < l.storage.all.length := by
        simp only [MemoryStorage.all, List.length_cons]
        omega
      rw [MemoryStorage.term, if_neg (by omega), List.getElem?_eq_getElem hin]
      exact ⟨_, rfl⟩

/-- The entries from an index on are there, unless they are compacted. -/
theorem Tail.entries_ok (h : l.Tail 0) (i maxSize : Nat) :
    (∃ es, l.entries i maxSize [] = .ok (.ok, es)) ∨
      i < l.firstIndex ∧ ∃ text, l.entries i maxSize [] = .ok (.invalidArgument text, []) := by
  unfold RaftLog.entries
  split
  · exact Or.inl ⟨[], rfl⟩
  rename_i hle
  by_cases hfirst : l.firstIndex ≤ i
  · exact Or.inl (h.slice_ok hfirst (by omega) le_rfl maxSize)
  · exact Or.inr ⟨Nat.not_le.mp hfirst, slice_compacted (Nat.not_le.mp hfirst) (by omega) maxSize⟩

/-- Only the commit index moves. -/
theorem Servable.commits (h : l.Servable) {c : Nat} (hge : l.committed ≤ c) (hle : c ≤ l.lastIndex) :
    Servable { l with committed := c } := by
  have hlast := h.tail.lastIndex
  obtain ⟨h1, h2, h3, -, h5⟩ := h.tail
  exact ⟨⟨h1, h2, h3, by simp only; omega, fun s hs => ⟨(h5 s hs).1.trans hge, (h5 s hs).2⟩⟩, h.held⟩

end RaftLog

section Sending
variable {id : Nat}

/-- Whatever is due to the peer goes out. -/
theorem maybeSendAppend_ok (hlog : r.raftLog.Servable) (hr : r.Windowed) (hid : (r.getProgress id).isSome) (e : Bool) :
    ∃ r' sent, r.maybeSendAppend id e = .ok (r', sent) := by
  obtain ⟨p, hp⟩ := Option.isSome_iff_exists.mp hid
  have hsound := hr.get hp
  obtain ⟨t, hterm⟩ := hlog.tail.term_ok (p.next - 1)
  -- a message that is no vote goes out as it is
  have hsend : ∀ (f : Progress → Progress) (m : Message), m.type.isVote = false → m.term = 0 → ∃ r' sent,
      (do let r₁ ← (r.modifyProgress id f).send m; Except.ok (r₁, true) : Result _) = .ok (r', sent) := by
    intro f m hkind hzero
    obtain ⟨ms, hms⟩ := send_total (r := r.modifyProgress id f) hkind hzero
    rw [hms]
    exact ⟨_, _, rfl⟩
  unfold Raft.maybeSendAppend
  simp only [hp]
  cases hpaused : p.isPaused with
  | true => exact ⟨r, false, rfl⟩
  | false =>
      rw [if_neg (by decide), hterm]
      rcases hlog.tail.entries_ok p.next r.maxMsgSize with ⟨es, hes⟩ | ⟨hlow, text, hes⟩
      · rw [hes]
        change ∃ r' sent, (if es = [] ∧ (!e) = true then Except.ok (r, false) else _) = _
        split
        · exact ⟨r, false, rfl⟩
        have hentries : ∀ q : Progress, ∃ r' sent, (do
            let r₁ ← (r.modifyProgress id fun _ => q).send
              { to_ := id, type := .msgApp, index := p.next - 1, logTerm := t, entries := es, commit := r.raftLog.committed }
            Except.ok (r₁, true) : Result _) = .ok (r', sent) := fun q => hsend _ _ rfl rfl
        simp only
        cases es.getLast? with
        | none => exact hentries p
        | some last =>
            obtain ⟨q, hq, -⟩ := hsound.send hpaused last.index
            simp only [hq]
            exact hentries q
      · rw [hes]
        have hheld := hlog.held (by have := hsound.next_pos; omega)
        change ∃ r' sent, (if [] = [] ∧ (!e) = true then Except.ok (r, false) else _) = _
        split
        · exact ⟨r, false, rfl⟩
        simp only [hheld, Bool.false_eq_true, if_false]
        split
        · exact ⟨r, false, rfl⟩
        · exact hsend _ { to_ := id, type := .msgSnap, snapshot := r.raftLog.snapshot } rfl rfl

theorem sendAppend_ok (hlog : r.raftLog.Servable) (hr : r.Windowed) (hid : (r.getProgress id).isSome) :
    ∃ r', r.sendAppend id = .ok r' := by
  obtain ⟨r', sent, h⟩ := maybeSendAppend_ok hlog hr hid true
  refine ⟨r', ?_⟩
  rw [Raft.sendAppend, h]
  rfl

theorem bcastAppend_ok (hlog : r.raftLog.Servable) (hr : r.Windowed) : ∃ r', r.bcastAppend = .ok r' := by
  -- the addressees stay members while messages go out
  have hloop : ∀ (ids : List Nat) (g : Raft), g.raftLog.Servable → g.Windowed → (∀ id ∈ ids, (g.getProgress id).isSome) →
      ∃ g', ids.foldlM (fun r id => r.sendAppend id) g = .ok g' := by
    intro ids
    induction ids with
    | nil => exact fun g _ _ _ => ⟨g, rfl⟩
    | cons id ids ih =>
        intro g hlog hg hids
        obtain ⟨g₁, hsend⟩ := sendAppend_ok hlog hg (hids id (List.mem_cons_self ..))
        have hposts := sendAppend_posts hsend
        have hids₁ : ∀ k ∈ ids, (g₁.getProgress k).isSome := by
          intro k hk
          have hpeer := hids k (List.mem_cons_of_mem _ hk)
          rwa [getProgress_isSome_iff, (SameMembers.of_posts hposts).progressIds, ← getProgress_isSome_iff]
        rw [List.foldlM_cons, hsend]
        exact ih g₁ (hposts.raftLog ▸ hlog) (sendAppend_windowed hg hsend) hids₁
  exact hloop _ r hlog hr fun id hid => getProgress_isSome_iff.mpr (List.mem_of_mem_filter hid)

end Sending

section Committing

/-- With a voter there is an index that a quorum has reached; it is committed if it is in the log and has
the term of the node. -/
theorem maybeCommit_ok (hlog : r.raftLog.Servable) (hr : r.Termless) (hvoter : r.prs.keys ≠ []) :
    ∃ c changed, r.maybeCommit = .ok ({ r with raftLog := { r.raftLog with committed := c } }, changed) ∧
      r.raftLog.committed ≤ c ∧ c ≤ r.raftLog.lastIndex := by
  have hlen : (AssocMap.values r.prs).length = r.prs.keys.length := by
    simp [AssocMap.values, AList.keys, List.keys]
  have hpos : 0 < r.prs.keys.length := List.length_pos_iff.mpr hvoter
  have hlast := hlog.tail.lastIndex
  have hcom := hlog.tail.committed_lt
  unfold Raft.maybeCommit
  simp only
  generalize hbuf : ((AssocMap.values r.prs).map Progress.matched).insertionSort (· ≤ ·) = buf
  have hbufLen : buf.length = r.prs.keys.length := by
    rw [← hbuf, List.length_insertionSort, List.length_map, hlen]
  have hindex : buf.length - r.quorum < buf.length := by
    rw [Raft.quorum]
    omega
  rw [if_neg (by rw [hbufLen, Raft.quorum]; omega), List.getElem?_eq_getElem hindex]
  simp only
  have hmem : buf[buf.length - r.quorum] ∈ (AssocMap.values r.prs).map Progress.matched := by
    rw [← List.mem_insertionSort (· ≤ ·), hbuf]
    exact List.getElem_mem hindex
  generalize buf[buf.length - r.quorum] = mci at hmem ⊢
  -- without a term the index is one of the log
  have hbound : r.term = 0 → mci ≤ r.raftLog.lastIndex := by
    intro hzero
    obtain ⟨p, hp, rfl⟩ := List.mem_map.mp hmem
    obtain ⟨⟨id, q⟩, hq, rfl⟩ := List.mem_map.mp hp
    exact (hr hzero).peers id q (Or.inl (AList.mem_lookup_iff.mpr hq))
  unfold RaftLog.maybeCommit
  by_cases hgt : mci > r.raftLog.committed
  · obtain ⟨t, ht⟩ := hlog.tail.term_ok mci
    rw [if_pos hgt, ht]
    simp only
    split
    · rename_i hsame
      have hin : mci ≤ r.raftLog.lastIndex := by
        by_contra hout
        rw [RaftLog.term, if_pos (Or.inr (Nat.not_le.mp hout))] at ht
        obtain rfl := Except.ok.inj ht
        exact hout (hbound hsame.symm)
      rw [RaftLog.commitTo, if_pos hgt, if_neg (by omega)]
      exact ⟨mci, true, rfl, by omega, hin⟩
    · exact ⟨r.raftLog.committed, false, rfl, le_rfl, by omega⟩
  · rw [if_neg hgt]
    exact ⟨r.raftLog.committed, false, rfl, le_rfl, by omega⟩

/-- A removal that leaves a voter goes through, and so does one that leaves nobody. -/
theorem removeNode_ok {id : Nat} (hlog : r.raftLog.Servable) (hw : r.Windowed) (hr : r.Termless)
    (hvoter : (r.delProgress id).prs.keys ≠ [] ∨ (r.delProgress id).learnerPrs.keys = []) :
    ∃ r', r.removeNode id = .ok r' := by
  unfold Raft.removeNode
  simp only
  split
  · exact ⟨_, rfl⟩
  rename_i hmember
  have hkeys : (r.delProgress id).prs.keys ≠ [] := by
    rcases hvoter with hne | hnil
    · exact hne
    · exact fun hprs => hmember ⟨hprs, hnil⟩
  have hdel : (r.delProgress id).Termless := fun hzero => ⟨(hr hzero).role, (hr hzero).peers.delProgress id⟩
  obtain ⟨c, changed, hcommit, hge, hle⟩ := maybeCommit_ok (r := r.delProgress id) hlog hdel hkeys
  have hwindowed : (r.delProgress id).Windowed := ⟨hw.limit, hw.peers.delProgress id⟩
  rw [hcommit]
  cases changed with
  | false => exact ⟨_, rfl⟩
  | true =>
      obtain ⟨r₂, hbcast⟩ := bcastAppend_ok
        (r := { r.delProgress id with raftLog := { (r.delProgress id).raftLog with committed := c } })
        (RaftLog.Servable.commits (l := (r.delProgress id).raftLog) hlog hge hle) (hwindowed.congr rfl ⟨rfl, rfl⟩)
      simp only [bind, Except.bind, if_true, hbcast]
      exact ⟨_, rfl⟩

/-- Without a voter there is no index to look for. -/
theorem maybeCommit_voterless (hprs : r.prs.keys = []) :
    r.maybeCommit = .error "match_buf_[match_buf_.size() - quorum()] out of range" := by
  have hvalues : AssocMap.values r.prs = [] := by
    have hlen : (AssocMap.values r.prs).length = r.prs.keys.length := by simp [AssocMap.values, AList.keys, List.keys]
    rw [hprs] at hlen
    exact List.eq_nil_of_length_eq_zero hlen
  unfold Raft.maybeCommit
  simp only [hvalues, List.map_nil, List.insertionSort_nil, List.length_nil, Raft.quorum]
  rw [if_pos (Nat.succ_pos _)]

theorem removeNode_voterless {id : Nat} (hprs : (r.delProgress id).prs.keys = [])
    (hlearner : (r.delProgress id).learnerPrs.keys ≠ []) :
    r.removeNode id = .error "match_buf_[match_buf_.size() - quorum()] out of range" := by
  unfold Raft.removeNode
  simp only
  rw [if_neg fun h => hlearner h.2, maybeCommit_voterless hprs]
  rfl

end Committing

end RaftEtcd
