import RaftEtcd.Serving

/-! What holds of a node and its storage together along every run. -/
namespace RaftEtcd

structure Driver.Healthy (s : Driver) (d : Nat) : Prop where
  anchored : Anchored s d
  windowed : s.node.raft.Windowed
  termless : s.node.raft.Termless
  configured : s.node.raft.Configured

/-- The index behind the unstable entries, which is the one behind the log. -/
def Unstable.reach (u : Unstable) : Nat := u.offset + u.entries.length

theorem Unstable.stableTo_reach (u : Unstable) (i t : Nat) : (u.stableTo i t).reach = u.reach := by
  rw [RaftLog.stableTo_eq]
  split
  · rename_i htakes
    obtain ⟨hge, hterm⟩ := htakes
    obtain ⟨e, he, -⟩ := Option.map_eq_some_iff.mp hterm
    obtain ⟨hlt, -⟩ := List.getElem?_eq_some_iff.mp he
    simp only [Unstable.reach, List.length_drop]
    omega
  · rfl

theorem Unstable.stableSnapTo_reach (u : Unstable) (i : Nat) : (u.stableSnapTo i).reach = u.reach := by
  obtain ⟨hoffset, hentries⟩ := stableSnapTo_parts u i
  rw [Unstable.reach, hoffset, hentries, Unstable.reach]

theorem advanceLog_reach {l : RaftLog} (rd : Ready) (hs : ∀ snap, l.unstable.snapshot = some snap → snap.metadata.index ≠ 0) :
    (RawNode.advanceLog l rd).unstable.reach = l.unstable.reach := by
  rw [advanceLog_unstable rd hs]
  cases rd.entries.getLast? with
  | none => exact Unstable.stableSnapTo_reach _ _
  | some e => exact (Unstable.stableTo_reach _ _ _).trans (Unstable.stableSnapTo_reach _ _)

/-- Nothing that a `Ready` held is unstable once it is reported. -/
theorem advanceLog_empties {l : RaftLog} {rd : Ready} (hidx : IndexedFrom l.unstable.offset l.unstable.entries)
    (hents : rd.entries = l.unstable.entries) (hsnap : rd.snapshot = l.unstable.snapshot.getD {})
    (hs : ∀ snap, l.unstable.snapshot = some snap → snap.metadata.index ≠ 0) :
    (RawNode.advanceLog l rd).unstable.snapshot = none ∧ (RawNode.advanceLog l rd).unstable.entries = [] := by
  have hgone : (l.unstable.stableSnapTo rd.snapshot.metadata.index).snapshot = none := by
    unfold Unstable.stableSnapTo
    cases h : l.unstable.snapshot with
    | none => exact h
    | some snap =>
        simp only
        rw [hsnap, h, Option.getD_some, if_pos rfl]
  obtain ⟨hoffset, hkept⟩ := stableSnapTo_parts l.unstable rd.snapshot.metadata.index
  rw [advanceLog_unstable rd hs, hents]
  cases hlast : l.unstable.entries.getLast? with
  | none => exact ⟨hgone, hkept.trans (List.getLast?_eq_none_iff.mp hlast)⟩
  | some e =>
      refine ⟨(stableTo_snapshot _ _ _).trans hgone, ?_⟩
      rw [List.getLast?_eq_getElem?] at hlast
      have hindex := hidx _ e hlast
      obtain ⟨hlt, -⟩ := List.getElem?_eq_some_iff.mp hlast
      rw [Option.elim_some, RaftLog.stableTo_eq, if_pos ?_]
      · simp only [hkept, hoffset]
        exact List.drop_eq_nil_of_le (by omega)
      · rw [hkept, hoffset, show e.index - l.unstable.offset = l.unstable.entries.length - 1 by omega, hlast]
        exact ⟨by omega, rfl⟩

namespace Driver
variable {s s' : Driver} {d : Nat}

/-- A pending snapshot is never the empty one. -/
theorem pending_pos (h : Anchored s d) {snap : Snapshot} (hs : s.log.unstable.snapshot = some snap) :
    0 < snap.metadata.index := by
  cases hout : s.outstanding with
  | none =>
      have := ((h.delivered.waiting hout).pending snap hs).1
      omega
  | some p =>
      have := ((h.delivered.handing p.1 p.2 hout).pending snap hs).1
      omega

/-- A node and its storage as far as neither the windows nor the configuration matter. -/
structure Grounded (s : Driver) (d : Nat) : Prop where
  anchored : Anchored s d
  termless : s.node.raft.Termless

namespace Grounded

/-- The log ends where it ended before, and nothing is known of the peers that was not known. -/
theorem termless_of (h : s.node.raft.Termless) (htail : s.log.Tail 0) (htail' : s'.log.Tail 0)
    (hterm : s'.node.raft.term = s.node.raft.term) (hstate : s'.node.raft.state = s.node.raft.state)
    (hreach : s'.log.unstable.reach = s.log.unstable.reach) (hpeers : SamePeers s.node.raft s'.node.raft) :
    s'.node.raft.Termless := by
  intro hzero
  refine (h (hterm.symm.trans hzero)).congr hstate ?_ hpeers
  have hlast := htail.lastIndex
  have hlast' := htail'.lastIndex
  simp only [Unstable.reach] at hreach
  change s'.log.lastIndex = s.log.lastIndex
  omega

theorem call (h : s.Grounded d) {a : NodeAction} {n : RawNode} (ha : a.IsCall) (hrun : s.node.run a = .ok n) :
    Grounded { s with node := n } d :=
  ⟨h.anchored.call ha hrun, call_termless ha h.termless hrun⟩

theorem ready (h : s.Grounded d) {rd : Ready} {n : RawNode} (hout : s.outstanding = none) (hrd : s.node.ready = .ok (rd, n)) :
    Grounded { node := n, outstanding := some (rd, false), handed := s.handed ++ [(s.log, rd)] } (rd.reaches d) := by
  have hanchored := h.anchored.ready hout hrd
  have hkeeps := ready_keeps hrd
  refine ⟨hanchored, termless_of h.termless h.anchored.tail hanchored.tail hkeeps.term hkeeps.state ?_ ?_⟩
  · rw [Driver.log, hkeeps.raftLog]
    rfl
  · rw [ready_frame hrd]
    exact ⟨rfl, rfl⟩

theorem setStorage (h : s.Grounded d) {st : MemoryStorage} {out : Option (Ready × Bool)}
    (hanchored : Anchored { s.setStorage st with outstanding := out } d) :
    Grounded { s.setStorage st with outstanding := out } d :=
  ⟨hanchored, termless_of h.termless h.anchored.tail hanchored.tail rfl rfl rfl ⟨rfl, rfl⟩⟩

theorem advance (h : s.Grounded d) {rd : Ready} {st : MemoryStorage} (hout : s.outstanding = some (rd, true))
    (hmay : s.MayAdvance rd) (hst : s.log.storage.Tidied (max s.log.applied rd.appliedCursor) st) :
    Grounded { s.setStorage st with node := (s.setStorage st).node.advance rd, outstanding := none } d := by
  have hanchored := h.anchored.advance hout hmay hst
  have hpos : ∀ snap, (s.setStorage st).log.unstable.snapshot = some snap → snap.metadata.index ≠ 0 := by
    intro snap hs
    have : 0 < snap.metadata.index := pending_pos h.anchored hs
    omega
  exact ⟨hanchored, termless_of h.termless h.anchored.tail hanchored.tail rfl rfl (advanceLog_reach rd hpos) ⟨rfl, rfl⟩⟩

theorem move (h : s.Grounded d) (hs : Driver.Move s s') : ∃ d', s'.Grounded d' := by
  cases hs with
  | call ha hrun => exact ⟨d, h.call ha hrun⟩
  | @ready rd n hout hrd => exact ⟨rd.reaches d, h.ready hout hrd⟩
  | persist hout hst => exact ⟨d, h.setStorage (h.anchored.persist hout hst)⟩
  | tidy hst => exact ⟨d, h.setStorage (h.anchored.tidy hst)⟩
  | advance hout hmay hst => exact ⟨d, h.advance hout hmay hst⟩

end Grounded

namespace Healthy

theorem grounded (h : s.Healthy d) : s.Grounded d := ⟨h.anchored, h.termless⟩

theorem call (h : s.Healthy d) {a : NodeAction} {n : RawNode} (ha : a.IsCall) (hrun : s.node.run a = .ok n) :
    Healthy { s with node := n } d :=
  have hgrounded := h.grounded.call ha hrun
  ⟨hgrounded.anchored, run_windowed h.windowed hrun, hgrounded.termless, run_configured h.configured hrun⟩

theorem ready (h : s.Healthy d) {rd : Ready} {n : RawNode} (hout : s.outstanding = none) (hrd : s.node.ready = .ok (rd, n)) :
    Healthy { node := n, outstanding := some (rd, false), handed := s.handed ++ [(s.log, rd)] } (rd.reaches d) := by
  have hgrounded := h.grounded.ready hout hrd
  have hrun : s.node.run .ready = .ok n := by
    change Prod.snd <$> s.node.ready = _
    rw [hrd]
    rfl
  exact ⟨hgrounded.anchored, run_windowed h.windowed hrun, hgrounded.termless, run_configured h.configured hrun⟩

theorem setStorage (h : s.Healthy d) {st : MemoryStorage} {out : Option (Ready × Bool)}
    (hanchored : Anchored { s.setStorage st with outstanding := out } d) :
    Healthy { s.setStorage st with outstanding := out } d := by
  refine ⟨hanchored, ?_, (h.grounded.setStorage hanchored).termless, ?_⟩
  · exact h.windowed.congr rfl ⟨rfl, rfl⟩
  · exact h.configured.congr (.of_same rfl rfl ⟨rfl, rfl⟩)

theorem advance (h : s.Healthy d) {rd : Ready} {st : MemoryStorage} (hout : s.outstanding = some (rd, true))
    (hmay : s.MayAdvance rd) (hst : s.log.storage.Tidied (max s.log.applied rd.appliedCursor) st) :
    Healthy { s.setStorage st with node := (s.setStorage st).node.advance rd, outstanding := none } d := by
  have hgrounded := h.grounded.advance hout hmay hst
  refine ⟨hgrounded.anchored, ?_, hgrounded.termless, ?_⟩
  · exact h.windowed.congr rfl ⟨rfl, rfl⟩
  · exact h.configured.congr (.of_same rfl rfl ⟨rfl, rfl⟩)

theorem move (h : s.Healthy d) (hs : Driver.Move s s') : ∃ d', s'.Healthy d' := by
  cases hs with
  | call ha hrun => exact ⟨d, h.call ha hrun⟩
  | @ready rd n hout hrd => exact ⟨rd.reaches d, h.ready hout hrd⟩
  | persist hout hst => exact ⟨d, h.setStorage (h.anchored.persist hout hst)⟩
  | tidy hst => exact ⟨d, h.setStorage (h.anchored.tidy hst)⟩
  | advance hout hmay hst => exact ⟨d, h.advance hout hmay hst⟩

theorem moves (h : s.Healthy d) (hs : Driver.Moves s s') : ∃ d', s'.Healthy d' := by
  induction hs with
  | refl => exact ⟨d, h⟩
  | tail _ hstep ih =>
      obtain ⟨d', h'⟩ := ih
      exact h'.move hstep

/-- With a snapshot of what is compacted, the log can serve every peer. -/
theorem servable (h : s.Healthy d) (hkept : s.log.storage.dummy.index ≤ s.log.storage.snapshot.metadata.index) :
    s.log.Servable := by
  refine ⟨h.anchored.tail, fun hfirst => ?_⟩
  have hempty : ∀ snap : Snapshot, 0 < snap.metadata.index → snap.isEmpty = false := by
    intro snap hpos
    rw [Snapshot.isEmpty, beq_eq_false_iff_ne]
    omega
  unfold RaftLog.snapshot
  cases hs : s.log.unstable.snapshot with
  | some snap => exact hempty snap (pending_pos h.anchored hs)
  | none =>
      simp only [RaftLog.firstIndex, Unstable.maybeFirstIndex, hs, Option.map_none, MemoryStorage.firstIndex] at hfirst
      exact hempty s.log.storage.snapshot (by omega)

end Healthy

theorem started_grounded {c : Config} {n : RawNode} (hc : c.Sound)
    (h : RawNode.restartNode c = .ok n ∨ ∃ serialize peers, RawNode.startNode serialize c peers = .ok n) :
    ∃ d, Grounded { node := n } d := by
  obtain ⟨d, hanchored⟩ := started_anchored hc h
  exact ⟨d, hanchored, started_termless h⟩

theorem started_healthy {c : Config} {n : RawNode} (hc : c.Sound) (hmax : c.maxInflightMsgs % 2 ^ 32 ≤ 2 ^ 31)
    (h : RawNode.restartNode c = .ok n ∨ ∃ serialize peers, RawNode.startNode serialize c peers = .ok n) :
    ∃ d, Healthy { node := n } d := by
  obtain ⟨d, hanchored, htermless⟩ := started_grounded hc h
  exact ⟨d, hanchored, started_windowed hmax h, htermless, started_configured h⟩

end Driver

end RaftEtcd
