import RaftEtcd.LogicalLog.Stable

/-! Every history of a log, as the state machine and the application drive it, is a history of the
logical log. -/
namespace RaftEtcd

/-- The calls that change a log or its storage. -/
inductive LogOp where
  | append (entries : List Entry)
  | maybeAppend (index logTerm committed : Nat) (entries : List Entry)
  | commitTo (index : Nat)
  | restore (snapshot : Snapshot)
  | persist
  | appliedTo (index : Nat)
  | stableTo (index term : Nat)
  | stableSnapTo (index : Nat)
  | advance (rd : Ready)
  | compact (index : Nat)

namespace LogOp

def run (l : RaftLog) : LogOp → Result RaftLog
  | append entries => l.append entries
  | maybeAppend index logTerm committed entries => do
      let (l, _) ← l.maybeAppend index logTerm committed entries
      .ok l
  | commitTo index => l.commitTo index
  | restore snapshot => .ok (l.restore snapshot)
  | persist => l.persist
  | appliedTo index => .ok (l.appliedTo index)
  | stableTo index term => .ok (l.stableTo index term)
  | stableSnapTo index => .ok (l.stableSnapTo index)
  | advance rd => .ok (RawNode.advanceLog l rd)
  | compact index => do
      let (_, st) ← l.storage.compact index
      .ok { l with storage := st }

/-- What the call means for the logical log. -/
def act (g : LogicalLog) : LogOp → LogicalLog
  | append entries => g.append entries
  | maybeAppend index logTerm _ entries => g.maybeAppend index logTerm entries
  | restore snapshot => LogicalLog.restore snapshot
  | compact index => g.compact index
  | _ => g

/-- An index that is reported applied lies ahead and is stored, or below the pending snapshot. -/
def MayApply (l : RaftLog) (i : Nat) : Prop :=
  l.applied ≤ i ∧ i ≤ l.committed ∧ (l.unstable.snapshot = none → l.Persisted i) ∧
    ∀ s, l.unstable.snapshot = some s → i < s.metadata.index

/-- Entries that are reported stable are stored. While a snapshot is pending, it is stored too, and
the last unstable entry is not among them. -/
def MayStable (l : RaftLog) (i t : Nat) : Prop :=
  l.Takes i t → l.Persisted i ∧ ∀ s, l.unstable.snapshot = some s →
    l.storage.snapshot.metadata.index = s.metadata.index ∧ i < l.lastIndex

def MayStableSnap (l : RaftLog) (i : Nat) : Prop :=
  ∀ s, l.unstable.snapshot = some s → s.metadata.index = i →
    l.storage.snapshot.metadata.index = s.metadata.index

/-- What the callers keep to: entries are numbered, a snapshot is ahead of the commit index, what is
reported was stored, and only applied entries are compacted. The reports of one `advance` count
together, as if the snapshot were reported first. -/
def Allowed (l : RaftLog) : LogOp → Prop
  | append entries => ∃ i, 1 ≤ i ∧ IndexedFrom i entries
  | maybeAppend index _ _ entries => IndexedFrom (index + 1) entries
  | restore snapshot => l.committed < snapshot.metadata.index
  | appliedTo i => MayApply l i
  | stableTo i t => MayStable l i t
  | stableSnapTo i => MayStableSnap l i
  | advance rd =>
      MayStableSnap l rd.snapshot.metadata.index ∧
      (0 < rd.appliedCursor → MayApply (l.stableSnapTo rd.snapshot.metadata.index) rd.appliedCursor) ∧
      ∀ e, rd.entries.getLast? = some e → MayStable (l.stableSnapTo rd.snapshot.metadata.index) e.index e.term
  | compact i => i ≤ l.applied
  | _ => True

end LogOp

inductive LogRuns : RaftLog → List LogOp → RaftLog → Prop
  | nil (l : RaftLog) : LogRuns l [] l
  | cons {l l₁ l' : RaftLog} {op : LogOp} {ops : List LogOp} :
      op.Allowed l → op.run l = .ok l₁ → LogRuns l₁ ops l' → LogRuns l (op :: ops) l'

variable {l l' : RaftLog}

/-- A storage as a log starts on it. -/
structure MemoryStorage.Numbered (st : MemoryStorage) : Prop where
  indexed : IndexedFrom (st.dummy.index + 1) st.ents
  snapshot_le : st.snapshot.metadata.index ≤ st.dummy.index

namespace RaftLog

theorem new_coupled {st : MemoryStorage} (h : st.Numbered) (limit : Nat) : (RaftLog.new st limit).Coupled := by
  refine ⟨h.indexed, .nil _, le_rfl, ?_, le_rfl, h.snapshot_le, fun _ => ?_, nofun⟩
  · simp only [RaftLog.new, MemoryStorage.firstIndex, MemoryStorage.lastIndex, List.length_nil]
    omega
  · refine ⟨le_rfl, fun _ => rfl, fun hle => ?_, fun hle => ?_, fun k hk hd hle => ?_, fun hend => ?_⟩ <;>
      simp only [RaftLog.new, MemoryStorage.firstIndex, MemoryStorage.lastIndex, List.length_nil] at * <;> omega

namespace Coupled

theorem advance (h : l.Coupled) {rd : Ready} (hg : (LogOp.advance rd).Allowed l) :
    (RawNode.advanceLog l rd).Coupled ∧ (RawNode.advanceLog l rd).logical = l.logical := by
  obtain ⟨hsnap, happly, hstable⟩ := hg
  rw [advanceLog_eq rd fun s hs => by have := (h.pending s hs).1; omega]
  obtain ⟨h₁, hl₁⟩ := h.stableSnapTo hsnap
  rw [← hl₁]
  generalize l.stableSnapTo rd.snapshot.metadata.index = l₁ at *
  -- reporting what is applied leaves the places as they are
  have hafter : (if rd.appliedCursor > 0 then l₁.appliedTo rd.appliedCursor else l₁).Coupled ∧
      (if rd.appliedCursor > 0 then l₁.appliedTo rd.appliedCursor else l₁).logical = l₁.logical ∧
      ∃ a, (if rd.appliedCursor > 0 then l₁.appliedTo rd.appliedCursor else l₁) = { l₁ with applied := a } := by
    split
    · rename_i hpos
      obtain ⟨hle, hlt, hp, hs⟩ := happly hpos
      obtain ⟨hc, hl⟩ := h₁.appliedTo hle hlt hp hs
      refine ⟨hc, hl, rd.appliedCursor, ?_⟩
      rw [RaftLog.appliedTo, if_neg (by omega)]
    · exact ⟨h₁, rfl, l₁.applied, rfl⟩
  obtain ⟨h₂, hl₂, a, ha⟩ := hafter
  simp only
  rw [ha] at h₂ hl₂ ⊢
  cases he : rd.entries.getLast? with
  | none => exact ⟨h₂, hl₂⟩
  | some e =>
      have hkeep : LogOp.MayStable { l₁ with applied := a } e.index e.term := by
        intro htakes
        obtain ⟨hp, hs⟩ := hstable e he htakes
        exact ⟨⟨hp.entries, hp.ends⟩, hs⟩
      obtain ⟨h₃, hl₃⟩ := h₂.stableTo hkeep
      exact ⟨h₃, hl₃.trans hl₂⟩

/-- One call keeps the places together and does to the log what it is meant to do. -/
theorem step (h : l.Coupled) {op : LogOp} (hg : op.Allowed l) (hr : op.run l = .ok l') :
    l'.Coupled ∧ l'.logical = op.act l.logical := by
  cases op with
  | append entries =>
      obtain ⟨i, hi, hidx⟩ := hg
      exact h.append hi hidx hr
  | maybeAppend index logTerm committed entries =>
      obtain ⟨⟨l₁, ok⟩, h₁, hr⟩ := bind_ok hr
      obtain rfl := Except.ok.inj hr
      exact h.maybeAppend hg h₁
  | commitTo index => exact h.commitTo hr
  | restore snapshot =>
      obtain rfl := Except.ok.inj hr
      exact h.restore hg
  | persist =>
      obtain ⟨st, hst, hc, hl, -⟩ := h.persist
      obtain rfl := Except.ok.inj (hst.symm.trans hr)
      exact ⟨hc, hl⟩
  | appliedTo index =>
      obtain rfl := Except.ok.inj hr
      obtain ⟨hle, hlt, hp, hs⟩ := hg
      exact h.appliedTo hle hlt hp hs
  | stableTo index term =>
      obtain rfl := Except.ok.inj hr
      exact h.stableTo hg
  | stableSnapTo index =>
      obtain rfl := Except.ok.inj hr
      exact h.stableSnapTo hg
  | advance rd =>
      obtain rfl := Except.ok.inj hr
      exact h.advance hg
  | compact index =>
      obtain ⟨⟨status, st⟩, hst, hr⟩ := bind_ok hr
      obtain rfl := Except.ok.inj hr
      exact h.compact hg hst

theorem run (h : l.Coupled) {ops : List LogOp} (hr : LogRuns l ops l') :
    l'.Coupled ∧ l'.logical = ops.foldl LogOp.act l.logical := by
  induction hr with
  | nil l => exact ⟨h, rfl⟩
  | cons hg h₁ _ ih =>
      obtain ⟨hc, hl⟩ := h.step hg h₁
      obtain ⟨hc', hl'⟩ := ih hc
      exact ⟨hc', by rw [hl', hl, List.foldl_cons]⟩

/-- Once everything is stored, every report leaves the log as it is. -/
theorem reports (h : l.Coupled) : ∃ l', l.persist = .ok l' ∧ l'.logical = l.logical ∧
    (∀ i t, (l'.stableTo i t).logical = l.logical) ∧ ∀ i, (l'.stableSnapTo i).logical = l.logical := by
  obtain ⟨st, hst, hc, hl, hp, hv⟩ := h.persist
  refine ⟨_, hst, hl, fun i t => ?_, fun i => ?_⟩
  · by_cases htakes : ({ l with storage := st } : RaftLog).Takes i t
    · rw [stableTo_of_takes htakes]
      exact (stable_logical hc.aligned (hp i) htakes.1 htakes.lt rfl).2.trans hl
    · rw [stableTo_of_not_takes htakes]
      exact hl
  · exact (hc.stableSnapTo fun s hs _ => (hv s hs).stored).2.trans hl

end Coupled

end RaftLog

/-- A log that starts on a stored one answers as the logical log does after every history, keeps its
unstable entries numbered from the offset on, and can always be stored; what is then reported
stable changes where the log is kept and not what it says. -/
theorem raft_log_refines_logical_log {st : MemoryStorage} {limit : Nat} {ops : List LogOp} {l : RaftLog}
    (hst : st.Numbered) (h : LogRuns (RaftLog.new st limit) ops l) :
    l.logical = ops.foldl LogOp.act (RaftLog.new st limit).logical ∧
      l.firstIndex = l.logical.firstIndex ∧ l.lastIndex = l.logical.lastIndex ∧
      (∀ i, l.term i = .ok (l.logical.termOf i)) ∧ (∀ i t, l.matchTerm i t = l.logical.matchTerm i t) ∧
      (∀ k e, l.unstable.entries[k]? = some e → e.index = l.unstable.offset + k) ∧
      ∃ l', l.persist = .ok l' ∧ l'.logical = l.logical ∧
        (∀ i t, (l'.stableTo i t).logical = l.logical) ∧ ∀ i, (l'.stableSnapTo i).logical = l.logical := by
  obtain ⟨hc, hl⟩ := (RaftLog.new_coupled hst limit).run h
  exact ⟨hl, RaftLog.firstIndex_eq l, hc.lastIndex_eq, hc.term_eq, hc.matchTerm_eq, hc.indexed, hc.reports⟩

/-- A snapshot of the first five entries and the entry behind it. -/
def snapshotAtFive : Snapshot := { metadata := { index := 5, term := 2 } }

def sixthEntry : Entry := { index := 6, term := 2 }

/-- The snapshot comes in with the entry behind it, and both are stored. -/
def installedLog : RaftLog :=
  { storage :=
      { snapshot := snapshotAtFive, dummy := { index := 5, term := 2 }, ents := [sixthEntry] }
    unstable := { snapshot := some snapshotAtFive, entries := [sixthEntry], offset := 6 }
    committed := 5
    applied := 0
    maxNextEntsSize := 0 }

theorem installedLog_runs {ops : List LogOp} (h : LogRuns installedLog ops l) :
    LogRuns (RaftLog.new {} 0) (.restore snapshotAtFive :: .append [sixthEntry] :: .persist :: ops) l := by
  have hsix : IndexedFrom 6 [sixthEntry] := by
    intro k e hk
    cases k with
    | zero =>
        obtain rfl := Option.some.inj hk
        rfl
    | succ k => cases hk
  exact .cons (by decide : 0 < 5) rfl (.cons ⟨6, by decide, hsix⟩ rfl (.cons trivial rfl h))

theorem raft_log_refines_installed_snapshot :
    ∃ l, LogRuns (RaftLog.new {} 0)
        [.restore snapshotAtFive, .append [sixthEntry], .persist,
          .advance { entries := [sixthEntry], snapshot := snapshotAtFive }, .compact 5] l ∧
      l.firstIndex = 6 ∧ l.lastIndex = 6 ∧ l.term 6 = .ok 2 ∧ l.unstable.snapshot = none := by
  have hpersisted : ∀ i, i = 5 ∨ i = 6 → (installedLog.stableSnapTo 5).Persisted i := by
    rintro i hi
    refine ⟨fun k hk _ hle => ?_, fun hend => ?_⟩
    · have : (6 : Nat) ≤ k := hk
      obtain rfl : k = 6 := by omega
      rfl
    · have : i + 1 = 6 + 1 := hend
      exact (by omega : 6 ≤ i)
  have hadvance : (LogOp.advance { entries := [sixthEntry], snapshot := snapshotAtFive }).Allowed installedLog := by
    refine ⟨fun s hs _ => ?_, fun _ => ⟨by decide, by decide, fun _ => hpersisted 5 (Or.inl rfl), nofun⟩,
      fun e he _ => ?_⟩
    · obtain rfl := Option.some.inj hs
      rfl
    · obtain rfl := Option.some.inj he
      exact ⟨hpersisted 6 (Or.inr rfl), nofun⟩
  have hcompact : (LogOp.compact 5).Allowed
      (RawNode.advanceLog installedLog { entries := [sixthEntry], snapshot := snapshotAtFive }) :=
    (by decide : 5 ≤ 5)
  have hruns := installedLog_runs (.cons hadvance rfl (.cons hcompact rfl (.nil _)))
  have hfresh : MemoryStorage.Numbered {} := ⟨.nil _, le_rfl⟩
  obtain ⟨-, -, hlast, hterm, -⟩ := raft_log_refines_logical_log hfresh hruns
  exact ⟨_, hruns, by decide, hlast.trans (by decide), (hterm 6).trans (by decide), rfl⟩

/-- The same two reports, but with the log read between them: the snapshot is still pending and no
entry is unstable any more, so the snapshot counts as the end of a log that goes on behind it. -/
theorem stable_entry_behind_pending_snapshot :
    ∃ l, [.restore snapshotAtFive, .append [sixthEntry], .persist, .stableTo 6 2].foldlM LogOp.run
        (RaftLog.new {} 0) = .ok l ∧
      l.storage.ents = [sixthEntry] ∧ l.lastIndex = 5 ∧ l.logical.lastIndex = 6 ∧
      l.matchTerm 6 2 = false ∧ l.logical.matchTerm 6 2 = true :=
  ⟨_, rfl, rfl, by decide, by decide, by decide, by decide⟩

end RaftEtcd
