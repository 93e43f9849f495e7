import RaftEtcd.Recover
import RaftEtcd.Roles
import RaftEtcd.Threads

/-! One round of the loop on a process that is running. Every write is followed by the disk that it
leaves: while nothing comes from a leader's snapshot, a process can start from each of them; a
snapshot that is being installed leaves a gap until its file is there. -/
namespace RaftEtcd

open Snapshotter
open Journal (Prog Safe)

variable {mp : Msgpack} {crc : Bytes → UInt32} {κ : Type} {x t : Nat} {vs buf ws : List WalItem}
  {s s' : RaftNode κ}

/-! ### Programs on a process -/

/-- Started on the disk of `s`, the program leaves disks that `C` holds of, and ends in a process that
the disk belongs to. -/
def Guarded (C : Disk → Prop) (Q : RaftNode κ → Prop) (s : RaftNode κ) (p : Proc (RaftNode κ)) : Prop :=
  Safe Disk.write C (fun s' d => d = s'.disk ∧ Q s') s.disk p

namespace Guarded
variable {C : Disk → Prop} {Q R : RaftNode κ → Prop} {α : Type}

theorem pure (hc : C s.disk) (hdisk : s.disk = s'.disk) (hq : Q s') : Guarded C Q s (Pure.pure s') :=
  Safe.pure hc ⟨hdisk, hq⟩

theorem mono {D : Disk → Prop} {p : Proc (RaftNode κ)} (hp : Guarded C Q s p) (hc : ∀ d, C d → D d) : Guarded D Q s p :=
  ⟨fun ws hws => hc _ (hp.crash ws hws), hp.ends⟩

theorem weaken {p : Proc (RaftNode κ)} (hp : Guarded C Q s p) (hq : ∀ s', Q s' → R s') : Guarded C R s p :=
  ⟨hp.crash, fun s' hs' => ⟨(hp.ends s' hs').1, hq s' (hp.ends s' hs').2⟩⟩

/-- The disk that is there at the end is one of those on the way. -/
theorem settled {p : Proc (RaftNode κ)} (hp : Guarded C Q s p) : Guarded C (fun s' => C s'.disk ∧ Q s') s p := by
  refine ⟨hp.crash, fun s' hs' => ?_⟩
  obtain ⟨hdisk, hq⟩ := hp.ends s' hs'
  refine ⟨hdisk, ?_, hq⟩
  rw [← hdisk]
  exact hp.crash _ (List.prefix_refl _)

theorem bind {p : Proc (RaftNode κ)} {f : RaftNode κ → Proc (RaftNode κ)} (hp : Guarded C Q s p)
    (hf : ∀ s', Q s' → Guarded C R s' (f s')) : Guarded C R s (p >>= f) := by
  refine Safe.bind hp fun s' d _ hq => ?_
  obtain ⟨rfl, hq⟩ := hq
  exact hf s' hq

/-- A computation that writes nothing comes first. -/
theorem lift {y : Result α} {f : α → Proc (RaftNode κ)} (hc : C s.disk) (hf : ∀ a, y = .ok a → Guarded C R s (f a)) :
    Guarded C R s (liftM y >>= f) := by
  refine Safe.bind (Q := fun _ d => d = s.disk) (Safe.ofExcept hc fun _ _ => rfl) fun a d ha hd => ?_
  subst hd
  exact hf a ha

/-- Or last. -/
theorem result {y : Result (RaftNode κ)} (hc : C s.disk) (hq : ∀ s', y = .ok s' → s.disk = s'.disk ∧ Q s') :
    Guarded C Q s (liftM y) := by
  change Safe Disk.write C (fun s' d => d = s'.disk ∧ Q s') s.disk (Prog.ofExcept y)
  exact Safe.ofExcept hc hq

theorem error {msg : String} (hc : C s.disk) : Guarded C Q s (Prog.ofExcept (.error msg)) :=
  Safe.ofExcept hc fun _ h => by cases h

theorem ite {c : Prop} [Decidable c] {p q : Proc (RaftNode κ)} (hp : c → Guarded C Q s p) (hq : ¬ c → Guarded C Q s q) :
    Guarded C Q s (if c then p else q) :=
  Safe.ite hp hq

theorem of_disk (s' : RaftNode κ) {p : Proc (RaftNode κ)} (h : s'.disk = s.disk) (hp : Guarded C Q s' p) : Guarded C Q s p := by
  rw [Guarded, ← h]
  exact hp

end Guarded

/-! ### Writing -/

theorem map_initial {α β : Type} {f : α → β} {as : List α} {bs : List β} (h : bs <+: as.map f) :
    ∃ as', as' <+: as ∧ bs = as'.map f := by
  refine ⟨as.take bs.length, List.take_prefix _ _, ?_⟩
  rw [List.map_take]
  exact List.prefix_iff_eq_take.mp h

theorem write_wal (d : Disk) (bs : Bytes) :
    (bs.map DiskWrite.wal).foldl Disk.write d = { d with wal := d.wal ++ bs } := by
  induction bs generalizing d with
  | nil => rw [List.map_nil, List.foldl_nil, List.append_nil]
  | cons b bs ih =>
      rw [List.map_cons, List.foldl_cons, ih]
      simp [Disk.write]

theorem write_snap (d : Disk) (name : Bytes) (contents : List Bytes) (content : Bytes) :
    ((contents ++ [content]).map (DiskWrite.snap name)).foldl Disk.write d =
      { d with snaps := d.snaps.insert name content } := by
  induction contents generalizing d with
  | nil => rfl
  | cons c contents ih =>
      rw [List.cons_append, List.map_cons, List.foldl_cons, ih]
      simp [Disk.write, AList.insert_insert]

/-- A call on the log that adds to it. -/
theorem walCall_guarded {C : Disk → Prop} {Q : RaftNode κ → Prop} {f : Wal → Wal}
    (hgrow : s.wal.backContent <+: (f s.wal).backContent)
    (hcrash : ∀ b, s.wal.backContent <+: b → b <+: (f s.wal).backContent → C { wal := b, snaps := s.snaps })
    (hq : Q { s with wal := f s.wal }) : Guarded C Q s (s.walCall f) := by
  obtain ⟨bs, hbs⟩ := hgrow
  have hdrop : (f s.wal).backContent.drop s.wal.backContent.length = bs := by rw [← hbs, List.drop_left]
  unfold RaftNode.walCall
  rw [hdrop]
  refine Safe.emit (fun ws hws => ?_) ⟨?_, hq⟩
  · obtain ⟨bs', hbs', rfl⟩ := map_initial hws
    rw [write_wal]
    refine hcrash _ (List.prefix_append _ _) ?_
    rw [← hbs]
    exact (List.prefix_append_right_inj _).mpr hbs'
  · rw [write_wal, RaftNode.disk, RaftNode.disk, ← hbs]

/-- A file that is written byte by byte. -/
theorem snap_guarded {C : Disk → Prop} {Q : RaftNode κ → Prop} {name content : Bytes} {snaps : SnapDir}
    (hstart : C s.disk)
    (hcrash : ∀ part, part <+: content → C { wal := s.wal.backContent, snaps := s.snaps.insert name part })
    (hsnaps : snaps = s.snaps.insert name content) (hq : Q { s with snaps := snaps }) :
    Guarded C Q s (Prog.emit (content.inits.map (.snap name)) { s with snaps := snaps }) := by
  have hwrite : ∀ parts, parts <+: content.inits → parts ≠ [] → ∃ part, part <+: content ∧
      (parts.map (DiskWrite.snap name)).foldl Disk.write s.disk =
        { wal := s.wal.backContent, snaps := s.snaps.insert name part } := by
    intro parts hparts hne
    obtain ⟨init, part, rfl⟩ := List.eq_nil_or_concat parts |>.resolve_left hne
    refine ⟨part, List.mem_inits _ _ |>.mp (hparts.subset (by simp)), ?_⟩
    rw [List.concat_eq_append, write_snap]
    rfl
  refine Safe.emit (fun ws hws => ?_) ⟨?_, hq⟩
  · obtain ⟨parts, hparts, rfl⟩ := map_initial hws
    by_cases hne : parts = []
    · rw [hne]
      exact hstart
    · obtain ⟨part, hpart, heq⟩ := hwrite parts hparts hne
      rw [heq]
      exact hcrash part hpart
  · have hlast : content.inits = content.inits.dropLast ++ [content] := by
      induction content using List.reverseRecOn with
      | nil => rfl
      | append_singleton as a ih => simp [List.inits_append]
    rw [hlast, write_snap, hsnaps]
    rfl

/-! ### What a round is about -/

theorem ready_hardState {n n' : RawNode} {rd : Ready} (h : n.ready = .ok (rd, n')) :
    rd.hardState = (if n.raft.hardState ≠ n.prevHardState then n.raft.hardState else {}) ∧
      n'.prevHardState = n.prevHardState := by
  obtain ⟨rd₁, hrd, h⟩ := bind_ok h
  obtain ⟨rfl, rfl⟩ := Prod.mk.inj (Except.ok.inj h)
  obtain ⟨ces, -, hrd⟩ := bind_ok hrd
  obtain rfl := Except.ok.inj hrd
  exact ⟨rfl, rfl⟩

section Ready
variable {rd : Ready} {n : RawNode}

/-- When a `Ready` is saved, everything that is committed is so in the records. -/
theorem Live.commit_saved (h : Live mp crc x t vs buf s) (hrd : s.node.ready = .ok (rd, n)) (es : List Entry) :
    itemCommit (vs ++ buf ++ saveItems rd.hardState es) = s.log.committed := by
  have hge := h.log.committed_ge
  have hprev := h.prev
  have hcommit : s.node.raft.hardState.commit = s.log.committed := rfl
  rw [itemCommit_saves, (ready_hardState hrd).1]
  by_cases hsame : s.node.raft.hardState = s.node.prevHardState
  · rw [if_neg (not_not.mpr hsame), if_pos (show HardState.isEmptyState {} = true from rfl)]
    rw [← hsame, hcommit] at hprev
    omega
  · rw [if_pos hsame]
    split
    · rename_i hempty
      rw [HardState.eq_of_isEmptyState hempty] at hcommit
      have : s.log.committed = 0 := hcommit.symm
      omega
    · exact hcommit

theorem Live.hardState_saved (hrd : s.node.ready = .ok (rd, n)) (hne : rd.hardState.isEmptyState = false) :
    rd.hardState = s.node.raft.hardState := by
  have heq := (ready_hardState hrd).1
  split at heq
  · exact heq
  · rw [heq] at hne
    cases hne

/-- What is handed out to be applied is a piece of the log up to what is committed. -/
theorem Live.handed_piece (h : Live mp crc x t vs buf s) (hrd : s.node.ready = .ok (rd, n)) :
    s.log.Piece (max s.log.applied s.log.logical.index + 1) (s.log.committed + 1) rd.committedEntries ∧
      rd.snapshot.metadata.index ≤ s.log.committed := by
  obtain ⟨hnext, -, hsnap, -⟩ := ready_spec hrd
  have hstored := h.log.stored h.all
  have hdummy := h.log.dummy_le
  have hcom := h.log.committed_ge
  have happ := h.log.applied_le
  have hbase : s.log.storage.dummy.index ≤ s.log.logical.index ∧ s.log.logical.index ≤ s.log.committed ∧
      rd.snapshot.metadata.index ≤ s.log.committed := by
    rw [show rd.snapshot = s.log.unstable.snapshot.getD {} from hsnap]
    cases hs : s.log.unstable.snapshot with
    | none =>
        rw [RaftLog.logical_none hs]
        exact ⟨le_rfl, hdummy.trans hcom, Nat.zero_le _⟩
    | some snap =>
        have := h.pending snap hs
        have := (h.tail.pending snap hs).1
        rw [RaftLog.logical_some hs]
        exact ⟨by simp only; omega, this, this⟩
  exact ⟨RaftLog.nextEntries_piece hstored h.log.indexed hbase.1 (by omega) hnext, hbase.2.2⟩

/-- So it is committed. -/
theorem Live.handed_le (h : Live mp crc x t vs buf s) (hrd : s.node.ready = .ok (rd, n)) :
    (∀ e ∈ rd.committedEntries, e.index ≤ s.log.committed) ∧ rd.appliedCursor ≤ s.log.committed := by
  obtain ⟨hpiece, hsnap⟩ := h.handed_piece hrd
  have hle : ∀ e ∈ rd.committedEntries, e.index ≤ s.log.committed := by
    intro e he
    obtain ⟨k, hk⟩ := List.getElem?_of_mem he
    have hidx := hpiece.indexed k e hk
    have hfits := hpiece.fits
    have hlt := (List.getElem?_eq_some_iff.mp hk).1
    omega
  refine ⟨hle, ?_⟩
  rw [Ready.appliedCursor]
  split
  · rename_i e hlast
    exact hle e (List.mem_of_getLast? hlast)
  · exact hsnap

end Ready

/-! ### Publishing -/

theorem applyConfChange_prev {n n' : RawNode} {cc : ConfChange} {cs : ConfState} (h : n.applyConfChange cc = .ok (n', cs)) :
    n'.prevHardState = n.prevHardState := by
  have hend : ∀ {y : Result Raft}, (y >>= fun r => .ok ({ n with raft := r }, RawNode.confState { n with raft := r })) =
      .ok (n', cs) → n'.prevHardState = n.prevHardState := by
    intro y h
    obtain ⟨r, -, h⟩ := bind_ok h
    rw [← (Prod.mk.inj (Except.ok.inj h)).1]
  unfold RawNode.applyConfChange at h
  split at h
  · exact hend (y := .ok n.raft) h
  split at h
  · exact hend h
  split at h
  · exact hend h
  split at h
  · exact hend h
  split at h
  · exact hend (y := .ok n.raft) h
  · cases h

/-- A change of the configuration may commit entries; the log itself stays. -/
theorem applyConfChange_log {n n' : RawNode} {cc : ConfChange} {cs : ConfState} (h : n.applyConfChange cc = .ok (n', cs)) :
    ∃ c, n.raft.raftLog.committed ≤ c ∧ n'.raft.raftLog = { n.raft.raftLog with committed := c } := by
  have hge := (applyConfChange_advances (W := True) h).log.committed
  have hlog : ∃ c, n'.raft.raftLog = { n.raft.raftLog with committed := c } := by
    obtain ⟨_, _, _, c, _, _, _, _, heq⟩ := (applyConfChange_configures h).1.frame
    exact ⟨c, by rw [heq]⟩
  obtain ⟨c, hc⟩ := hlog
  refine ⟨c, ?_, hc⟩
  rw [hc] at hge
  exact hge

/-- What publishing entries up to index `i` leaves of a process: its disk, and the log but for what is
committed. -/
structure Publishes (i : Nat) (s s' : RaftNode κ) : Prop where
  id : s'.id = s.id
  wal : s'.wal = s.wal
  snaps : s'.snaps = s.snaps
  prev : s'.node.prevHardState = s.node.prevHardState
  log : ∃ c, s.log.committed ≤ c ∧ s'.log = { s.log with committed := c }
  tail : s.log.Tail 0 → s'.log.Tail 0
  applied : s.appliedIndex ≤ i → s'.appliedIndex ≤ i

namespace Publishes
variable {i : Nat} {s'' : RaftNode κ}

theorem of_same (hid : s'.id = s.id) (hwal : s'.wal = s.wal) (hsnaps : s'.snaps = s.snaps) (hnode : s'.node = s.node)
    (happlied : s.appliedIndex ≤ i → s'.appliedIndex ≤ i) : Publishes i s s' := by
  refine ⟨hid, hwal, hsnaps, by rw [hnode], ⟨s.log.committed, le_rfl, ?_⟩, ?_, happlied⟩
  · rw [RaftNode.log, hnode]
    rfl
  · rw [RaftNode.log, RaftNode.log, hnode]
    exact fun h => h

theorem refl (s : RaftNode κ) : Publishes i s s := .of_same rfl rfl rfl rfl fun h => h

theorem trans (h : Publishes i s s') (h' : Publishes i s' s'') : Publishes i s s'' where
  id := h'.id.trans h.id
  wal := h'.wal.trans h.wal
  snaps := h'.snaps.trans h.snaps
  prev := h'.prev.trans h.prev
  log := by
    obtain ⟨c, hc, hlog⟩ := h.log
    obtain ⟨c', hc', hlog'⟩ := h'.log
    rw [hlog] at hc' hlog'
    exact ⟨c', hc.trans hc', hlog'⟩
  tail hs := h'.tail (h.tail hs)
  applied hs := h'.applied (h.applied hs)

end Publishes

theorem postEntry_publishes {i : Nat} {entry : Entry} {p : RaftNode κ × List (StoreHandler κ) × Bool}
    (hi : entry.index ≤ i) (h : s.postEntry mp entry = .ok p) : Publishes i s p.1 := by
  unfold RaftNode.postEntry at h
  split at h
  · obtain rfl := Except.ok.inj h
    exact .of_same rfl rfl rfl rfl fun _ => hi
  split at h
  · split at h
    · obtain rfl := Except.ok.inj h
      exact .refl s
    · obtain ⟨⟨node, confState⟩, happly, h⟩ := bind_ok h
      have hlog := applyConfChange_log happly
      have hprev := applyConfChange_prev happly
      have htail := (applyConfChange_advances (W := True) happly).log.tail trivial 0 (Nat.zero_le _)
      simp only at h
      split at h
      · obtain rfl := Except.ok.inj h
        exact ⟨rfl, rfl, rfl, hprev, hlog, htail, fun h => h⟩
      · obtain rfl := Except.ok.inj h
        exact ⟨rfl, rfl, rfl, hprev, hlog, htail, fun _ => hi⟩
  · cases h

theorem publishEntries_publishes {i : Nat} {entries : List Entry} (hi : ∀ e ∈ entries, e.index ≤ i)
    (h : RaftNode.publishEntries mp entries s = .ok s') : Publishes i s s' := by
  induction entries generalizing s with
  | nil =>
      obtain rfl := Except.ok.inj h
      exact .refl s
  | cons entry entries ih =>
      rw [RaftNode.publishEntries_cons] at h
      obtain ⟨p, hpost, h⟩ := bind_ok h
      obtain ⟨s₁, hcaught, h⟩ := bind_ok h
      obtain ⟨store, -, hs⟩ := bind_ok hcaught
      obtain rfl := Except.ok.inj hs
      have hfirst := postEntry_publishes (hi entry (List.mem_cons_self ..)) hpost
      have hsame : Publishes i p.1 { p.1 with store := store } := .of_same rfl rfl rfl rfl fun h => h
      split at h
      · exact (hfirst.trans hsame).trans (ih (fun e he => hi e (List.mem_cons_of_mem _ he)) h)
      · obtain rfl := Except.ok.inj h
        exact hfirst.trans hsame

/-! ### Saving -/

/-- A process can start from the disk. -/
def CanRestart (mp : Msgpack) (crc : Bytes → UInt32) (d : Disk) : Prop := ∃ x t vs ws, Restartable mp crc x t vs ws d

/-- When a snapshot from a leader is on its way, its file is complete, or a start reads no record of its
round from the file of the log yet. -/
def Covered (mp : Msgpack) (crc : Bytes → UInt32) (s : RaftNode κ) (d : Disk) : Prop :=
  ∀ snap, s.log.unstable.snapshot = some snap →
    d.snaps.lookup (snapName snap.metadata.term snap.metadata.index) = some (snapFile mp crc snap) ∨
      processed crc d.wal <+: processed crc (s.wal.modifyBack WalFile.sync).backContent

/-- What a round is going to write can be written: the entries fit their records, and a snapshot that
comes in can be read back and has a name behind those that can be read. -/
structure Fine (mp : Msgpack) (crc : Bytes → UInt32) (s : RaftNode κ) : Prop where
  entries : ∀ e ∈ s.log.unstable.entries, (WalItem.entry e).Fits mp
  state : MessagePack.Fits s.node.raft.hardState.toObj
  snapshot : ∀ snap, s.log.unstable.snapshot = some snap → MessagePack.Fits snap.toObj ∧
    (readSnap mp crc {} (snapFile mp crc snap)).isSome ∧
    ∀ name file, s.snaps.lookup name = some file → IsSnap name → (readSnap mp crc {} file).isSome →
      name < snapName snap.metadata.term snap.metadata.index

/-- The `Ready` is in the log; the storage does not have its entries yet. -/
structure Staged (mp : Msgpack) (crc : Bytes → UInt32) (rd : Ready) (x t : Nat) (vs buf : List WalItem) (s : RaftNode κ) :
    Prop extends Held mp crc x t vs buf s where
  log : ∃ old, Kept x t old s.log ∧ Replayable mp x t old ∧ itemEntries (vs ++ buf) = itemEntries old ++ rd.entries ∧
    itemCommit old ≤ itemCommit (vs ++ buf) ∧ (rd.entries ≠ [] → itemCommit old < s.log.unstable.offset) ∧
    s.log.unstable.offset ≤ s.storage.lastIndex + 1 ∧
    (rd.entries = [] → s.log.unstable.offset = s.storage.lastIndex + 1)
  committed : itemCommit (vs ++ buf) = s.log.committed
  tail : s.log.Tail 0
  entries : s.log.unstable.entries = rd.entries
  snapshot : rd.snapshot = s.log.unstable.snapshot.getD {}
  nonzero : ∀ snap, s.log.unstable.snapshot = some snap → snap.metadata.index ≠ 0
  handed : (∀ e ∈ rd.committedEntries, e.index ≤ itemCommit (vs ++ buf)) ∧ rd.appliedCursor ≤ itemCommit (vs ++ buf)
  state : rd.hardState.isEmptyState = false → rd.hardState.commit ≤ itemCommit (vs ++ buf)

section Saving
variable {rd : Ready} {n : RawNode}

/-- Whatever part of a `Ready` without a snapshot is written, a process can start from it. -/
theorem Live.savable (hmp : mp.Reliable) (h : Live mp crc x t vs buf s) (hf : Fine mp crc s)
    (hrd : s.node.ready = .ok (rd, n)) (hnone : s.log.unstable.snapshot = none) :
    ∀ pre, pre <+: buf ++ saveItems rd.hardState rd.entries → Replayable mp x t (vs ++ pre) := by
  intro pre hpre
  obtain ⟨-, hents, -, -⟩ := ready_spec hrd
  have hbase : s.log.unstable.offset ≤ viewEnd x (itemEntries (vs ++ buf)) + 1 := by
    have hlast := h.log.lastIndex_le h.all
    have hoff := h.tail.offset_le
    rw [RaftLog.base, hnone] at hoff
    exact hoff.trans (Nat.succ_le_succ hlast)
  rcases List.prefix_or_prefix_of_prefix hpre (List.prefix_append _ _) with hbuf | ⟨pre', rfl⟩
  · exact h.sound pre hbuf
  · rw [← List.append_assoc]
    rw [hents] at hpre
    refine h.all.saves hf.entries (fun hne => WalItem.fits_state hmp ?_) h.log.indexed h.tail.above hbase (fun hne => ?_)
      pre' ((List.prefix_append_right_inj _).mp hpre)
    · rw [Live.hardState_saved hrd hne]
      exact hf.state
    · rw [Live.hardState_saved hrd hne]
      exact ⟨h.log.committed_ge, h.tail.committed_lt⟩

/-- What holds of the node while its `Ready` is out. -/
theorem Live.out (h : Live mp crc x t vs buf s) (hrd : s.node.ready = .ok (rd, n)) :
    n.raft.raftLog = s.log ∧ n.prevHardState.commit ≤ s.log.committed ∧ s.appliedIndex ≤ s.log.committed ∧
      s.log.Tail 0 ∧ s.log.unstable.entries = rd.entries ∧ rd.snapshot = s.log.unstable.snapshot.getD {} ∧
      (∀ snap, s.log.unstable.snapshot = some snap → snap.metadata.index ≠ 0) ∧
      (rd.hardState.isEmptyState = false → rd.hardState.commit ≤ s.log.committed) := by
  obtain ⟨-, hents, hsnap, hlog⟩ := ready_spec hrd
  have hge := h.log.committed_ge
  refine ⟨hlog, ?_, h.applied.trans hge, ?_, hents.symm, hsnap, fun snap hs => ?_, fun hne => ?_⟩
  · rw [(ready_hardState hrd).2]
    exact h.prev.trans hge
  · exact ⟨fun hne => Nat.zero_lt_of_lt (h.tail.above hne), h.tail.offset_le, h.tail.offset_eq, h.tail.committed_lt,
      h.tail.pending⟩
  · have := h.pending snap hs
    omega
  · rw [Live.hardState_saved hrd hne]
    exact le_rfl

/-- A `Ready` without a snapshot is saved. -/
theorem Live.save_guarded {C : Disk → Prop} (hmp : mp.Reliable) (h : Live mp crc x t vs buf s) (hf : Fine mp crc s)
    (hrd : s.node.ready = .ok (rd, n)) (hnone : s.log.unstable.snapshot = none)
    (hcrash : ∀ ws b, ws <+: buf ++ saveItems rd.hardState rd.entries →
      Restartable mp crc x t vs ws { wal := b, snaps := s.snaps } → C { wal := b, snaps := s.snaps }) :
    Guarded C (fun s' => ∃ w ws buf', s' = { s with node := n, wal := w } ∧
        ws ++ buf' = buf ++ saveItems rd.hardState rd.entries ∧ Staged mp crc rd x t (vs ++ ws) buf' s')
      { s with node := n } (({ s with node := n }).walCall fun w => w.save mp crc rd.hardState rd.entries) := by
  obtain ⟨vs', buf', hall, ⟨ws, rfl⟩, hstored, -⟩ := h.stored.save rd.hardState rd.entries
  have hsavable := h.savable hmp hf hrd hnone
  have hws : ws ++ buf' = buf ++ saveItems rd.hardState rd.entries := by
    rw [List.append_assoc, List.append_assoc] at hall
    exact List.append_cancel_left hall
  have hcommit : itemCommit (vs ++ ws ++ buf') = s.log.committed := by
    rw [hall]
    exact h.commit_saved hrd rd.entries
  obtain ⟨hlog, hprev, happlied, htail, hents, hsnap, hnonzero, hstate⟩ := h.out hrd
  have hnlog : RaftNode.log { s with node := n } = s.log := hlog
  have hhanded := h.handed_le hrd
  refine walCall_guarded ?_ (fun b hlow hhigh => hcrash ws b (hws ▸ List.prefix_append _ _)
    (.of_sound ?_ ?_ (fun pre hpre => ?_) h.files)) ⟨_, ws, buf', rfl, hws, ?_⟩
  · change s.wal.backContent <+: _
    rw [h.stored.backContent, hstored.backContent, itemBytes_append]
    exact List.prefix_append _ _
  · rw [← h.stored.backContent]
    exact hlow
  · rw [← hstored.backContent]
    exact hhigh
  · exact hsavable pre (hws ▸ hpre.trans (List.prefix_append _ _))
  · have hheld : Held mp crc x t (vs ++ ws) buf'
        { s with node := n, wal := s.wal.save mp crc rd.hardState rd.entries } := by
      refine ⟨h.id, hstored, fun pre hpre => ?_, h.files.mono (List.subset_append_left _ _), ?_, ?_⟩
      · rw [List.append_assoc]
        exact hsavable _ (hws ▸ (List.prefix_append_right_inj _).mpr hpre)
      · rw [hcommit]
        exact hprev
      · rw [hcommit]
        exact happlied
    refine ⟨hheld, ⟨vs ++ buf, ?_⟩, ?_, ?_, ?_, ?_, ?_, ?_, ?_⟩
    · change Kept x t (vs ++ buf) n.raft.raftLog ∧ _ ∧ _ ∧ _ ∧ (_ → _ < n.raft.raftLog.unstable.offset) ∧
        n.raft.raftLog.unstable.offset ≤ n.raft.raftLog.storage.lastIndex + 1 ∧
        (_ → n.raft.raftLog.unstable.offset = n.raft.raftLog.storage.lastIndex + 1)
      have hoff := h.tail.offset_le
      have heq := h.tail.offset_eq
      rw [RaftLog.base, hnone] at hoff heq
      rw [hlog, hall, itemEntries_saves, ← hall, hcommit, ← hents]
      exact ⟨h.log, h.all, rfl, h.log.committed_ge, h.tail.above, hoff, heq⟩
    · rw [hcommit]
      exact hnlog.symm ▸ rfl
    · exact hnlog.symm ▸ htail
    · exact hnlog.symm ▸ hents
    · exact hnlog.symm ▸ hsnap
    · exact hnlog.symm ▸ hnonzero
    · rw [hcommit]
      exact hhanded
    · rw [hcommit]
      exact hstate

/-! A snapshot from the leader takes the place of everything below it. -/

variable {snap : Snapshot}

/-- The file of the snapshot is not there before the round that writes it. -/
theorem Fine.not_filed (hf : Fine mp crc s) (hsome : s.log.unstable.snapshot = some snap) :
    s.snaps.lookup (snapName snap.metadata.term snap.metadata.index) ≠ some (snapFile mp crc snap) := by
  intro hfile
  obtain ⟨-, hreads, hnames⟩ := hf.snapshot snap hsome
  exact List.lt_irrefl _ (hnames _ _ hfile (isSnap_snapName _ _) hreads)

theorem snapshot_bounds (h : MessagePack.Fits snap.toObj) :
    snap.data.length < 2 ^ 32 ∧ snap.metadata.index < 2 ^ 64 ∧ snap.metadata.term < 2 ^ 64 := by
  obtain - | - | - | - | ⟨-, hall⟩ := h
  have hdata := hall (.bin snap.data) (by simp)
  have hmeta := hall snap.metadata.toObj (by simp)
  obtain - | - | - | - | ⟨-, hnums⟩ := hmeta
  have hindex := hnums (.uint snap.metadata.index) (by simp)
  have hterm := hnums (.uint snap.metadata.term) (by simp)
  cases hdata
  cases hindex
  cases hterm
  exact ⟨by assumption, by assumption, by assumption⟩

/-- The records seen from the snapshot: the state that commits it could as well stand before the
entries. -/
theorem Live.installed (hmp : mp.Reliable) (h : Live mp crc x t vs buf s) (hf : Fine mp crc s)
    (hrd : s.node.ready = .ok (rd, n)) (hsome : s.log.unstable.snapshot = some snap) :
    ∃ old, Replayable mp snap.metadata.index snap.metadata.term old ∧ itemCommit old = snap.metadata.index ∧
      itemEntries old = itemEntries (vs ++ buf) ∧
      Replayable mp snap.metadata.index snap.metadata.term (vs ++ buf ++ saveItems rd.hardState rd.entries ++
        [.snapshot { index := snap.metadata.index, term := snap.metadata.term }]) := by
  obtain ⟨-, hents, -, -⟩ := ready_spec hrd
  obtain ⟨-, hi, ht⟩ := snapshot_bounds (hf.snapshot snap hsome).1
  have hahead := h.pending snap hsome
  obtain ⟨hcommitted, hoffset⟩ := h.tail.pending snap hsome
  have hstate : (WalItem.state { commit := snap.metadata.index }).Fits mp :=
    WalItem.fits_state hmp (HardState.fits (Nat.two_pow_pos 64) (Nat.two_pow_pos 64) hi)
  have hold := h.all.install (s := { index := snap.metadata.index, term := snap.metadata.term }) hahead rfl hstate
    (WalItem.fits_snapshot hmp hi ht)
  have hcom : itemCommit (vs ++ buf ++ [.state { commit := snap.metadata.index }] ++
      [.snapshot { index := snap.metadata.index, term := snap.metadata.term }]) = snap.metadata.index := by
    rw [itemCommit_snapshot, itemCommit_state]
  have hitems : itemEntries (vs ++ buf ++ [.state { commit := snap.metadata.index }] ++
      [.snapshot { index := snap.metadata.index, term := snap.metadata.term }]) = itemEntries (vs ++ buf) := by
    rw [itemEntries_snapshot, itemEntries_state]
  -- the `Ready` brings the state that commits the snapshot
  have hsaved := h.commit_saved hrd rd.entries
  have hnew : rd.hardState.isEmptyState = false ∧ rd.hardState.commit = s.log.committed := by
    rw [itemCommit_saves] at hsaved
    split at hsaved
    · omega
    · rename_i hne
      exact ⟨by simpa using hne, hsaved⟩
  have hbase : s.log.unstable.offset ≤ snap.metadata.index + 1 := by
    have := h.tail.offset_le
    rw [RaftLog.base, hsome] at this
    exact this
  refine ⟨_, hold, hcom, hitems, ?_⟩
  have hsaves := hold.saves (fun e he => hf.entries e (hents ▸ he))
    (fun hne => WalItem.fits_state hmp (by rw [Live.hardState_saved hrd hne]; exact hf.state))
    (by rw [hents]; exact h.log.indexed) (fun _ => by rw [hcom]; exact hoffset)
    (hbase.trans (Nat.succ_le_succ (Nat.le_add_right _ _)))
    (fun _ => by rw [hcom, hnew.2, hents]; exact ⟨hcommitted, h.tail.committed_lt⟩) _ (List.prefix_refl _)
  refine hsaves.congr ?_ ?_ ?_ (by simp)
  · rw [itemEntries_snapshot, itemEntries_saves, itemEntries_saves, hitems]
  · rw [itemCommit_snapshot, hsaved, itemCommit_saves, if_neg (by rw [hnew.1]; exact Bool.false_ne_true), hnew.2]
  · intro v hv
    simp only [List.mem_append, List.mem_singleton] at hv ⊢
    rcases hv with ((hv | hv) | hv) | hv
    · exact Or.inl (Or.inl (Or.inl (Or.inl hv)))
    · exact Or.inl (Or.inl (Or.inl (Or.inr hv)))
    · exact Or.inr hv
    · exact Or.inl (Or.inr hv)

/-- What the log records of a snapshot. -/
abbrev Snapshot.mark (snap : Snapshot) : WalSnapshot := { index := snap.metadata.index, term := snap.metadata.term }

/-- A snapshot is saved: first its record, then its file. -/
theorem saveSnap_guarded {C : Disk → Prop} {Q : RaftNode κ → Prop}
    (hstored : Stored s.wal (itemBytes mp crc vs) (itemBytes mp crc buf))
    (hwal : ∀ b, itemBytes mp crc vs <+: b →
      b <+: itemBytes mp crc (vs ++ buf ++ [.snapshot snap.mark]) →
      C { wal := b, snaps := s.snaps })
    (hfile : snap.data.length < 2 ^ 32 → ∀ part, part <+: snapFile mp crc snap →
      C { wal := itemBytes mp crc (vs ++ buf ++ [.snapshot snap.mark])
          snaps := s.snaps.insert (snapName snap.metadata.term snap.metadata.index) part })
    (hq : snap.data.length < 2 ^ 32 → ∀ w,
      Stored w (itemBytes mp crc (vs ++ buf ++ [.snapshot snap.mark]))
        (itemBytes mp crc []) →
      Q { s with
        wal := w
        snaps := s.snaps.insert (snapName snap.metadata.term snap.metadata.index) (snapFile mp crc snap) }) :
    Guarded C Q s (s.saveSnap mp crc snap) := by
  have hsaved := hstored.saveSnapshot snap.mark
  have hbefore := hstored.backContent
  have hafter := hsaved.backContent
  have hpre : itemBytes mp crc vs <+:
      itemBytes mp crc (vs ++ buf ++ [.snapshot snap.mark]) := by
    rw [List.append_assoc, itemBytes_append]
    exact List.prefix_append _ _
  refine Guarded.bind (walCall_guarded (Q := fun s' => s' = { s with wal := s.wal.saveSnapshot mp crc snap.mark }) ?_
    (fun b hlow hhigh => ?_) rfl) ?_
  · rw [hbefore, hafter]
    exact hpre
  · rw [hbefore] at hlow
    rw [hafter] at hhigh
    exact hwal b hlow hhigh
  · rintro s' rfl
    have hdisk : C (RaftNode.disk { s with wal := s.wal.saveSnapshot mp crc snap.mark }) := by
      rw [RaftNode.disk, hafter]
      exact hwal _ hpre (List.prefix_refl _)
    refine Guarded.ite (fun _ => .error hdisk) fun hlen => ?_
    refine snap_guarded hdisk (fun part hpart => ?_) rfl (hq (by omega) _ hsaved)
    rw [hafter]
    exact hfile (by omega) part hpart

/-- Whole records are read. -/
theorem processed_items (hvs : ∀ v ∈ vs, v.Fits mp) {b : Bytes} (h : itemBytes mp crc vs <+: b) :
    itemRecords mp vs <+: processed crc b := by
  obtain ⟨rest, rfl⟩ := h
  have hreads := Framing.reads_written (R := walReader crc) rest fun r hr more => (itemRecords_short hvs r hr).read more
  rw [← itemBytes_records] at hreads
  rw [processed, hreads.scan_eq]
  exact List.prefix_append _ _

/-- What a start would read that came before the round. -/
theorem Held.read (h : Held mp crc x t vs buf s) :
    processed crc (s.wal.modifyBack WalFile.sync).backContent = itemRecords mp (vs ++ buf) := by
  have hnone : ∀ v ∈ ([] : List WalItem), v.Fits mp := fun _ hv => nomatch hv
  obtain ⟨pre, hpre, -, hscan, -⟩ := read_torn h.all.fits hnone (List.prefix_refl (itemBytes mp crc (vs ++ buf)))
    (by rw [List.append_nil]) 0 0
  rw [List.prefix_nil.mp hpre, List.append_nil] at hscan
  rw [h.stored.sync.backContent, ← itemBytes_append, hscan]

/-- A start that reads no more than that finds no other record. -/
theorem Held.unread_prefix (h : Held mp crc x t vs buf s) {pre : List WalItem} (hfits : ∀ v ∈ vs ++ pre, v.Fits mp)
    {b : Bytes} (hwhole : itemBytes mp crc (vs ++ pre) <+: b)
    (hread : processed crc b <+: processed crc (s.wal.modifyBack WalFile.sync).backContent) :
    pre.length ≤ buf.length := by
  have hlen := ((processed_items hfits hwhole).trans hread).length_le
  rw [h.read] at hlen
  simp only [itemRecords, valueRecords, List.length_map, List.length_append] at hlen
  omega

/-- It goes on where the process was. -/
theorem Held.unread (h : Held mp crc x t vs buf s) (hws : ∀ v ∈ ws, v.Fits mp) {b : Bytes}
    (hlow : itemBytes mp crc vs <+: b) (hhigh : b <+: itemBytes mp crc (vs ++ buf ++ ws))
    (hread : processed crc b <+: processed crc (s.wal.modifyBack WalFile.sync).backContent) :
    CanRestart mp crc { wal := b, snaps := s.snaps } := by
  have hfits : ∀ v ∈ vs ++ (buf ++ ws), v.Fits mp := by
    intro v hv
    rw [← List.append_assoc] at hv
    rcases List.mem_append.mp hv with hv | hv
    · exact h.all.fits v hv
    · exact hws v hv
  rw [List.append_assoc] at hhigh
  refine ⟨x, t, vs, buf ++ ws, hlow, hhigh, fun v hv => hfits v (List.mem_append_right _ hv), fun pre hpre hwhole => ?_,
    h.files⟩
  have hpart : vs ++ pre <+: vs ++ (buf ++ ws) := (List.prefix_append_right_inj _).mpr hpre
  have hshort := h.unread_prefix (fun v hv => hfits v (hpart.subset hv)) hwhole hread
  exact h.sound pre (List.prefix_of_prefix_length_le hpre (List.prefix_append _ _) hshort)

theorem publishSnapshot_ok (hne : snap.isEmpty = false) (h : s.publishSnapshot mp snap = .ok s') :
    ∃ store, s' = { s with confState := snap.metadata.confState, snapshotIndex := snap.metadata.index,
                           appliedIndex := snap.metadata.index, store := store } := by
  unfold RaftNode.publishSnapshot at h
  rw [if_neg (by rw [hne]; exact Bool.false_ne_true)] at h
  split at h
  · cases h
  obtain ⟨⟨store, status⟩, -, h⟩ := bind_ok h
  simp only at h
  split at h
  · cases h
  · exact ⟨store, (Except.ok.inj h).symm⟩

/-- With the file of the new snapshot, a process starts from that. -/
theorem Files.installed {dir : SnapDir} (hmp : mp.Reliable) (hfits : MessagePack.Fits snap.toObj)
    (hreads : (readSnap mp crc {} (snapFile mp crc snap)).isSome)
    (hnames : ∀ name file, dir.lookup name = some file → IsSnap name → (readSnap mp crc {} file).isSome →
      name < snapName snap.metadata.term snap.metadata.index)
    (hmem : .snapshot snap.mark ∈ vs) (hne : snap.metadata.index ≠ 0) :
    Files mp crc (dir.insert (snapName snap.metadata.term snap.metadata.index) (snapFile mp crc snap))
      snap.metadata.index snap.metadata.term vs where
  base _ := by
    obtain ⟨y, hy⟩ := Option.isSome_iff_exists.mp hreads
    exact ⟨_, y, AList.lookup_insert _, hy, readSnap_saved (hmp.delimits _ hfits) (List.prefix_refl _) hy⟩
  saved name file y hfile hsnap hread := by
    by_cases heq : name = snapName snap.metadata.term snap.metadata.index
    · rw [heq, AList.lookup_insert] at hfile
      obtain rfl := Option.some.inj hfile
      obtain ⟨hi, ht⟩ := readSnap_saved (hmp.delimits _ hfits) (List.prefix_refl _) hread
      rw [hi, ht]
      exact Or.inl ⟨hmem, le_rfl, hne, heq⟩
    · rw [AList.lookup_insert_ne heq] at hfile
      exact Or.inr ⟨hne, hnames name file hfile hsnap (by rw [hread]; rfl)⟩

/-- The storage behind a snapshot that replaced it. -/
def MemoryStorage.replacedBy (st : MemoryStorage) (snap : Snapshot) : MemoryStorage :=
  { st with snapshot := snap, dummy := { term := snap.metadata.term, index := snap.metadata.index }, ents := [] }

/-- With the snapshot in place, the `Ready` is in the log as any other. -/
theorem Live.staged (hmp : mp.Reliable) (h : Live mp crc x t vs buf s) (hf : Fine mp crc s)
    (hrd : s.node.ready = .ok (rd, n)) (hsome : s.log.unstable.snapshot = some snap)
    (hws : vs' = vs ++ buf ++ saveItems rd.hardState rd.entries ++ [.snapshot snap.mark]) (hid : s'.id = s.id)
    (hwal : Stored s'.wal (itemBytes mp crc vs') (itemBytes mp crc []))
    (hsnaps : Files mp crc s'.snaps snap.metadata.index snap.metadata.term vs')
    (hprev : s'.node.prevHardState = n.prevHardState) (happlied : s'.appliedIndex = snap.metadata.index)
    (hlog : s'.log = { s.log with storage := s.storage.replacedBy snap }) :
    Staged mp crc rd snap.metadata.index snap.metadata.term vs' [] s' := by
  obtain ⟨old, hreplay, hcom, hitems, hfull⟩ := h.installed hmp hf hrd hsome
  rw [← hws] at hfull
  obtain ⟨-, hstale, -, htail, hents, hsnap, hnonzero, hstate⟩ := h.out hrd
  obtain ⟨hle, hoffset⟩ := h.tail.pending snap hsome
  have hbase : s.log.base = snap.metadata.index := by rw [RaftLog.base, hsome, Option.map_some, Option.getD_some]
  have hbase' : s'.log.base = snap.metadata.index := by
    rw [RaftLog.base, hlog]
    simp only [hsome, Option.map_some, Option.getD_some]
  have hcommit : itemCommit (vs' ++ []) = s.log.committed := by
    rw [List.append_nil, hws, itemCommit_snapshot]
    exact h.commit_saved hrd rd.entries
  have hlast : s'.storage.lastIndex = snap.metadata.index := by
    rw [RaftNode.storage, hlog]
    rfl
  have hunstable : s'.log.unstable = s.log.unstable := by rw [hlog]
  have hcommitted : s'.log.committed = s.log.committed := by rw [hlog]
  refine ⟨⟨?_, hwal, fun pre hpre => ?_, hsnaps, ?_, ?_⟩, ⟨old, ?_, hreplay, ?_, ?_, fun _ => ?_, ?_, fun hnil => ?_⟩,
    ?_, ?_, ?_, ?_, ?_, ?_, ?_⟩
  · rw [hid]
    exact h.id
  · rw [List.prefix_nil.mp hpre, List.append_nil]
    exact hfull
  · rw [hcommit, hprev]
    exact hstale
  · rw [hcommit, happlied]
    exact hle
  · rw [hlog]
    exact ⟨le_rfl, hcom.ge, Or.inl ⟨rfl, rfl⟩, List.nil_prefix, le_rfl, hcom.ge, h.log.indexed, hcom.trans_le hle,
      h.log.applied_le⟩
  · rw [List.append_nil, hws, itemEntries_snapshot, itemEntries_saves, hitems]
  · rw [hcom, hcommit]
    exact hle
  · rw [hcom, hunstable]
    exact hoffset
  · rw [hlast, hunstable, ← hbase]
    exact htail.offset_le
  · rw [hlast, hunstable, ← hbase]
    exact htail.offset_eq (hents.trans hnil)
  · rw [hcommit, hcommitted]
  · refine ⟨?_, ?_, ?_, ?_, ?_⟩
    · rw [hunstable]
      exact htail.above
    · rw [hunstable, hbase', ← hbase]
      exact htail.offset_le
    · rw [hunstable, hbase', ← hbase]
      exact htail.offset_eq
    · rw [hunstable, hcommitted]
      exact htail.committed_lt
    · rw [hunstable, hcommitted]
      exact htail.pending
  · rw [hunstable]
    exact hents
  · rw [hunstable]
    exact hsnap
  · rw [hunstable]
    exact hnonzero
  · rw [hcommit]
    exact h.handed_le hrd
  · rw [hcommit]
    exact hstate

/-- A `Ready` with a snapshot is saved, and the snapshot is installed. In between only an old disk or
one with the whole file will do. -/
theorem Live.install_guarded (hmp : mp.Reliable) (h : Live mp crc x t vs buf s) (hf : Fine mp crc s)
    (hrd : s.node.ready = .ok (rd, n)) (hsome : s.log.unstable.snapshot = some snap) :
    Guarded (fun d => Covered mp crc s d → CanRestart mp crc d)
      (fun s' => ∃ x' t' vs' buf', Staged mp crc rd x' t' vs' buf' s') { s with node := n }
      (({ s with node := n }).walCall (fun w => w.save mp crc rd.hardState rd.entries) >>= fun s₁ =>
        s₁.installSnapshot mp crc rd.snapshot) := by
  obtain ⟨vs', buf', hall, ⟨ws, rfl⟩, hstored, -⟩ := h.stored.save rd.hardState rd.entries
  obtain ⟨hlog, hprev, happlied, htail, hents, hsnap, hnonzero, hstate⟩ := h.out hrd
  have hhanded := h.handed_le hrd
  have hahead := h.pending snap hsome
  have hsnap : rd.snapshot = snap := by rw [hsnap, hsome, Option.getD_some]
  have hne : snap.isEmpty = false := by
    rw [Snapshot.isEmpty, beq_eq_false_iff_ne]
    omega
  obtain ⟨old, hreplay, hcom, hitems, hfull⟩ := h.installed hmp hf hrd hsome
  rw [← hall] at hfull
  have hround : vs ++ ws ++ buf' ++ [.snapshot snap.mark] =
      vs ++ buf ++ (saveItems rd.hardState rd.entries ++ [.snapshot snap.mark]) := by rw [hall, List.append_assoc]
  have hnew : ∀ v ∈ saveItems rd.hardState rd.entries ++ [.snapshot snap.mark], v.Fits mp := fun v hv =>
    hfull.fits v (hround ▸ List.mem_append_right _ hv)
  -- before the file is complete, only a disk from before the round will do
  have hold : ∀ b, itemBytes mp crc vs <+: b → b <+: itemBytes mp crc (vs ++ ws ++ buf' ++ [.snapshot snap.mark]) →
      Covered mp crc s { wal := b, snaps := s.snaps } → CanRestart mp crc { wal := b, snaps := s.snaps } := by
    intro b hlow hhigh hcovered
    rw [hround] at hhigh
    exact (hcovered snap hsome).elim (fun hfile => absurd hfile (hf.not_filed hsome)) (h.unread hnew hlow hhigh)
  have hcontent := h.stored.backContent
  refine Guarded.bind (walCall_guarded (Q := fun s' => s' =
    { s with node := n, wal := s.wal.save mp crc rd.hardState rd.entries }) ?_ (fun b hlow hhigh => ?_) rfl) ?_
  · change s.wal.backContent <+: _
    rw [hcontent, hstored.backContent, itemBytes_append]
    exact List.prefix_append _ _
  · refine hold b (hcontent ▸ hlow) (hhigh.trans ?_)
    change (s.wal.save mp crc rd.hardState rd.entries).backContent <+: _
    rw [hstored.backContent, List.append_assoc (vs ++ ws), itemBytes_append mp crc (vs ++ ws)]
    exact List.prefix_append _ _
  rintro s₁ rfl
  obtain ⟨hfits, hreads, hnames⟩ := hf.snapshot snap hsome
  have hfiles : Files mp crc (s.snaps.insert (snapName snap.metadata.term snap.metadata.index) (snapFile mp crc snap))
      snap.metadata.index snap.metadata.term (vs ++ ws ++ buf' ++ [.snapshot snap.mark]) :=
    Files.installed hmp hfits hreads hnames (by simp) (by omega)
  rw [RaftNode.installSnapshot, hsnap, if_neg (by rw [hne]; exact Bool.false_ne_true)]
  have hrestart : ∀ b, b = itemBytes mp crc (vs ++ ws ++ buf' ++ [.snapshot snap.mark]) → CanRestart mp crc
      { wal := b, snaps := s.snaps.insert (snapName snap.metadata.term snap.metadata.index) (snapFile mp crc snap) } := by
    rintro b rfl
    refine ⟨_, _, vs ++ ws ++ buf' ++ [.snapshot snap.mark], [], .of_sound (List.prefix_refl _) ?_ (fun pre hpre => ?_)
      hfiles⟩
    · rw [List.append_nil]
    · rw [List.prefix_nil.mp hpre, List.append_nil]
      exact hfull
  refine Guarded.bind (Q := fun s' => ∃ w, Stored w (itemBytes mp crc (vs ++ ws ++ buf' ++ [.snapshot snap.mark]))
      (itemBytes mp crc []) ∧ s' = { s with
        node := n, wal := w
        snaps := s.snaps.insert (snapName snap.metadata.term snap.metadata.index) (snapFile mp crc snap) })
    (saveSnap_guarded hstored (fun b hlow hhigh => ?_) (fun _ part _ hcovered => ?_) fun _ w hw => ⟨w, hw, rfl⟩) ?_
  · rw [itemBytes_append] at hlow
    exact hold b ((List.prefix_append _ _).trans hlow) hhigh
  · rcases hcovered snap hsome with hfile | hread
    · rw [AList.lookup_insert] at hfile
      rw [Option.some.inj hfile]
      exact hrestart _ rfl
    · -- the record of the snapshot is in the log
      rw [hround, List.append_assoc] at hfull hread
      have hshort := h.unread_prefix hfull.fits (List.prefix_refl _) hread
      simp only [List.length_append, List.length_singleton] at hshort
      omega
  rintro s₂ ⟨w, hw, rfl⟩
  refine Guarded.result (fun _ => hrestart _ hw.backContent) fun s' hpublish => ?_
  obtain ⟨store, rfl⟩ := publishSnapshot_ok hne hpublish
  have holder := h.log.snapshot_le
  have hstorage : (n.raft.raftLog.storage.applySnapshot snap).2 = s.storage.replacedBy snap := by
    rw [hlog, MemoryStorage.applySnapshot, if_neg (by omega)]
    rfl
  refine ⟨rfl, _, _, _, _, h.staged hmp hf hrd hsome (by rw [hall]) rfl hw hfiles rfl rfl ?_⟩
  change { n.raft.raftLog with storage := (n.raft.raftLog.storage.applySnapshot snap).2 } = _
  rw [hstorage, hlog]

end Saving

end RaftEtcd
