import Mathlib.Order.Interval.Finset.Nat
import RaftEtcd.Cursor
import RaftEtcd.Members
import RaftEtcd.Round

/-! The first start of a server. It makes the directory of the log, writes the first file beside its
place and renames it, and its first round saves the entries that make its peers members. Whether a
later start is the first one is decided by the directory alone, so a crash between these steps leaves a
server that cannot start, or one that starts without peers. -/
namespace RaftEtcd

open Journal (Prog)

/-! ### What the first start leaves on the disk -/

/-- The directory of the log, the file that `WAL::create` works on, and the first file under its name. -/
structure BootDisk where
  walDir : Bool := false
  tmp : Option Bytes := none
  wal : Option Bytes := none

inductive BootWrite where
  | createWalDir
  | openTmp
  | tmp (b : UInt8)
  | rename
  | wal (b : UInt8)

def BootDisk.write (d : BootDisk) : BootWrite → BootDisk
  | .createWalDir => { d with walDir := true }
  | .openTmp => { d with tmp := some [] }
  | .tmp b => { d with tmp := d.tmp.map (· ++ [b]) }
  | .rename => { d with tmp := none, wal := d.tmp }
  | .wal b => { d with wal := d.wal.map (· ++ [b]) }

/-- `open_WAL` on a disk without a log: the directory, and `WAL::create`. -/
def createWrites (mp : Msgpack) (crc : Bytes → UInt32) : List BootWrite :=
  [.createWalDir, .openTmp] ++ (Wal.create mp crc).map .tmp ++ [.rename]

namespace RaftNode
variable {κ : Type} (mp : Msgpack) (crc : Bytes → UInt32)

/-- The bytes that `save` adds to the file in the rounds of these `Ready`s. -/
def savedBytes (s : RaftNode κ) (rds : List Ready) : Bytes :=
  (rds.foldl (fun w rd => w.save mp crc rd.hardState rd.entries) s.wal).backContent.drop s.wal.backContent.length

/-- The constructor on a disk without snapshots. A directory without a file in it ends in `WAL::open`. -/
def boot (id peers : Nat) (d : BootDisk) (ftell : Nat) (draws : Nat → Nat) : Result (RaftNode κ) :=
  if d.walDir then
    match d.wal with
    | none => .error "wal not found"
    | some wal => RaftNode.new mp crc id peers (some wal) ∅ ftell draws
  else RaftNode.new mp crc id peers none ∅ ftell draws

/-- What the log commits when the process starts is published, in however many rounds. -/
def applyRecovered (s : RaftNode κ) : Result (RaftNode κ) :=
  s.publishEntries mp (s.log.logical.entries.take (s.log.committed - s.log.logical.index))

/-- The next start reaches the end of the replay, and the voters are then the peers. -/
def Recovers (κ : Type) (id peers : Nat) (d : BootDisk) (ftell : Nat) (draws : Nat → Nat) : Prop :=
  ∃ s₁ s₀ s : RaftNode κ, boot mp crc id peers d ftell draws = .ok s₁ ∧ s₁.schedule mp = .ok s₀ ∧
    s₀.applyRecovered mp = .ok s ∧ s.node.raft.members.voters = Finset.Icc 1 peers

end RaftNode

/-! ### Where a crash can fall -/

section Cuts
variable {mp : Msgpack} {crc : Bytes → UInt32}

theorem write_tmp (d : BootDisk) (bs : Bytes) :
    (bs.map BootWrite.tmp).foldl BootDisk.write d = { d with tmp := d.tmp.map (· ++ bs) } := by
  induction bs generalizing d with
  | nil => cases d with | mk walDir tmp wal => cases tmp <;> simp
  | cons b bs ih =>
      rw [List.map_cons, List.foldl_cons, ih]
      cases d with | mk walDir tmp wal => cases tmp <;> simp [BootDisk.write]

theorem write_file (d : BootDisk) (bs : Bytes) :
    (bs.map BootWrite.wal).foldl BootDisk.write d = { d with wal := d.wal.map (· ++ bs) } := by
  induction bs generalizing d with
  | nil => cases d with | mk walDir tmp wal => cases wal <;> simp
  | cons b bs ih =>
      rw [List.map_cons, List.foldl_cons, ih]
      cases d with | mk walDir tmp wal => cases wal <;> simp [BootDisk.write]

theorem write_created (mp : Msgpack) (crc : Bytes → UInt32) :
    (createWrites mp crc).foldl BootDisk.write {} = { walDir := true, wal := some (Wal.create mp crc) } := by
  rw [createWrites, List.foldl_append, List.foldl_append, write_tmp]
  simp [BootDisk.write]

theorem walDir_stays {ws : List BootWrite} {d : BootDisk} (h : d.walDir = true) :
    (ws.foldl BootDisk.write d).walDir = true := by
  induction ws generalizing d with
  | nil => exact h
  | cons w ws ih =>
      rw [List.foldl_cons]
      refine ih ?_
      cases w with
      | createWalDir => rfl
      | openTmp => exact h
      | tmp b => exact h
      | rename => exact h
      | wal b => exact h

/-- Only the renaming makes a file of the log. -/
theorem no_file {ws : List BootWrite} {d : BootDisk} (hd : d.wal = none) (h : .rename ∉ ws) :
    (ws.foldl BootDisk.write d).wal = none := by
  induction ws generalizing d with
  | nil => exact hd
  | cons w ws ih =>
      rw [List.mem_cons, not_or] at h
      obtain ⟨hne, hrest⟩ := h
      rw [List.foldl_cons]
      refine ih ?_ hrest
      cases w with
      | createWalDir => exact hd
      | openTmp => exact hd
      | tmp b => exact hd
      | rename => exact absurd rfl hne
      | wal b => simp [BootDisk.write, hd]

theorem write_records (part : Bytes) :
    (createWrites mp crc ++ part.map BootWrite.wal).foldl BootDisk.write {} =
      { walDir := true, wal := some (Wal.create mp crc ++ part) } := by
  rw [List.foldl_append, write_created, write_file]
  rfl

/-- Nothing happened; or there is a directory and no file; or the file is there with a part of the
records. -/
theorem boot_cut {records : Bytes} {ws : List BootWrite} (h : ws <+: createWrites mp crc ++ records.map .wal) :
    ws = [] ∨ ((ws.foldl BootDisk.write {}).walDir = true ∧ (ws.foldl BootDisk.write {}).wal = none) ∨
      ∃ part, part <+: records ∧ ws = createWrites mp crc ++ part.map .wal := by
  rcases List.prefix_or_prefix_of_prefix h (List.prefix_append _ _) with hcreate | ⟨rest, rfl⟩
  · rcases List.prefix_concat_iff.mp hcreate with hall | hbefore
    · refine Or.inr (Or.inr ⟨[], List.nil_prefix, ?_⟩)
      rw [List.map_nil, List.append_nil]
      exact hall
    · -- the file does not have its name yet
      cases ws with
      | nil => exact Or.inl rfl
      | cons w ws =>
          have hnot : BootWrite.rename ∉ w :: ws := by
            intro hmem
            have := hbefore.subset hmem
            simp at this
          have hw : w = .createWalDir := by
            rw [List.cons_append, List.cons_prefix_cons] at hbefore
            exact hbefore.1
          subst hw
          exact Or.inr (Or.inl ⟨walDir_stays (d := BootDisk.write {} .createWalDir) rfl, no_file rfl hnot⟩)
  · have hrest := (List.prefix_append_right_inj _).mp h
    obtain ⟨part, hpart, rfl⟩ := map_initial hrest
    exact Or.inr (Or.inr ⟨part, hpart, rfl⟩)

end Cuts

/-! ### The peers -/

section Peers
variable {κ : Type} {mp : Msgpack} {crc : Bytes → UInt32}

/-- The change that makes the peer at a place of the list a voter. -/
def addPeer (i : Nat) : ConfChange := { confChangeType := confChangeAddNode, nodeId := i + 1 }

/-- Its entry in the log. -/
def peerEntry (mp : Msgpack) (i : Nat) : Entry :=
  { type := entryConfChange, term := 1, index := i + 1, data := mp.pack (addPeer i).toObj }

theorem bootstrapEntries_peers (mp : Msgpack) (peers : Nat) :
    RawNode.bootstrapEntries (fun cc => mp.pack cc.toObj) (RaftNode.peerContexts peers) =
      (List.range peers).map (peerEntry mp) := by
  refine List.ext_getElem? fun i => ?_
  rw [RawNode.bootstrapEntries, RaftNode.peerContexts, List.getElem?_mapIdx, List.getElem?_map, List.getElem?_map]
  by_cases hi : i < peers
  · rw [List.getElem?_range hi]
    rfl
  · rw [List.getElem?_eq_none (by simpa using hi)]
    rfl

@[simp] theorem ConfChange.convert_toObj (old cc : ConfChange) : old.convert cc.toObj = some cc := by
  have htype : cc.confChangeType.toNat < 256 := UInt8.toNat_lt cc.confChangeType
  simp [ConfChange.convert, ConfChange.toObj, member, toUint, toUint8, toBytes, htype]

theorem decode_addPeer (hmp : mp.Reliable) {i : Nat} (hi : i + 1 < 2 ^ 64) :
    RaftNode.decodeConfChange mp (mp.pack (addPeer i).toObj) = some (addPeer i) := by
  have hfits : MessagePack.Fits (addPeer i).toObj := by
    refine fits_array (by simp) ?_
    simp only [List.forall_mem_cons]
    exact ⟨.uint (Nat.two_pow_pos 64), .uint (show confChangeAddNode.toNat < 2 ^ 64 by decide), .uint hi,
      .bin (Nat.two_pow_pos 32), by simp⟩
  have hback : mp.unpack (mp.pack (addPeer i).toObj) = some (addPeer i).toObj := (hmp.delimits _ hfits).restores
  rw [RaftNode.decodeConfChange, hback, Option.bind_some, ConfChange.convert_toObj]

/-- Publishing the entries of some peers makes them voters. -/
theorem publish_peers (hmp : mp.Reliable) {is : List Nat} (his : ∀ i ∈ is, i + 1 < 2 ^ 64) {s : RaftNode κ}
    (hs : s.node.raft.Configured) :
    ∃ s' : RaftNode κ, RaftNode.publishEntries mp (is.map (peerEntry mp)) s = .ok s' ∧
      s'.node.raft.members.voters = s.node.raft.members.voters ∪ (is.map (· + 1)).toFinset := by
  induction is generalizing s with
  | nil => exact ⟨s, rfl, by simp⟩
  | cons i is ih =>
      obtain ⟨r, hadd⟩ := addNodeOrLearner_total s.node.raft (i + 1) false
      have htype : (addPeer i).confChangeType = confChangeAddNode := rfl
      have hentry : (peerEntry mp i).type ≠ entryNormal := show entryConfChange ≠ entryNormal by decide
      have hconfEntry : (peerEntry mp i).type = entryConfChange := rfl
      have hstays : ¬((addPeer i).confChangeType = confChangeRemoveNode ∧ (addPeer i).nodeId = s.id) := fun h =>
        absurd h.1 (show confChangeAddNode ≠ confChangeRemoveNode by decide)
      have happly : s.node.applyConfChange (addPeer i) =
          .ok ({ s.node with raft := r }, RawNode.confState { s.node with raft := r }) := by
        rw [RawNode.applyConfChange, if_neg (show (addPeer i).nodeId ≠ 0 from Nat.succ_ne_zero i), if_pos htype]
        change (s.node.raft.addNodeOrLearner (i + 1) false >>= _) = _
        rw [hadd]
        rfl
      obtain ⟨hconf, hmembers⟩ := (applyConfChange_configures happly).1.refines hs
      obtain ⟨s', hrest, hvoters⟩ := ih (fun j hj => his j (List.mem_cons_of_mem _ hj))
        (s := { s with
          node := { s.node with raft := r }
          confState := RawNode.confState { s.node with raft := r }
          appliedIndex := i + 1 }) hconf
      refine ⟨s', ?_, ?_⟩
      · have hdecode : RaftNode.decodeConfChange mp (peerEntry mp i).data = some (addPeer i) :=
          decode_addPeer hmp (his i List.mem_cons_self)
        rw [List.map_cons, RaftNode.publishEntries, if_neg hentry, if_pos hconfEntry, hdecode]
        simp only [happly, bind, Except.bind, if_neg hstays]
        exact hrest
      · have hnode : (addPeer i).nodeId = i + 1 := rfl
        rw [hvoters]
        simp only [hmembers, Membership.apply, hnode, htype, Nat.succ_ne_zero, if_false, if_true, List.map_cons,
          List.toFinset_cons, Finset.insert_union, Finset.union_insert]

/-- A node that starts without configured peers has none. -/
theorem new_alone {c : Config} {r : Raft} (hpeers : c.peers = []) (hlearners : c.learners = [])
    (hconf : c.storage.snapshot.metadata.confState = {}) (h : Raft.new c = .ok r) :
    r.members = { voters := ∅, learners := ∅ } := by
  have hinit : Raft.initialPeers c = .ok ([], []) := by simp [Raft.initialPeers, hconf, hpeers, hlearners]
  unfold Raft.new at h
  rw [hinit] at h
  obtain ⟨r₁, h₁, h⟩ := bind_ok h
  obtain rfl := Except.ok.inj h₁
  obtain ⟨r₂, h₂, h⟩ := bind_ok h
  obtain rfl := Except.ok.inj h₂
  obtain ⟨r₃, h₃, h⟩ := bind_ok h
  have hkeys : r₃.members = { voters := ∅, learners := ∅ } := by
    split at h₃
    · unfold Raft.loadState at h₃
      split at h₃
      · cases h₃
      · rw [← Except.ok.inj h₃]
        rfl
    · rw [← Except.ok.inj h₃]
      rfl
  rw [← Except.ok.inj h, (becomeFollower_members _ _ _).members, ← hkeys]
  split <;> rfl

theorem toFinset_peers (peers : Nat) : ((List.range peers).map (· + 1)).toFinset = Finset.Icc 1 peers := by
  ext i
  simp only [List.mem_toFinset, List.mem_map, List.mem_range, Finset.mem_Icc]
  constructor
  · rintro ⟨j, hj, rfl⟩
    omega
  · intro hi
    exact ⟨i - 1, by omega, by omega⟩

/-- Adding peers never fails. -/
theorem addNodes_voters {r : Raft} (hr : r.Configured) {peers : List (Nat × Bytes)} (hids : ∀ peer ∈ peers, peer.1 ≠ 0) :
    ∃ r', peers.foldlM (fun raft peer => raft.addNode peer.1) r = .ok r' ∧ r'.Configured ∧
      r'.members.voters = r.members.voters ∪ (peers.map Prod.fst).toFinset := by
  induction peers generalizing r with
  | nil => exact ⟨r, rfl, hr, by simp⟩
  | cons peer peers ih =>
      obtain ⟨r₁, hadd⟩ := addNodeOrLearner_total r peer.1 false
      have hne : peer.1 ≠ 0 := hids peer List.mem_cons_self
      have hadds : Configures { confChangeType := confChangeAddNode, nodeId := peer.1 } r r₁ := .adds hne rfl hadd
      obtain ⟨hconf, hmembers⟩ := hadds.refines hr
      obtain ⟨r', hrest, hconf', hvoters⟩ := ih hconf fun p hp => hids p (List.mem_cons_of_mem _ hp)
      refine ⟨r', ?_, hconf', ?_⟩
      · have hfirst : r.addNode peer.1 = .ok r₁ := hadd
        rw [List.foldlM_cons, hfirst]
        exact hrest
      · rw [hvoters, hmembers]
        simp only [Membership.apply, hne, if_false, if_true, List.map_cons, List.toFinset_cons, Finset.insert_union,
          Finset.union_insert]

end Peers

/-! ### What is read back -/

section Records
variable {mp : Msgpack} {crc : Bytes → UInt32} {x t : Nat} {vs ws more : List WalItem} {hs : HardState} {es : List Entry}

/-- Hard states that commit what is committed already. -/
def Trailing (mp : Msgpack) (commit : Nat) (more : List WalItem) : Prop :=
  ∀ v ∈ more, ∃ hs : HardState, v = .state hs ∧ hs.commit = commit ∧ v.Fits mp

theorem Trailing.of_initial {commit : Nat} {pre : List WalItem} (h : Trailing mp commit more) (hpre : pre <+: more) :
    Trailing mp commit pre := fun v hv => h v (hpre.subset hv)

theorem Trailing.commit (h : Trailing mp (itemCommit vs) more) :
    itemCommit (vs ++ more) = itemCommit vs ∧ itemEntries (vs ++ more) = itemEntries vs := by
  induction more using List.reverseRecOn with
  | nil => rw [List.append_nil]; exact ⟨rfl, rfl⟩
  | append_singleton more v ih =>
      obtain ⟨hs, rfl, hcommit, -⟩ := h v (by simp)
      obtain ⟨-, hentries⟩ := ih (h.of_initial (List.prefix_append _ _))
      rw [← List.append_assoc, itemCommit_state, itemEntries_state]
      exact ⟨hcommit, hentries⟩

theorem Trailing.replayable (h : Trailing mp (itemCommit vs) more) (hvs : Replayable mp x t vs) :
    Replayable mp x t (vs ++ more) := by
  induction more using List.reverseRecOn with
  | nil => rwa [List.append_nil]
  | append_singleton more v ih =>
      obtain ⟨hs, rfl, hcommit, hfits⟩ := h v (by simp)
      have hbefore := h.of_initial (List.prefix_append _ _)
      obtain ⟨hcom, hentries⟩ := hbefore.commit
      rw [← List.append_assoc]
      refine (ih hbefore).addState hfits (by rw [hcom, hcommit]) ?_
      rw [hcommit, hentries]
      exact hvs.le

/-- More of the records may be known to be in the file. -/
theorem Restartable.advance {d : Disk} (h : Restartable mp crc x t vs (ws ++ more) d)
    (hlow : itemBytes mp crc (vs ++ ws) <+: d.wal) : Restartable mp crc x t (vs ++ ws) more d where
  low := hlow
  high := by
    rw [List.append_assoc]
    exact h.high
  fits v hv := h.fits v (List.mem_append_right _ hv)
  sound pre hpre hwhole := by
    rw [List.append_assoc] at hwhole ⊢
    exact h.sound _ ((List.prefix_append_right_inj _).mpr hpre) hwhole
  files := h.files.mono (List.subset_append_left _ _)

/-- What is saved in some rounds stands behind what was saved before. -/
theorem Stored.saves {w : Wal} {buf : List WalItem} (h : Stored w (itemBytes mp crc vs) (itemBytes mp crc buf))
    (rds : List Ready) :
    ∃ vs' buf', vs' ++ buf' = vs ++ buf ++ rds.flatMap (fun rd => saveItems rd.hardState rd.entries) ∧ vs <+: vs' ∧
      Stored (rds.foldl (fun w rd => w.save mp crc rd.hardState rd.entries) w) (itemBytes mp crc vs') (itemBytes mp crc buf') := by
  induction rds generalizing w vs buf with
  | nil => exact ⟨vs, buf, (List.append_nil _).symm, List.prefix_refl _, h⟩
  | cons rd rds ih =>
      obtain ⟨vs₁, buf₁, hall, hfirst, hstored, -⟩ := h.save rd.hardState rd.entries
      obtain ⟨vs', buf', hrest, hlonger, hstored'⟩ := ih hstored
      refine ⟨vs', buf', ?_, hfirst.trans hlonger, hstored'⟩
      rw [hrest, hall, List.flatMap_cons, List.append_assoc]

/-- A part of the first saves behind the record that `create` writes. -/
theorem restartable_part (hmp : mp.Reliable) (hfit : ∀ e ∈ es, (WalItem.entry e).Fits mp)
    (hstate : MessagePack.Fits hs.toObj) (hidx : IndexedFrom 1 es) (hcom : hs.commit = es.length) (hne : es ≠ [])
    (hmore : Trailing mp es.length more) {part : Bytes} (hpart : part <+: itemBytes mp crc (saveItems hs es ++ more)) :
    Restartable mp crc 0 0 [.snapshot {}] (saveItems hs es ++ more) { wal := Wal.create mp crc ++ part, snaps := ∅ } := by
  have hcreated := restartable_created crc hmp
  have hcontent := create_content mp crc
  have hbase : Replayable mp 0 0 [.snapshot {}] := hcreated.held
  have hsaves := hbase.saves hfit (fun _ => WalItem.fits_state hmp hstate) hidx (fun _ => Nat.one_pos) le_rfl
    fun _ => ⟨Nat.zero_le _, by omega⟩
  refine .of_sound ?_ ?_ (fun pre hpre => ?_) hcreated.files
  · rw [hcontent]
    exact List.prefix_append _ _
  · rw [hcontent, itemBytes_append]
    exact (List.prefix_append_right_inj _).mpr hpart
  · rcases List.prefix_or_prefix_of_prefix hpre (List.prefix_append _ _) with hsave | ⟨rest, rfl⟩
    · exact hsaves pre hsave
    · have hrest := (List.prefix_append_right_inj _).mp hpre
      have hlength := List.length_pos_iff.mpr hne
      have hstateful : hs.isEmptyState = false := by
        cases hempty : hs.isEmptyState with
        | false => rfl
        | true =>
            rw [HardState.eq_of_isEmptyState hempty] at hcom
            have : (0 : Nat) = es.length := hcom
            omega
      rw [← List.append_assoc]
      refine Trailing.replayable ?_ (hsaves _ (List.prefix_refl _))
      rw [itemCommit_saves, hstateful, if_neg (by decide), hcom]
      exact hmore.of_initial hrest

end Records

/-! ### The next start -/

section Restart
variable {κ : Type} {mp : Msgpack} {crc : Bytes → UInt32} {id peers ftell : Nat} {draws : Nat → Nat}
  {s s₀ s₁ : RaftNode κ}

/-- A log on an empty snapshot. -/
theorem logical_whole {l : RaftLog} {es : List Entry} (hsnap : l.unstable.snapshot = none)
    (hdummy : l.storage.dummy.index = 0) (hlog : l.log = es) (hidx : IndexedFrom 1 es) :
    l.logical.index = 0 ∧ l.logical.entries = es := by
  rw [RaftLog.logical_none hsnap, hdummy, hlog]
  refine ⟨rfl, List.filter_eq_self.mpr fun e he => ?_⟩
  obtain ⟨k, hk⟩ := List.getElem?_of_mem he
  have := hidx k e hk
  exact decide_eq_true (by omega)

variable (mp) in
theorem schedule_node (hdata : s₁.snapData = []) :
    ∃ s₀ : RaftNode κ, s₁.schedule mp = .ok s₀ ∧ s₀.node = s₁.node ∧ s₀.wal = s₁.wal := by
  unfold RaftNode.schedule
  rw [hdata]
  exact ⟨_, rfl, rfl, rfl⟩

theorem peerEntries_indexed (mp : Msgpack) (peers : Nat) : IndexedFrom 1 ((List.range peers).map (peerEntry mp)) := by
  rw [← bootstrapEntries_peers]
  exact bootstrapEntries_indexed _ _

/-- The log that holds the entries of the peers, all of them committed. -/
structure Seeded (mp : Msgpack) (peers : Nat) (l : RaftLog) : Prop where
  snapshot : l.unstable.snapshot = none
  dummy : l.storage.dummy.index = 0
  log : l.log = (List.range peers).map (peerEntry mp)
  committed : l.committed = peers

theorem Seeded.applyRecovered (hmp : mp.Reliable) (hmax : peers < 2 ^ 64) (h : Seeded mp peers s.log)
    (hs : s.node.raft.Configured) (hvoters : s.node.raft.members.voters ⊆ Finset.Icc 1 peers) :
    ∃ s', s.applyRecovered mp = .ok s' ∧ s'.node.raft.members.voters = Finset.Icc 1 peers := by
  obtain ⟨hindex, hentries⟩ := logical_whole h.snapshot h.dummy h.log (peerEntries_indexed mp peers)
  have hsmall : ∀ i ∈ List.range peers, i + 1 < 2 ^ 64 := by
    intro i hi
    have := List.mem_range.mp hi
    omega
  obtain ⟨s', hpublish, hvoters'⟩ := publish_peers hmp hsmall hs
  refine ⟨s', ?_, ?_⟩
  · rw [RaftNode.applyRecovered, hindex, hentries, h.committed, List.take_of_length_le (by simp)]
    exact hpublish
  · rw [hvoters', toFinset_peers]
    exact Finset.union_eq_right.mpr hvoters

variable (κ crc) in
/-- The first start: the log is seeded and the peers are the voters. -/
theorem new_seeded (hmp : mp.Reliable) (hid : id ≠ 0) (peers ftell : Nat) (draws : Nat → Nat) :
    ∃ s₁ : RaftNode κ, RaftNode.new mp crc id peers none ∅ ftell draws = .ok s₁ ∧ Seeded mp peers s₁.log ∧
      s₁.log.unstable.entries = (List.range peers).map (peerEntry mp) ∧ s₁.node.prevHardState = {} ∧
      s₁.node.raft.Configured ∧ s₁.node.raft.members.voters = Finset.Icc 1 peers ∧ s₁.snapData = [] ∧
      Stored s₁.wal (itemBytes mp crc [.snapshot {}]) (itemBytes mp crc []) := by
  obtain ⟨r, hreplay, hr, -⟩ := replay_created crc hmp ftell
  obtain ⟨raft, hnew, hlog⟩ := hr.raft id draws
  have hlast : r.storage.lastIndex = 0 := by
    rw [hr.lastIndex]
    rfl
  have hcommit : itemCommit [.snapshot {}] = 0 := rfl
  rw [hcommit] at hlog
  have hunstable : raft.raftLog.unstable = { offset := 1 } := by rw [hlog, RaftLog.new, hlast]
  have halone : (raft.becomeFollower 1 0).members = { voters := ∅, learners := ∅ } := by
    rw [(becomeFollower_members raft 1 0).members]
    exact new_alone rfl rfl (by rw [show (validConfig id r.storage draws).storage = r.storage from rfl, hr.snapshot]) hnew
  have hconf : (raft.becomeFollower 1 0).Configured := (new_configured hnew).congr (becomeFollower_members raft 1 0)
  -- the entries are appended and the peers are added
  have hfollow : (raft.becomeFollower 1 0).raftLog = raft.raftLog := by simp [Raft.becomeFollower]
  have hindexed := peerEntries_indexed mp peers
  have happend := append_first hunstable (by rw [hlog]) hindexed
  have hids : ∀ peer ∈ RaftNode.peerContexts peers, peer.1 ≠ 0 := by
    intro peer hpeer
    obtain ⟨i, -, rfl⟩ := List.mem_map.mp hpeer
    exact Nat.succ_ne_zero i
  obtain ⟨raft', hadd, hconf', hvoters⟩ := addNodes_voters
    (r := { raft.becomeFollower 1 0 with raftLog := { raft.raftLog with
      unstable := { offset := 1, entries := (List.range peers).map (peerEntry mp) }
      committed := ((List.range peers).map (peerEntry mp)).length } })
    (hconf.congr (.of_same rfl rfl ⟨rfl, rfl⟩)) hids
  have hstart : RawNode.startNode (fun cc => mp.pack cc.toObj) (validConfig id r.storage draws) (RaftNode.peerContexts peers) =
      .ok (RawNode.ofRaft raft' 0) := by
    have hlast' : (validConfig id r.storage draws).storage.lastIndex = 0 := hlast
    rw [RawNode.startNode, hnew, hlast']
    simp only [bind, Except.bind, if_true, hfollow, bootstrapEntries_peers, happend]
    rw [show List.foldlM (fun (raft : Raft) (peer : Nat × Bytes) => raft.addNode peer.1) _
      (RaftNode.peerContexts peers) = _ from hadd]
  have hlog' : raft'.raftLog = { raft.raftLog with
      unstable := { offset := 1, entries := (List.range peers).map (peerEntry mp) }
      committed := ((List.range peers).map (peerEntry mp)).length } := addNodes_log _ hadd
  refine ⟨RaftNode.ofReplay id r (RawNode.ofRaft raft' 0), ?_, ⟨?_, ?_, ?_, ?_⟩, ?_, rfl, hconf', ?_, hr.snapData rfl, hr.stored⟩
  · rw [RaftNode.new, Option.getD_none, hreplay]
    simp only [bind, Except.bind, validate_config hid, Status.isOk, Option.isSome_none]
    change (RawNode.startNode _ _ _ >>= _) = _
    rw [hstart]
    rfl
  · change raft'.raftLog.unstable.snapshot = none
    rw [hlog']
  · change raft'.raftLog.storage.dummy.index = 0
    rw [hlog', hlog]
    exact hr.dummy_index
  · change raft'.raftLog.log = _
    have hents : raft.raftLog.storage.ents = [] := by
      rw [hlog]
      exact hr.ents
    rw [hlog', RaftLog.log, hents, List.take_nil, List.nil_append]
  · change raft'.raftLog.committed = peers
    rw [hlog']
    simp
  · change raft'.raftLog.unstable.entries = _
    rw [hlog']
  · change raft'.members.voters = _
    rw [hvoters]
    change (raft.becomeFollower 1 0).members.voters ∪ _ = _
    rw [halone, Finset.empty_union, ← toFinset_peers, RaftNode.peerContexts, List.map_map]
    rfl

/-- What the first rounds save: the entries of the peers with a hard state that commits them, and then
hard states that commit no more. -/
structure FirstRounds (mp : Msgpack) (peers : Nat) (hs : HardState) (more : List WalItem) : Prop where
  pos : 1 ≤ peers
  bounded : peers < 2 ^ 64
  fits : ∀ i < peers, (WalItem.entry (peerEntry mp i)).Fits mp
  state : MessagePack.Fits hs.toObj
  commit : hs.commit = peers
  more : Trailing mp peers more

namespace FirstRounds
variable {hs : HardState} {more pre : List WalItem} {part : Bytes}

/-- The records of the first round. -/
abbrev items (mp : Msgpack) (peers : Nat) (hs : HardState) : List WalItem :=
  saveItems hs ((List.range peers).map (peerEntry mp))

theorem stateful (h : FirstRounds mp peers hs more) : hs.isEmptyState = false := by
  cases hempty : hs.isEmptyState with
  | false => rfl
  | true =>
      have hcommit := h.commit
      have hpos := h.pos
      rw [HardState.eq_of_isEmptyState hempty] at hcommit
      have : (0 : Nat) = peers := hcommit
      omega

/-- The only snapshot that is recorded is the one of `create`. -/
theorem snapshot (h : FirstRounds mp peers hs more) (hpre : pre <+: items mp peers hs ++ more) {snap : WalSnapshot}
    (hmem : .snapshot snap ∈ [.snapshot {}] ++ pre) : snap = {} := by
  rcases List.mem_append.mp hmem with hfirst | hrest
  · exact WalItem.snapshot.inj (List.mem_singleton.mp hfirst)
  · exfalso
    rcases List.mem_append.mp (hpre.subset hrest) with hsaved | hlater
    · rcases List.mem_append.mp hsaved with hentry | hstate
      · obtain ⟨e, -, heq⟩ := List.mem_map.mp hentry
        cases heq
      · rw [h.stateful, if_neg (by decide)] at hstate
        cases List.mem_singleton.mp hstate
    · obtain ⟨hs', heq, -⟩ := h.more _ hlater
      cases heq

theorem restartable (h : FirstRounds mp peers hs more) (hmp : mp.Reliable)
    (hpart : part <+: itemBytes mp crc (items mp peers hs ++ more)) :
    Restartable mp crc 0 0 [.snapshot {}] (items mp peers hs ++ more) { wal := Wal.create mp crc ++ part, snaps := ∅ } := by
  have hlength : ((List.range peers).map (peerEntry mp)).length = peers := by rw [List.length_map, List.length_range]
  have hpos := h.pos
  refine restartable_part hmp (fun e he => ?_) h.state (peerEntries_indexed mp peers) (h.commit.trans hlength.symm) ?_ ?_ hpart
  · obtain ⟨i, hi, rfl⟩ := List.mem_map.mp he
    exact h.fits i (List.mem_range.mp hi)
  · exact List.ne_nil_of_length_pos (by omega)
  · rw [hlength]
    exact h.more

/-- What the records of the first round amount to, whatever comes behind them. -/
theorem found (h : FirstRounds mp peers hs more) (hpre : pre <+: more) :
    itemCommit ([.snapshot {}] ++ items mp peers hs ++ pre) = peers ∧
      view 0 (itemEntries ([.snapshot {}] ++ items mp peers hs ++ pre)) = (List.range peers).map (peerEntry mp) := by
  have hcommit : itemCommit ([.snapshot {}] ++ items mp peers hs) = peers := by
    rw [itemCommit_saves, h.stateful, if_neg (by decide), h.commit]
  have hlater : Trailing mp (itemCommit ([.snapshot {}] ++ items mp peers hs)) pre := by
    rw [hcommit]
    exact h.more.of_initial hpre
  rw [hlater.commit.1, hlater.commit.2, itemEntries_saves]
  refine ⟨hcommit, ?_⟩
  change view 0 ([] ++ _) = _
  rw [view_append Nat.one_pos (peerEntries_indexed mp peers)]
  split
  · rename_i hnil
    exact hnil.symm
  · rfl

/-- A process that finds all of the first round has the peers. -/
theorem whole (h : FirstRounds mp peers hs more) (hmp : mp.Reliable) (hid : id ≠ 0)
    (hpart : part <+: itemBytes mp crc (items mp peers hs ++ more)) (hall : itemBytes mp crc (items mp peers hs) <+: part)
    (ftell : Nat) (draws : Nat → Nat) :
    RaftNode.Recovers mp crc κ id peers { walDir := true, wal := some (Wal.create mp crc ++ part) } ftell draws := by
  have hlow : itemBytes mp crc ([.snapshot {}] ++ items mp peers hs) <+: Wal.create mp crc ++ part := by
    rw [itemBytes_append, create_content]
    exact (List.prefix_append_right_inj _).mpr hall
  obtain ⟨r, y, u, pre, raft, hboot, hpre, -, hr, hnew, hlog⟩ :=
    ((h.restartable hmp hpart).advance hlow).boots (κ := κ) hmp hid peers ftell draws
  have hbase := h.snapshot ((List.prefix_append_right_inj _).mpr hpre) (by rw [← List.append_assoc]; exact hr.sound.base)
  obtain ⟨rfl, rfl⟩ := WalSnapshot.mk.inj hbase
  obtain ⟨hcommit, hview⟩ := h.found hpre
  have hents := hr.ents
  rw [hcommit] at hlog
  rw [hview] at hents
  have hseeded : Seeded mp peers raft.raftLog := by
    rw [hlog]
    refine ⟨rfl, hr.dummy_index, ?_, rfl⟩
    change r.storage.ents.take (r.storage.lastIndex + 1 - r.storage.firstIndex) ++ [] = _
    rw [List.append_nil, List.take_of_length_le, hents]
    rw [MemoryStorage.lastIndex, MemoryStorage.firstIndex]
    omega
  have halone := new_alone rfl rfl
    (by rw [show (validConfig id r.storage draws).storage = r.storage from rfl, hr.snapshot]) hnew
  have hdata : (RaftNode.ofReplay (κ := κ) id r (RawNode.ofRaft raft r.storage.lastIndex)).snapData = [] := hr.snapData rfl
  obtain ⟨s₀, hschedule, hnode, -⟩ := schedule_node mp hdata
  obtain ⟨s, happly, hvoters⟩ := Seeded.applyRecovered (s := s₀) hmp h.bounded
    (by rw [RaftNode.log, hnode]; exact hseeded) (by rw [hnode]; exact new_configured hnew)
    (by rw [hnode]; exact (congrArg Membership.voters halone).trans_subset (Finset.empty_subset _))
  exact ⟨_, s₀, s, hboot, hschedule, happly, hvoters⟩

/-- Without the last record of the first round nothing is committed. -/
theorem uncommitted (h : FirstRounds mp peers hs more) (hpre : pre <+: items mp peers hs ++ more)
    (hnot : ¬ items mp peers hs <+: pre) : itemCommit ([.snapshot {}] ++ pre) = 0 := by
  have hlt : pre <+: items mp peers hs :=
    (List.prefix_or_prefix_of_prefix hpre (List.prefix_append _ _)).resolve_right hnot
  rw [items, saveItems, h.stateful, if_neg (by decide)] at hlt
  rcases List.prefix_concat_iff.mp hlt with rfl | hents
  · refine absurd ?_ hnot
    rw [items, saveItems, h.stateful, if_neg (by decide)]
  · have hnone : pre.flatMap WalItem.states = [] := by
      refine List.flatMap_eq_nil_iff.mpr fun v hv => ?_
      obtain ⟨e, -, rfl⟩ := List.mem_map.mp (hents.subset hv)
      rfl
    rw [itemCommit, itemState_append, hnone]
    rfl

/-- A process that finds less of it has nobody. -/
theorem torn (h : FirstRounds mp peers hs more) (hmp : mp.Reliable) (hid : id ≠ 0)
    (hpart : part <+: itemBytes mp crc (items mp peers hs ++ more)) (hall : ¬ itemBytes mp crc (items mp peers hs) <+: part)
    (ftell : Nat) (draws : Nat → Nat) :
    ¬ RaftNode.Recovers mp crc κ id peers { walDir := true, wal := some (Wal.create mp crc ++ part) } ftell draws := by
  obtain ⟨r, y, u, pre, raft, hboot, hpre, hwhole, hr, hnew, hlog⟩ :=
    (h.restartable hmp hpart).boots (κ := κ) hmp hid peers ftell draws
  have hbase := h.snapshot hpre hr.sound.base
  obtain ⟨rfl, rfl⟩ := WalSnapshot.mk.inj hbase
  have hnot : ¬ items mp peers hs <+: pre := by
    rintro ⟨rest, rfl⟩
    refine hall ?_
    rw [itemBytes_append, ← create_content] at hwhole
    refine (List.IsPrefix.trans ?_ ((List.prefix_append_right_inj _).mp hwhole))
    rw [itemBytes_append]
    exact List.prefix_append _ _
  rw [h.uncommitted hpre hnot] at hlog
  have halone := new_alone rfl rfl
    (by rw [show (validConfig id r.storage draws).storage = r.storage from rfl, hr.snapshot]) hnew
  rintro ⟨s₁, s₀, s, hboot', hschedule, happly, hvoters⟩
  obtain rfl := Except.ok.inj (hboot.symm.trans hboot')
  have hdata : (RaftNode.ofReplay (κ := κ) id r (RawNode.ofRaft raft r.storage.lastIndex)).snapData = [] := hr.snapData rfl
  obtain ⟨s₀', hschedule', hnode, -⟩ := schedule_node mp hdata
  obtain rfl := Except.ok.inj (hschedule'.symm.trans hschedule)
  have hnothing : s₀'.log.committed = 0 := by
    rw [RaftNode.log, hnode]
    exact congrArg RaftLog.committed hlog
  rw [RaftNode.applyRecovered, hnothing, Nat.zero_sub, List.take_zero] at happly
  obtain rfl := Except.ok.inj happly
  have hempty : s₀'.node.raft.members.voters = ∅ := by
    rw [hnode]
    exact congrArg Membership.voters halone
  have hone : 1 ∈ Finset.Icc 1 peers := Finset.mem_Icc.mpr ⟨le_rfl, h.pos⟩
  rw [← hvoters, hempty] at hone
  exact absurd hone (Finset.notMem_empty 1)

end FirstRounds

/-- The bytes of the first round, and those of the rounds behind it. -/
theorem savedBytes_rounds {w : Wal} (h : Stored w (itemBytes mp crc [.snapshot {}]) (itemBytes mp crc [])) (hw : s.wal = w)
    {rd : Ready} (hne : rd.entries ≠ []) (later : List Ready) :
    s.savedBytes mp crc [rd] = itemBytes mp crc (saveItems rd.hardState rd.entries) ∧
      itemBytes mp crc (saveItems rd.hardState rd.entries) <+: s.savedBytes mp crc (rd :: later) ∧
      s.savedBytes mp crc (rd :: later) <+: itemBytes mp crc (saveItems rd.hardState rd.entries ++
        later.flatMap fun rd => saveItems rd.hardState rd.entries) := by
  have hcontent := h.backContent
  obtain ⟨vs₁, buf₁, hall, -, hstored, hflushed⟩ := h.save rd.hardState rd.entries
  rw [hflushed hne, List.append_nil, List.append_nil] at hall
  subst hall
  rw [hflushed hne] at hstored
  obtain ⟨vs', buf', hrest, ⟨more, rfl⟩, hstored'⟩ := hstored.saves later
  rw [List.append_nil, List.append_assoc _ more, List.append_cancel_left_eq] at hrest
  have hdrop : s.savedBytes mp crc (rd :: later) = itemBytes mp crc (saveItems rd.hardState rd.entries ++ more) := by
    rw [RaftNode.savedBytes, hw, List.foldl_cons, hstored'.backContent, hcontent, List.append_assoc, itemBytes_append,
      List.drop_left]
  rw [hdrop, ← hrest, RaftNode.savedBytes, hw, List.foldl_cons, List.foldl_nil, hstored.backContent, hcontent]
  refine ⟨?_, ?_, ?_⟩
  · rw [itemBytes_append, List.drop_left]
  · rw [itemBytes_append]
    exact List.prefix_append _ _
  · rw [← List.append_assoc, itemBytes_append _ _ (_ ++ more)]
    exact List.prefix_append _ _

/-- The first start of a server: it may tick and hear of elections before its first round as long as
its log stays as it is, and what it saves after that round commits no more. Wherever it crashes, the
next start comes up with the peers as its voters if and only if there is no directory yet, or the
first round is in the file: between the two the directory says that the log exists, and what it
should hold is missing. -/
theorem first_boot_crash (hmp : mp.Reliable) (hpos : 1 ≤ peers) (hmax : peers < 2 ^ 64)
    (hfits : ∀ i < peers, (WalItem.entry (peerEntry mp i)).Fits mp)
    (hnew : RaftNode.new mp crc id peers none ∅ ftell draws = .ok s₁) (hschedule : s₁.schedule mp = .ok s₀)
    (hwal : s.wal = s₀.wal) (hlog : s.log = s₀.log) (hprev : s.node.prevHardState = s₀.node.prevHardState)
    {rd : Ready} {n : RawNode} (hrd : s.node.ready = .ok (rd, n)) (hstate : MessagePack.Fits rd.hardState.toObj)
    {later : List Ready} (hlater : ∀ rd ∈ later, rd.entries = [] ∧
      (rd.hardState.isEmptyState = false → rd.hardState.commit = peers ∧ MessagePack.Fits rd.hardState.toObj))
    {ws : List BootWrite} (hws : ws <+: createWrites mp crc ++ (s.savedBytes mp crc (rd :: later)).map .wal)
    (ftell' : Nat) (draws' : Nat → Nat) :
    RaftNode.Recovers mp crc κ id peers (ws.foldl BootDisk.write {}) ftell' draws' ↔
      ws = [] ∨ createWrites mp crc ++ (s.savedBytes mp crc [rd]).map .wal <+: ws := by
  have hid : id ≠ 0 := new_id hmp hnew
  obtain ⟨s₁', hnew', hseeded, hunstable, hprev', -, -, hdata, hstored⟩ := new_seeded κ crc hmp hid peers ftell draws
  obtain rfl := Except.ok.inj (hnew.symm.trans hnew')
  obtain ⟨s₀', hschedule', hnode, hwal'⟩ := schedule_node mp hdata
  obtain rfl := Except.ok.inj (hschedule.symm.trans hschedule')
  have hlog' : s.log = s₁.log := by rw [hlog, RaftNode.log, hnode]; rfl
  -- the first `Ready`
  have hentries : rd.entries = (List.range peers).map (peerEntry mp) := by
    rw [(ready_spec hrd).2.1, ← hunstable, ← hlog']
    rfl
  have hcommit : rd.hardState.commit = peers := by
    have hcommitted : s.node.raft.hardState.commit = peers := (congrArg RaftLog.committed hlog').trans hseeded.committed
    rw [(ready_hardState hrd).1, if_pos]
    · exact hcommitted
    · intro hsame
      rw [hprev, hnode, hprev'] at hsame
      rw [hsame] at hcommitted
      have : (0 : Nat) = peers := hcommitted
      omega
  have hrounds : FirstRounds mp peers rd.hardState (later.flatMap fun rd => saveItems rd.hardState rd.entries) := by
    refine ⟨hpos, hmax, hfits, hstate, hcommit, fun v hv => ?_⟩
    obtain ⟨rd', hrd', hv⟩ := List.mem_flatMap.mp hv
    obtain ⟨hnone, hrest⟩ := hlater rd' hrd'
    rw [saveItems, hnone, List.map_nil, List.nil_append] at hv
    split at hv
    · cases hv
    · rename_i hstateful
      obtain ⟨hcommit', hfits'⟩ := hrest (Bool.not_eq_true _ ▸ hstateful)
      exact ⟨_, List.mem_singleton.mp hv, hcommit', by rw [List.mem_singleton.mp hv]; exact WalItem.fits_state hmp hfits'⟩
  have hne : rd.entries ≠ [] := by
    rw [hentries]
    refine List.ne_nil_of_length_pos ?_
    rwa [List.length_map, List.length_range]
  obtain ⟨hfirst, hwhole, hbytes⟩ := savedBytes_rounds (s := s) hstored (hwal.trans hwal') hne later
  rw [hfirst]
  rw [hentries] at hwhole hbytes ⊢
  rcases boot_cut hws with rfl | ⟨hdir, hnofile⟩ | ⟨part, hpart, rfl⟩
  · refine iff_of_true ?_ (Or.inl rfl)
    obtain ⟨s₁, hboot, hseed, -, -, hconf, hvoters, hdata, -⟩ := new_seeded κ crc hmp hid peers ftell' draws'
    obtain ⟨s₀, hsched, hnode, -⟩ := schedule_node mp hdata
    obtain ⟨s, happly, hpeers⟩ := Seeded.applyRecovered (s := s₀) hmp hmax (by rw [RaftNode.log, hnode]; exact hseed)
      (by rw [hnode]; exact hconf) (by rw [hnode]; exact hvoters.subset)
    exact ⟨s₁, s₀, s, hboot, hsched, happly, hpeers⟩
  · refine iff_of_false ?_ ?_
    · rintro ⟨s₁, s₀, s, hboot, -⟩
      rw [RaftNode.boot, if_pos hdir, hnofile] at hboot
      cases hboot
    · rintro (rfl | ⟨rest, rfl⟩)
      · cases hdir
      · rw [List.append_assoc, List.prefix_append_right_inj] at hws
        obtain ⟨part, -, heq⟩ := map_initial hws
        rw [List.append_assoc, heq, write_records] at hnofile
        cases hnofile
  · rw [write_records]
    have hsplit : createWrites mp crc ++ part.map .wal ≠ [] := by
      rw [createWrites]
      simp
    have hcut : createWrites mp crc ++ (itemBytes mp crc (FirstRounds.items mp peers rd.hardState)).map .wal <+:
        createWrites mp crc ++ part.map .wal ↔ itemBytes mp crc (FirstRounds.items mp peers rd.hardState) <+: part := by
      rw [List.prefix_append_right_inj]
      exact List.prefix_map_iff_of_injective fun a b h => BootWrite.wal.inj h
    rw [or_iff_right hsplit, hcut]
    constructor
    · intro hrec
      by_contra hnot
      exact hrounds.torn hmp hid (hpart.trans hbytes) hnot ftell' draws' hrec
    · intro hall
      exact hrounds.whole hmp hid (hpart.trans hbytes) hall ftell' draws'

/-- The entries of peers fit where they are packed into few bytes. -/
theorem peerEntry_fits {i : Nat} (hi : i + 1 < 2 ^ 64) (hdata : (mp.pack (addPeer i).toObj).length < 2 ^ 32)
    (hlen : (mp.pack (peerEntry mp i).toObj).length ≤ maxWalRecordLen) : (WalItem.entry (peerEntry mp i)).Fits mp := by
  have hterm : (peerEntry mp i).term < 2 ^ 64 := show 1 < 2 ^ 64 by decide
  exact ⟨Entry.fits hterm hi hdata, hlen⟩

/-- The first member of three; behind its first round it votes in an election. -/
theorem first_boot_crash_three : ∃ (s₁ s₀ : RaftNode Unit) (rd : Ready) (n : RawNode),
    RaftNode.new messagePack crc32 1 3 none ∅ 0 (fun _ => 0) = .ok s₁ ∧ s₁.schedule messagePack = .ok s₀ ∧
      s₀.node.ready = .ok (rd, n) ∧ rd.hardState = { term := 1, vote := 0, commit := 3 } ∧
      ∀ ws, ws <+: createWrites messagePack crc32 ++ (s₀.savedBytes messagePack crc32
          [rd, { hardState := { term := 2, vote := 3, commit := 3 } }]).map .wal →
        (RaftNode.Recovers messagePack crc32 Unit 1 3 (ws.foldl BootDisk.write {}) 0 (fun _ => 0) ↔
          ws = [] ∨ createWrites messagePack crc32 ++ (s₀.savedBytes messagePack crc32 [rd]).map .wal <+: ws) := by
  obtain ⟨⟨s₁, s₀, rd, n⟩, hrun, heval⟩ := exists_ok_of_any
    (x := do
      let s₁ ← RaftNode.new (κ := Unit) messagePack crc32 1 3 none ∅ 0 fun _ => 0
      let s₀ ← s₁.schedule messagePack
      let p ← s₀.node.ready
      .ok (s₁, s₀, p.1, p.2))
    (p := fun (_, _, rd, _) => decide (rd.hardState = { term := 1, vote := 0, commit := 3 })) (by decide +kernel)
  obtain ⟨a₁, hnew, hrun⟩ := bind_ok hrun
  obtain ⟨a₀, hschedule, hrun⟩ := bind_ok hrun
  obtain ⟨⟨a, b⟩, hready, hrun⟩ := bind_ok hrun
  simp only [Except.ok.injEq, Prod.mk.injEq] at hrun
  obtain ⟨rfl, rfl, rfl, rfl⟩ := hrun
  have hstate : a.hardState = { term := 1, vote := 0, commit := 3 } := of_decide_eq_true heval
  have hlengths : ∀ i < 3, (messagePack.pack (addPeer i).toObj).length < 2 ^ 32 ∧
      (messagePack.pack (peerEntry messagePack i).toObj).length ≤ maxWalRecordLen := by decide +kernel
  refine ⟨a₁, a₀, a, b, hnew, hschedule, hready, hstate, fun ws hws => ?_⟩
  refine first_boot_crash messagePack_reliable (by decide) (by decide) (fun i hi => ?_) hnew hschedule rfl rfl rfl hready
    ?_ (fun rd hrd => ?_) hws 0 _
  · obtain ⟨hdata, hlen⟩ := hlengths i hi
    exact peerEntry_fits (by omega) hdata hlen
  · rw [hstate]
    exact HardState.fits (by decide) (by decide) (by decide)
  · rw [List.mem_singleton.mp hrd]
    exact ⟨rfl, fun _ => ⟨rfl, HardState.fits (by decide) (by decide) (by decide)⟩⟩

/-- A crash behind the making of the directory, and one behind the renaming of the file: the first start
that follows ends the process, the other one comes up without voters. -/
theorem first_boot_lost :
    [BootWrite.createWalDir] <+: createWrites messagePack crc32 ∧
      RaftNode.boot (κ := Unit) messagePack crc32 1 3 ([.createWalDir].foldl BootDisk.write {}) 0 (fun _ => 0) =
        .error "wal not found" ∧
      ¬ RaftNode.Recovers messagePack crc32 Unit 1 3 ([.createWalDir].foldl BootDisk.write {}) 0 (fun _ => 0) ∧
      ¬ RaftNode.Recovers messagePack crc32 Unit 1 3 ((createWrites messagePack crc32).foldl BootDisk.write {}) 0
        (fun _ => 0) := by
  refine ⟨⟨_, rfl⟩, rfl, ?_, ?_⟩
  · rintro ⟨s₁, s₀, s, hboot, -⟩
    cases hboot
  · rintro ⟨s₁, s₀, s, hboot, hschedule, happly, hvoters⟩
    obtain ⟨s', hrun, heval⟩ := exists_ok_of_any
      (x := do
        let s₁ ← RaftNode.boot (κ := Unit) messagePack crc32 1 3 ((createWrites messagePack crc32).foldl BootDisk.write {}) 0
          fun _ => 0
        let s₀ ← s₁.schedule messagePack
        s₀.applyRecovered messagePack)
      (p := fun s => decide (s.node.raft.members.voters = ∅)) (by decide +kernel)
    obtain ⟨a₁, hboot', hrun⟩ := bind_ok hrun
    obtain rfl := Except.ok.inj (hboot.symm.trans hboot')
    obtain ⟨a₀, hschedule', hrun⟩ := bind_ok hrun
    obtain rfl := Except.ok.inj (hschedule.symm.trans hschedule')
    obtain rfl := Except.ok.inj (happly.symm.trans hrun)
    rw [of_decide_eq_true heval] at hvoters
    exact absurd hvoters (by decide)

end Restart

end RaftEtcd
