import RaftEtcd.FirstBoot
import RaftEtcd.LocalSnapshot
import RaftEtcd.Restart

/-! What is in the store of a server that starts again. The entries behind the snapshot that it finds are
published one after the other, but on what: the map of the snapshot goes to the store only when the log
has no entry behind it, and else the store begins with nothing. -/
namespace RaftEtcd

open Snapshotter
open Journal (Prog)

variable {mp : Msgpack} {crc : Bytes → UInt32} {κ : Type}

/-! ### The map that the log makes -/

namespace KeyValues
variable {kv kv' kv₁ : KeyValues}

/-- The same pairs. In which order a map is iterated does not count. -/
def Same (kv kv' : KeyValues) : Prop := ∀ key, kv.lookup key = kv'.lookup key

theorem Same.insert (h : kv.Same kv') (key value : Bytes) :
    Same (AList.insert key value kv) (AList.insert key value kv') := by
  intro k
  by_cases hk : k = key
  · rw [hk, AList.lookup_insert, AList.lookup_insert]
  · rw [AList.lookup_insert_ne hk, AList.lookup_insert_ne hk, h k]

theorem Same.erase (h : kv.Same kv') (key : Bytes) : Same (AList.erase key kv) (AList.erase key kv') := by
  intro k
  by_cases hk : k = key
  · rw [hk, AList.lookup_erase, AList.lookup_erase]
  · rw [AList.lookup_erase_ne hk, AList.lookup_erase_ne hk, h k]

theorem Same.eraseAll (h : kv.Same kv') (keys : List Bytes) :
    Same (keys.foldl (fun kv key => kv.erase key) kv) (keys.foldl (fun kv key => kv.erase key) kv') := by
  induction keys generalizing kv kv' with
  | nil => exact h
  | cons key keys ih => exact ih (h.erase key)

/-- A command does to maps with the same pairs the same. -/
theorem Same.applyData (h : kv.Same kv') {data : RedisCommitData} (ha : kv.applyData data = .ok kv₁) :
    ∃ kv₂, kv'.applyData data = .ok kv₂ ∧ kv₁.Same kv₂ := by
  unfold KeyValues.applyData at ha ⊢
  by_cases hset : data.type = kCommitSet
  · rw [if_pos hset] at ha ⊢
    split at ha
    · rw [← Except.ok.inj ha]
      exact ⟨_, rfl, h.insert _ _⟩
    · cases ha
  · rw [if_neg hset] at ha ⊢
    by_cases hdel : data.type = kCommitDel
    · rw [if_pos hdel] at ha ⊢
      rw [← Except.ok.inj ha]
      exact ⟨_, rfl, h.eraseAll _⟩
    · rw [if_neg hdel] at ha ⊢
      rw [← Except.ok.inj ha]
      exact ⟨kv', rfl, h⟩

/-- What is written of a map is read as a map with the same pairs. -/
theorem convert_toObj (kv : KeyValues) : ∃ kv', KeyValues.convert kv.toObj = some kv' ∧ kv'.Same kv := by
  have hpairs : (kv.entries.map fun s => (MessagePack.Obj.str s.1, MessagePack.Obj.str s.2)).mapM convertPair =
      some (kv.entries.map fun s => (s.1, s.2)) := by
    induction kv.entries with
    | nil => rfl
    | cons s l ih =>
        rw [List.map_cons, List.mapM_cons, ih]
        rfl
  refine ⟨(kv.entries.map fun s => (s.1, s.2)).foldl (fun kv p => kv.insert p.1 p.2) ∅, ?_, fun key => ?_⟩
  · rw [toObj, convert, hpairs]
    rfl
  · rw [List.foldl_map]
    change AList.lookup key (kv.entries.foldl (fun (m : KeyValues) s => m.insert s.1 s.2) ∅) = _
    rw [AssocMap.lookup_foldl_insert kv.nodupKeys, AList.lookup_empty, Option.or_none]
    rfl

end KeyValues

theorem applyEntry_same {kv kv' kv₁ : KeyValues} {e : Entry} (h : kv.Same kv') (ha : applyEntry mp kv e = .ok kv₁) :
    ∃ kv₂, applyEntry mp kv' e = .ok kv₂ ∧ kv₁.Same kv₂ := by
  unfold applyEntry at ha ⊢
  by_cases hcommand : e.type = entryNormal ∧ e.data ≠ []
  · rw [if_pos hcommand] at ha ⊢
    cases hdecode : decodeCommit mp e.data with
    | none =>
        rw [hdecode] at ha
        rw [← Except.ok.inj ha]
        exact ⟨kv', rfl, h⟩
    | some commit =>
        rw [hdecode] at ha
        exact h.applyData ha
  · rw [if_neg hcommand] at ha ⊢
    rw [← Except.ok.inj ha]
    exact ⟨kv', rfl, h⟩

/-- The entries with the indexes from 1 to `n`, applied to an empty map. -/
def mapOf (mp : Msgpack) (committed : Nat → Entry) (n : Nat) : Result KeyValues :=
  ((List.range n).map fun i => committed (i + 1)).foldlM (applyEntry mp) ∅

theorem mapOf_succ (committed : Nat → Entry) (n : Nat) :
    mapOf mp committed (n + 1) = mapOf mp committed n >>= fun kv => applyEntry mp kv (committed (n + 1)) := by
  rw [mapOf, List.range_succ, List.map_append, List.foldlM_append]
  congr 1
  funext kv
  exact bind_pure _

namespace RaftNode
variable {committed : Nat → Entry} {s s' : RaftNode κ} {d : Nat}

/-- The store has what the entries up to `d` make; those that do not count as applied are no commands. -/
structure ShowsUpTo (mp : Msgpack) (committed : Nat → Entry) (d : Nat) (s : RaftNode κ) : Prop where
  map : ∃ kv, mapOf mp committed d = .ok kv ∧ s.store.keyValues.Same kv
  le : s.appliedIndex ≤ d
  passed : ∀ i, s.appliedIndex < i → i ≤ d → (committed i).type ≠ entryNormal

/-- The store has what the entries up to the applied index make. -/
def ShowsLog (mp : Msgpack) (committed : Nat → Entry) (s : RaftNode κ) : Prop :=
  ∃ kv, mapOf mp committed s.appliedIndex = .ok kv ∧ s.store.keyValues.Same kv

theorem mapOf_passed {a : Nat} (hle : a ≤ d) (h : ∀ i, a < i → i ≤ d → (committed i).type ≠ entryNormal) :
    mapOf mp committed d = mapOf mp committed a := by
  induction d with
  | zero => rw [Nat.le_zero.mp hle]
  | succ d ih =>
      rcases Nat.eq_or_lt_of_le hle with rfl | hlt
      · rfl
      · rw [mapOf_succ, ih (by omega) fun i hi hid => h i hi (by omega)]
        cases mapOf mp committed a with
        | error text => rfl
        | ok kv => exact applyEntry_of_ne (h (d + 1) hlt le_rfl)

theorem ShowsUpTo.shows (h : s.ShowsUpTo mp committed d) : s.ShowsLog mp committed := by
  obtain ⟨kv, hkv, hsame⟩ := h.map
  exact ⟨kv, (mapOf_passed h.le h.passed).symm.trans hkv, hsame⟩

theorem ShowsLog.upTo (h : s.ShowsLog mp committed) : s.ShowsUpTo mp committed s.appliedIndex :=
  ⟨h, le_rfl, fun i hi hle => by omega⟩

/-- Publishing the entries that come next keeps it so. -/
theorem ShowsUpTo.publishEntries {entries : List Entry} (h : s.ShowsUpTo mp committed d)
    (hidx : IndexedFrom (d + 1) entries) (hcom : ∀ e ∈ entries, committed e.index = e)
    (hpublish : RaftNode.publishEntries mp entries s = .ok s') : s'.ShowsLog mp committed := by
  induction entries generalizing s d with
  | nil =>
      obtain rfl := Except.ok.inj hpublish
      exact h.shows
  | cons e entries ih =>
      obtain ⟨hindex, hrest⟩ := hidx.cons
      rw [publishEntries_cons] at hpublish
      obtain ⟨⟨s₁, posted, more⟩, hpost, hpublish⟩ := bind_ok hpublish
      obtain ⟨s₂, hcaught, hpublish⟩ := bind_ok hpublish
      obtain ⟨store, hdrain, hcaught⟩ := bind_ok hcaught
      obtain rfl := Except.ok.inj hcaught
      obtain ⟨-, hstore, -, -, hcases⟩ := postEntry_spec hpost
      have hentry : committed (d + 1) = e := hindex ▸ hcom e (List.mem_cons_self ..)
      obtain ⟨kv, hkv, hsame⟩ := h.map
      have happly : applyEntry mp s.store.keyValues e = .ok store.keyValues := by
        rw [← hstore]
        exact Threads.drain_posted (hcases.imp (fun h => ⟨h.1, h.2.2⟩) fun h => ⟨h.1, h.2.1⟩) hdrain
      have hnext : ShowsUpTo mp committed (d + 1) { s₁ with store := store } := by
        obtain ⟨kv', hkv', hsame'⟩ := applyEntry_same hsame happly
        refine ⟨⟨kv', ?_, hsame'⟩, ?_, fun i hi hle => ?_⟩
        · rw [mapOf_succ, hkv, hentry]
          exact hkv'
        · have := h.le
          rcases hcases with ⟨-, heq, -⟩ | ⟨-, -, heq | heq⟩
          · exact (heq.trans hindex).le
          · exact (heq.trans hindex).le
          · change s₁.appliedIndex ≤ d + 1
            omega
        · change s₁.appliedIndex < i at hi
          rcases hcases with ⟨-, heq, -⟩ | ⟨hty, -, heq | heq⟩
          · omega
          · omega
          · by_cases hlast : i = d + 1
            · rw [hlast, hentry]
              exact hty
            · exact h.passed i (by omega) (by omega)
      cases more with
      | true => exact ih hnext hrest (fun e' he' => hcom e' (List.mem_cons_of_mem _ he')) hpublish
      | false =>
          obtain rfl := Except.ok.inj hpublish
          exact hnext.shows

/-- What may be left of the entries comes right behind the applied index. -/
theorem entriesToApply_indexed {j : Nat} {committedEntries entries : List Entry} (h : IndexedFrom j committedEntries)
    (he : s.entriesToApply committedEntries = .ok entries) : IndexedFrom (s.appliedIndex + 1) entries := by
  unfold entriesToApply at he
  split at he
  · rw [← Except.ok.inj he]
    exact .nil _
  · rename_i e es
    have hfirst := h.cons.1
    split at he
    · cases he
    · rw [← Except.ok.inj he]
      have hdrop := h.drop (s.appliedIndex + 1 - e.index)
      rwa [show j + (s.appliedIndex + 1 - e.index) = s.appliedIndex + 1 by omega] at hdrop

end RaftNode

/-! ### The snapshots on the disk -/

/-- The data of a snapshot is the map of the entries up to its index. -/
def Snapshot.ShowsLog (mp : Msgpack) (committed : Nat → Entry) (snap : Snapshot) : Prop :=
  ∃ kv kv', mapOf mp committed snap.metadata.index = .ok kv ∧ snap.data = mp.pack (KeyValues.toObj kv') ∧
    snap.data.length < 2 ^ 32 ∧ kv'.Same kv

/-- And so it is in every file of a snapshot that can be read. -/
def Archived (mp : Msgpack) (crc : Bytes → UInt32) (committed : Nat → Entry) (dir : SnapDir) : Prop :=
  ∀ name file snap, dir.lookup name = some file → IsSnap name → readSnap mp crc {} file = some snap →
    snap.ShowsLog mp committed

namespace Archived
variable {committed : Nat → Entry} {dir : SnapDir}

/-- Another snapshot is written, or a part of it. -/
theorem insert (h : Archived mp crc committed dir) {snap : Snapshot} {name part : Bytes} (hlib : mp.Delimits snap.toObj)
    (hsnap : snap.ShowsLog mp committed) (hpart : part <+: snapFile mp crc snap) :
    Archived mp crc committed (dir.insert name part) := by
  intro n file y hfile hn hread
  by_cases heq : n = name
  · rw [heq, AList.lookup_insert] at hfile
    obtain rfl := Option.some.inj hfile
    rw [readSnap_part hlib hpart hread]
    exact hsnap
  · rw [AList.lookup_insert_ne heq] at hfile
    exact h n file y hfile hn hread

/-- Looking for one renames files that cannot be read. -/
theorem load (h : Archived mp crc committed dir) :
    Archived mp crc committed (Snapshotter.load mp crc dir {}).1 ∧
      ∀ snap, (Snapshotter.load mp crc dir {}).2 = some snap → snap.ShowsLog mp committed := by
  obtain ⟨dir', ⟨hload, hall⟩ | ⟨name, file, found, hload, hfile, hsnap, hread, hothers⟩⟩ := load_spec mp crc dir
  · rw [hload]
    refine ⟨fun n f y hf hn _ => ?_, fun snap hs => by cases hs⟩
    cases (hall n hn).2.symm.trans hf
  · rw [hload]
    refine ⟨fun n f y hf hn hy => ?_, fun snap hs => ?_⟩
    · rcases hothers n hn with ⟨-, -, hgone⟩ | ⟨-, hsame⟩
      · cases hgone.symm.trans hf
      · exact h n f y (hsame.symm.trans hf) hn hy
    · obtain rfl := Option.some.inj hs
      exact h name file found hfile hsnap hread

end Archived

/-! ### Rounds -/

/-- What the next round hands out are entries of the log. -/
def RaftNode.HandsOut (committed : Nat → Entry) (s : RaftNode κ) : Prop :=
  ∀ entries, s.log.nextEntries = .ok entries → ∀ entry ∈ entries, committed entry.index = entry

/-- A round that can be written, without a snapshot from a leader. -/
structure RaftNode.Ordinary (mp : Msgpack) (crc : Bytes → UInt32) (committed : Nat → Entry) (s : RaftNode κ) : Prop where
  fine : Fine mp crc s
  alone : s.log.unstable.snapshot = none
  handsOut : s.HandsOut committed

section Rounds
variable {committed : Nat → Entry} {s s' : RaftNode κ} {x t : Nat} {vs buf : List WalItem}

/-- A process can start from the disk, and the snapshots on it are those of the log. -/
def CanRecover (mp : Msgpack) (crc : Bytes → UInt32) (committed : Nat → Entry) (d : Disk) : Prop :=
  CanRestart mp crc d ∧ Archived mp crc committed d.snaps

/-- A process that runs, with the snapshots of the log on its disk and its map in the store. -/
structure Accurate (mp : Msgpack) (crc : Bytes → UInt32) (committed : Nat → Entry) (s : RaftNode κ) : Prop where
  live : ∃ x t vs buf, Live mp crc x t vs buf s
  archived : Archived mp crc committed s.snaps
  shows : s.ShowsLog mp committed

/-- A snapshot that it takes is one of the log, too. -/
theorem RaftNode.Takes.showsLog {snap : Snapshot} (h : s.Takes mp snap) (hs : s.ShowsLog mp committed)
    (hlen : snap.data.length < 2 ^ 32) : snap.ShowsLog mp committed := by
  obtain ⟨kv, hkv, hsame⟩ := hs
  exact ⟨kv, s.store.keyValues, by rw [h.index]; exact hkv, h.data, hlen, hsame⟩

theorem Live.round_accurate (hmp : mp.Reliable) (h : Live mp crc x t vs buf s) (ho : s.Ordinary mp crc committed)
    (harch : Archived mp crc committed s.snaps) (hshows : s.ShowsLog mp committed) :
    Guarded (CanRecover mp crc committed) (Accurate mp crc committed) s (s.pullReadyEvents mp crc) := by
  have hstart : CanRecover mp crc committed s.disk := ⟨h.canRestart, harch⟩
  refine pullReadyEvents_guarded hstart ⟨⟨x, t, vs, buf, h⟩, harch, hshows⟩
    (fun rd n hrd => ⟨⟨x, t, vs, buf, h.handing hrd⟩, harch, hshows⟩) fun rd n hrd => ?_
  obtain ⟨hnext, -⟩ := ready_spec hrd
  refine Guarded.bind (h.plain_guarded hmp ho.fine hrd ho.alone fun ws b _ hd => ⟨⟨x, t, vs, ws, hd⟩, harch⟩) ?_
  rintro s₁ ⟨w, ws, buf', rfl, -, hstaged⟩
  refine hstaged.rest_guarded ⟨hstaged.canRestart, harch⟩ fun st ents s₂ _ hents hpublish hdisk hwork => ?_
  have hidx := RaftNode.entriesToApply_indexed (h.handed_piece hrd).1.indexed hents
  have hcom : ∀ e ∈ ents, committed e.index = e := fun e he =>
    ho.handsOut _ hnext e (RaftNode.entriesToApply_subset hents he)
  have hbefore : RaftNode.ShowsLog mp committed (({ s with node := n, wal := w } : RaftNode κ).setStorage st) := hshows
  have hshows₂ : s₂.ShowsLog mp committed := hbefore.upTo.publishEntries hidx hcom hpublish
  have hsnaps : s₂.snaps = s.snaps := congrArg Disk.snaps hdisk
  have harch₂ : Archived mp crc committed s₂.snaps := hsnaps.symm ▸ harch
  have hlib : ∀ {snap : Snapshot}, s₂.Takes mp snap → snap.data.length < 2 ^ 32 → mp.Delimits snap.toObj :=
    fun htakes hlen => hmp.delimits _ (Snapshot.fits hlen htakes.index_lt htakes.term_lt)
  refine (hwork.trigger_guarded hmp ⟨hwork.canRestart, harch₂⟩ (fun snap b _ hd => ⟨⟨x, t, _, _, hd⟩, harch₂⟩)
    fun snap part b htakes hlen hpart hd => ⟨⟨x, t, _, [], hd⟩,
      harch₂.insert (hlib htakes hlen) (htakes.showsLog hshows₂ hlen) hpart⟩).weaken ?_
  rintro s₃ ⟨hstore, happlied, ⟨hsame, hwork₃⟩ | ⟨snap, htakes, hlen, hinsert, hwork₃⟩⟩
  · refine ⟨⟨x, t, _, _, hwork₃.advanced⟩, ?_, ?_⟩
    · change Archived mp crc committed s₃.snaps
      rw [hsame]
      exact harch₂
    · change ∃ kv, mapOf mp committed s₃.appliedIndex = .ok kv ∧ s₃.store.keyValues.Same kv
      rw [hstore, happlied]
      exact hshows₂
  · refine ⟨⟨x, t, _, _, hwork₃.advanced⟩, ?_, ?_⟩
    · change Archived mp crc committed s₃.snaps
      rw [hinsert]
      exact harch₂.insert (hlib htakes hlen) (htakes.showsLog hshows₂ hlen) (List.prefix_refl _)
    · change ∃ kv, mapOf mp committed s₃.appliedIndex = .ok kv ∧ s₃.store.keyValues.Same kv
      rw [hstore, happlied]
      exact hshows₂

end Rounds

/-! ### Starting again -/

/-- The entry is in a record of the log. -/
def Disk.Records (mp : Msgpack) (crc : Bytes → UInt32) (d : Disk) (e : Entry) : Prop :=
  ∃ data, (walEntryType, data) ∈ processed crc d.wal ∧ (mp.unpack data).bind (Entry.convert {}) = some e

/-- Behind the snapshot that is found the log has no entry, or the snapshot has no pair. -/
def Disk.Whole (mp : Msgpack) (crc : Bytes → UInt32) (d : Disk) : Prop :=
  ∀ snap, (Snapshotter.load mp crc d.snaps {}).2 = some snap →
    (∀ e, d.Records mp crc e → e.index ≤ snap.metadata.index) ∨ (mp.unpack snap.data).bind KeyValues.convert = some ∅

section Starting
variable {committed : Nat → Entry} {s s₁ s' : RaftNode κ} {vs : List WalItem}

theorem records_iff (hmp : mp.Reliable) (hfits : ∀ v ∈ vs, v.Fits mp) {d : Disk}
    (h : processed crc d.wal = itemRecords mp vs) (e : Entry) : d.Records mp crc e ↔ e ∈ itemEntries vs := by
  have hback : ∀ {e'}, WalItem.entry e' ∈ vs → (mp.unpack (mp.pack e'.toObj)).bind (Entry.convert {}) = some e' := by
    intro e' hmem
    have hrest : mp.Restores e'.toObj := (hmp.delimits _ (hfits _ hmem).1).restores
    rw [hrest, Option.bind_some, Entry.convert_toObj]
  rw [Disk.Records, h, itemRecords, valueRecords, List.map_map]
  constructor
  · rintro ⟨data, hmem, hread⟩
    obtain ⟨v, hv, hrecord⟩ := List.mem_map.mp hmem
    obtain ⟨htype, rfl⟩ := Prod.mk.inj hrecord
    cases v with
    | entry e' =>
        obtain rfl := Option.some.inj ((hback hv).symm.trans hread)
        exact List.mem_flatMap.mpr ⟨_, hv, List.mem_singleton.mpr rfl⟩
    | state hs => exact absurd htype (show walStateType ≠ walEntryType by decide)
    | snapshot snap => exact absurd htype (show walSnapshotType ≠ walEntryType by decide)
  · intro hmem
    have hv := mem_itemEntries hmem
    exact ⟨_, List.mem_map.mpr ⟨_, hv, rfl⟩, hback hv⟩

theorem view_eq_nil_iff {x : Nat} {es : List Entry} : view x es = [] ↔ ∀ e ∈ es, e.index ≤ x := by
  induction es using List.reverseRecOn with
  | nil => exact ⟨fun _ e he => absurd he List.not_mem_nil, fun _ => rfl⟩
  | append_singleton es e ih =>
      rw [view_concat, viewPut]
      split
      · rename_i hlt
        refine ⟨fun h => absurd h (by simp), fun h => ?_⟩
        have := h e (by simp)
        omega
      · rename_i hle
        simp only [ih, List.mem_append, List.mem_singleton, or_imp, forall_and, forall_eq]
        exact (and_iff_left (Nat.not_lt.mp hle)).symm

/-- The constructor of the store reads a map as it was. -/
theorem RedisStore.new_packed {kv : KeyValues} (hlib : mp.Delimits kv.toObj) {store : RedisStore κ}
    (h : RedisStore.new mp (mp.pack kv.toObj) = .ok store) : store.keyValues.Same kv := by
  obtain ⟨kv', hconvert, hsame⟩ := kv.convert_toObj
  have hrest : mp.unpack (mp.pack kv.toObj) = some kv.toObj := hlib.restores
  rw [RedisStore.new, if_neg hlib.nonempty, hrest] at h
  obtain rfl := Except.ok.inj h
  simpa only [hconvert, Option.getD_some] using hsame

theorem KeyValues.same_empty_iff {kv kv' : KeyValues} (h : kv'.Same kv) : Same ∅ kv ↔ kv' = ∅ := by
  constructor
  · intro hempty
    refine AList.ext (List.eq_nil_iff_forall_not_mem.mpr fun p hp => ?_)
    have hlook := AList.mem_lookup_iff.mpr hp
    rw [h p.1, ← hempty p.1, AList.lookup_empty] at hlook
    cases hlook
  · rintro rfl
    exact h

/-- A start finds the snapshots of the log, and the store that it makes is that of the log exactly when the
disk is whole. -/
theorem CanRecover.starts (hmp : mp.Reliable)
    (hmaps : ∀ kv : KeyValues, (mp.pack kv.toObj).length < 2 ^ 32 → mp.Delimits kv.toObj) {d : Disk}
    (h : CanRecover mp crc committed d) {id peers ftell : Nat} {draws : Nat → Nat}
    (hnew : RaftNode.new mp crc id peers (some d.wal) d.snaps ftell draws = .ok s₁) (hschedule : s₁.schedule mp = .ok s') :
    Archived mp crc committed s'.snaps ∧ (s'.ShowsLog mp committed ↔ d.Whole mp crc) := by
  obtain ⟨⟨x, t, vs, ws, hrestart⟩, harch⟩ := h
  obtain ⟨r, c, hreplay, hstorage, -, hstarted, hsnaps, hstore⟩ := RaftNode.started_of_new hnew hschedule
  obtain ⟨r', y, u, pre, hreplay', -, -, hr, hfound⟩ := hrestart.replay hmp ftell
  obtain rfl := Except.ok.inj (hreplay.symm.trans hreplay')
  obtain ⟨harch', hright⟩ := harch.load
  refine ⟨hsnaps ▸ hfound.snaps ▸ harch', ?_⟩
  have happlied : s'.appliedIndex = y := by
    rw [hstarted.appliedIndex, hstarted.storage, hstorage, hr.snapshot]
  have hbehind : r.storage.ents = [] ↔ ∀ e, d.Records mp crc e → e.index ≤ y := by
    rw [hr.ents, view_eq_nil_iff]
    exact forall_congr' fun e => by rw [records_iff hmp hr.sound.fits hfound.records]
  have hindex := hfound.index
  have hdata := hfound.snapData
  rw [RaftNode.ShowsLog, happlied]
  unfold Disk.Whole
  cases hload : (Snapshotter.load mp crc d.snaps {}).2 with
  | none =>
      rw [hload] at hindex hdata
      obtain rfl : 0 = y := hindex
      have hnil : r.snapData = [] := hdata.trans (ite_self _)
      rw [hnil] at hstore
      rw [← Except.ok.inj hstore]
      exact iff_of_true ⟨∅, rfl, fun _ => rfl⟩ fun snap hs => by cases hs
  | some snap =>
      rw [hload, Option.getD_some] at hindex hdata
      subst hindex
      obtain ⟨kv, kv', hkv, hpack, hlen, hsame⟩ := hright snap hload
      rw [hpack] at hlen hdata
      have hlib := hmaps kv' hlen
      have hrest : mp.unpack (mp.pack kv'.toObj) = some kv'.toObj := hlib.restores
      obtain ⟨kv₂, hconvert, hsame₂⟩ := kv'.convert_toObj
      have hempty : KeyValues.Same ∅ kv ↔ (mp.unpack snap.data).bind KeyValues.convert = some ∅ := by
        rw [hpack, hrest, Option.bind_some, hconvert, Option.some_inj]
        exact KeyValues.same_empty_iff fun key => (hsame₂ key).trans (hsame key)
      have hshows : (∃ kv, mapOf mp committed snap.metadata.index = .ok kv ∧ s'.store.keyValues.Same kv) ↔
          s'.store.keyValues.Same kv := by
        rw [hkv]
        exact ⟨fun ⟨kv₁, heq, h⟩ => Except.ok.inj heq ▸ h, fun h => ⟨kv, rfl, h⟩⟩
      have hwhole : (∀ snap', some snap = some snap' → (∀ e, d.Records mp crc e → e.index ≤ snap'.metadata.index) ∨
          (mp.unpack snap'.data).bind KeyValues.convert = some ∅) ↔ r.storage.ents = [] ∨ KeyValues.Same ∅ kv := by
        rw [hbehind, hempty]
        exact ⟨fun h => h snap rfl, fun h snap' heq => Option.some.inj heq ▸ h⟩
      rw [hshows, hwhole]
      by_cases hnil : r.storage.ents = []
      · rw [if_pos hnil] at hdata
        rw [hdata] at hstore
        have hkept := RedisStore.new_packed hlib hstore
        exact iff_of_true (fun key => (hkept key).trans (hsame key)) (Or.inl hnil)
      · -- the data of the snapshot is dropped
        rw [if_neg hnil] at hdata
        rw [hdata] at hstore
        rw [← Except.ok.inj hstore]
        exact (or_iff_right hnil).symm

end Starting

/-! ### Lives of a server -/

/-- A crash in a round that can be written leaves this disk. -/
def RaftNode.Crashes (mp : Msgpack) (crc : Bytes → UInt32) (committed : Nat → Entry) (s : RaftNode κ) (d : Disk) : Prop :=
  ∃ ws, ws <+: (s.pullReadyEvents mp crc).writes ∧ (ws = [] ∨ s.Ordinary mp crc committed) ∧ d = ws.foldl Disk.write s.disk

/-- A server that publishes the entries of one log: it starts on an empty disk, lives, takes snapshots of
itself at any points, and starts again on what a crash left, if that meets a condition. -/
inductive ServesLog (mp : Msgpack) (crc : Bytes → UInt32) (id peers : Nat) (committed : Nat → Entry) (P : Disk → Prop) :
    RaftNode κ → Prop
  | boots {s s' : RaftNode κ} {ftell : Nat} {draws : Nat → Nat} :
      RaftNode.new mp crc id peers none ∅ ftell draws = .ok s → s.schedule mp = .ok s' →
      ServesLog mp crc id peers committed P s'
  | counts {s : RaftNode κ} (snapCount : Nat) : ServesLog mp crc id peers committed P s →
      ServesLog mp crc id peers committed P { s with snapCount := snapCount }
  | call {s : RaftNode κ} {a : NodeAction} {n : RawNode} : ServesLog mp crc id peers committed P s → a.IsCall →
      s.node.run a = .ok n → ServesLog mp crc id peers committed P { s with node := n }
  | request {s : RaftNode κ} {store : RedisStore κ} : ServesLog mp crc id peers committed P s →
      store.keyValues = s.store.keyValues → ServesLog mp crc id peers committed P { s with store := store }
  | round {s s' : RaftNode κ} : ServesLog mp crc id peers committed P s → s.Ordinary mp crc committed →
      (s.pullReadyEvents mp crc).result = .ok s' → ServesLog mp crc id peers committed P s'
  | restarts {s s₁ s' : RaftNode κ} {d : Disk} {ftell : Nat} {draws : Nat → Nat} :
      ServesLog mp crc id peers committed P s → s.Crashes mp crc committed d → P d →
      RaftNode.new mp crc id peers (some d.wal) d.snaps ftell draws = .ok s₁ → s₁.schedule mp = .ok s' →
      ServesLog mp crc id peers committed P s'

section Lives
variable {committed : Nat → Entry} {s s₁ s' : RaftNode κ} {id peers : Nat} {d : Disk}

theorem Accurate.crashes (hmp : mp.Reliable) (h : Accurate mp crc committed s) (hd : s.Crashes mp crc committed d) :
    CanRecover mp crc committed d := by
  obtain ⟨⟨x, t, vs, buf, hlive⟩, harch, hshows⟩ := h
  obtain ⟨ws, hws, hordinary, rfl⟩ := hd
  rcases hordinary with rfl | ho
  · exact ⟨hlive.canRestart, harch⟩
  · exact (hlive.round_accurate hmp ho harch hshows).crash ws hws

theorem Accurate.booted (hmp : mp.Reliable) {ftell : Nat} {draws : Nat → Nat}
    (hnew : RaftNode.new mp crc id peers none ∅ ftell draws = .ok s₁) (hschedule : s₁.schedule mp = .ok s') :
    Accurate mp crc committed s' := by
  obtain ⟨hlive, hzero⟩ := new_created hmp hnew
  obtain ⟨r, c, hreplay, -, hsame, hstarted, hsnaps, hstore⟩ := RaftNode.started_of_new hnew hschedule
  obtain ⟨r', hreplay', hr, hload⟩ := replay_created crc hmp ftell
  obtain rfl := Except.ok.inj (hreplay.symm.trans hreplay')
  have hnone : Archived mp crc committed ∅ := fun name file snap hfile => by
    rw [AList.lookup_empty] at hfile
    cases hfile
  refine ⟨⟨0, 0, _, _, hlive.scheduled hschedule⟩, hsnaps ▸ hload ▸ hnone.load.1, ∅, ?_, fun key => ?_⟩
  · rw [hstarted.appliedIndex, hsame, hzero]
    rfl
  · rw [hr.snapData rfl] at hstore
    rw [← Except.ok.inj hstore]

/-- As long as every disk that the server starts on is whole, its store is that of the log. -/
theorem ServesLog.accurate (hmp : mp.Reliable)
    (hmaps : ∀ kv : KeyValues, (mp.pack kv.toObj).length < 2 ^ 32 → mp.Delimits kv.toObj)
    (h : ServesLog mp crc id peers committed (Disk.Whole mp crc) s) : id ≠ 0 ∧ Accurate mp crc committed s := by
  induction h with
  | boots hnew hschedule => exact ⟨new_id hmp hnew, Accurate.booted hmp hnew hschedule⟩
  | counts snapCount _ ih =>
      obtain ⟨hid, ⟨x, t, vs, buf, hlive⟩, harch, hshows⟩ := ih
      exact ⟨hid, ⟨x, t, vs, buf, hlive.of_same rfl rfl rfl rfl rfl⟩, harch, hshows⟩
  | call _ ha hrun ih =>
      obtain ⟨hid, ⟨x, t, vs, buf, hlive⟩, harch, hshows⟩ := ih
      exact ⟨hid, ⟨x, t, vs, buf, hlive.call ha hrun⟩, harch, hshows⟩
  | request _ hsame ih =>
      obtain ⟨hid, ⟨x, t, vs, buf, hlive⟩, harch, kv, hkv, hshows⟩ := ih
      refine ⟨hid, ⟨x, t, vs, buf, hlive.of_same rfl rfl rfl rfl rfl⟩, harch, kv, hkv, ?_⟩
      rw [hsame]
      exact hshows
  | round _ ho hr ih =>
      obtain ⟨hid, ⟨x, t, vs, buf, hlive⟩, harch, hshows⟩ := ih
      exact ⟨hid, ((hlive.round_accurate hmp ho harch hshows).ends _ hr).2⟩
  | restarts _ hd hwhole hnew hschedule ih =>
      obtain ⟨hid, hright⟩ := ih
      have hcan := hright.crashes hmp hd
      obtain ⟨harch, hiff⟩ := hcan.starts hmp hmaps hnew hschedule
      obtain ⟨x, t, vs, ws, hrestart⟩ := hcan.1
      obtain ⟨s₂, y, u, vs', hnew', hlive, -⟩ := hrestart.new hmp hid _ _ _
      obtain rfl := Except.ok.inj (hnew.symm.trans hnew')
      exact ⟨hid, ⟨y, u, vs', [], hlive.scheduled hschedule⟩, harch, hiff.mpr hwhole⟩

/-- In every life of a server whose starts find nothing behind a snapshot with pairs, the store always has
what the entries up to the applied index make, and it has this at the next start exactly if that start, too,
finds nothing behind one. -/
theorem recovered_store_iff (hmp : mp.Reliable)
    (hmaps : ∀ kv : KeyValues, (mp.pack kv.toObj).length < 2 ^ 32 → mp.Delimits kv.toObj)
    (h : ServesLog mp crc id peers committed (Disk.Whole mp crc) s) :
    s.ShowsLog mp committed ∧ ∀ (d : Disk) (ftell : Nat) (draws : Nat → Nat) (s₁ s' : RaftNode κ),
      s.Crashes mp crc committed d → RaftNode.new mp crc id peers (some d.wal) d.snaps ftell draws = .ok s₁ →
      s₁.schedule mp = .ok s' → (s'.ShowsLog mp committed ↔ d.Whole mp crc) := by
  obtain ⟨-, hright⟩ := h.accurate hmp hmaps
  exact ⟨hright.shows, fun d ftell draws s₁ s' hd hnew hschedule =>
    ((hright.crashes hmp hd).starts hmp hmaps hnew hschedule).2⟩

end Lives

/-! ### The first of three members, which takes a snapshot behind every fourth entry -/

theorem messagePack_maps (kv : KeyValues) (h : (messagePack.pack kv.toObj).length < 2 ^ 32) :
    messagePack.Delimits kv.toObj := by
  refine messagePack_delimits (MessagePack.fits_texts (fun p hp => ?_) h)
  obtain ⟨s, -, rfl⟩ := List.mem_map.mp hp
  exact ⟨s.1, s.2, rfl⟩

namespace RaftNode
variable {committed : Nat → Entry} {P : Disk → Prop} {s s₁ s₀ a a' b b' : RaftNode Unit}

instance (s : RaftNode Unit) (committed : Nat → Entry) : Decidable (s.HandsOut committed) :=
  decidable_of_iff ((s.log.nextEntries.toOption.all fun es => es.all fun e => decide (committed e.index = e)) = true) (by
    rw [HandsOut]
    cases s.log.nextEntries with
    | error text => exact iff_of_true rfl fun es h => by cases h
    | ok es =>
        simp only [Except.toOption, Option.all_some, List.all_eq_true, decide_eq_true_eq]
        exact ⟨fun h es' heq => Except.ok.inj heq ▸ h, fun h => h es rfl⟩)

/-- A small round that is ordinary. -/
def Plain (committed : Nat → Entry) (s : RaftNode Unit) : Prop :=
  s.Small ∧ s.log.unstable.snapshot = none ∧ s.HandsOut committed

instance (s : RaftNode Unit) : Decidable (s.Plain committed) := inferInstanceAs (Decidable (_ ∧ _ ∧ _))

theorem Plain.ordinary (h : s.Plain committed) : s.Ordinary messagePack crc32 committed := by
  obtain ⟨hsmall, hnone, hhands⟩ := h
  refine ⟨hsmall.fine (fun snap hs => ?_) fun hne => absurd hnone hne, hnone, hhands⟩
  rw [hnone] at hs
  cases hs

theorem hearAndRound_serves {msg : Message} (h : ServesLog messagePack crc32 1 3 committed P s)
    (hcall : (NodeAction.step msg).IsCall) (hhear : hearAndRound s msg = .ok (a, a')) (ha : a.Plain committed) :
    ServesLog messagePack crc32 1 3 committed P a' := by
  obtain ⟨n, hn, hhear⟩ := bind_ok hhear
  obtain ⟨s₂, hround, hhear⟩ := bind_ok hhear
  obtain ⟨rfl, rfl⟩ := Prod.mk.inj (Except.ok.inj hhear)
  exact .round (.call h hcall hn) ha.ordinary hround

def lastEntry : Entry := { term := 2, index := 5 }

/-- The peers, a command of the second member, and an entry without one. -/
def setThenNothing : Nat → Entry
  | 4 => setByOther
  | 5 => lastEntry
  | i => peerEntry messagePack (i - 1)

/-- The command is published, and the snapshot is taken. -/
def publishSet : Result (RaftNode Unit × RaftNode Unit × RaftNode Unit × RaftNode Unit) := do
  let s₁ ← RaftNode.new messagePack crc32 1 3 none ∅ 0 fun _ => 0
  let s₀ ← s₁.schedule messagePack
  let s ← (({ s₀ with snapCount := 3 } : RaftNode Unit).pullReadyEvents messagePack crc32).result
  let (a, a') ← hearAndRound s (appendOf 3 1 [setByOther])
  .ok ({ s₀ with snapCount := 3 }, s, a, a')

/-- The server starts again on its disk. -/
def startAgain (s : RaftNode Unit) : Result (RaftNode Unit × RaftNode Unit) := do
  let s₁ ← RaftNode.new messagePack crc32 1 3 (some s.disk.wal) s.disk.snaps 0 fun _ => 0
  let s' ← s₁.schedule messagePack
  .ok (s₁, s')

theorem publishSet_serves (h : publishSet = .ok (s₀, s, a, a')) (h₀ : s₀.Plain setThenNothing)
    (ha : a.Plain setThenNothing) : ServesLog messagePack crc32 1 3 setThenNothing P a' := by
  obtain ⟨s₁, hnew, h⟩ := bind_ok h
  obtain ⟨s₂, hschedule, h⟩ := bind_ok h
  obtain ⟨s₃, hround, h⟩ := bind_ok h
  obtain ⟨⟨c, c'⟩, hhear, h⟩ := bind_ok h
  simp only [Except.ok.injEq, Prod.mk.injEq] at h
  obtain ⟨rfl, rfl, rfl, rfl⟩ := h
  exact hearAndRound_serves (.round (.counts 3 (.boots hnew hschedule)) h₀.ordinary hround)
    (appendOf_isCall (by decide)) hhear ha

theorem startAgain_starts (h : startAgain s = .ok (s₁, s₀)) :
    RaftNode.new messagePack crc32 1 3 (some s.disk.wal) s.disk.snaps 0 (fun _ => 0) = .ok s₁ ∧
      s₁.schedule messagePack = .ok s₀ := by
  obtain ⟨a₁, hnew, h⟩ := bind_ok h
  obtain ⟨a₀, hschedule, h⟩ := bind_ok h
  obtain ⟨rfl, rfl⟩ := Prod.mk.inj (Except.ok.inj h)
  exact ⟨hnew, hschedule⟩

theorem crashes_between (s : RaftNode Unit) : s.Crashes messagePack crc32 committed s.disk :=
  ⟨[], List.nil_prefix, Or.inl rfl, rfl⟩

end RaftNode

open RaftNode in
/-- With nothing behind the snapshot, the map is there again. -/
theorem recovered_store_iff_kept : ∃ s s₁ s' : RaftNode Unit,
    ServesLog messagePack crc32 1 3 setThenNothing (Disk.Whole messagePack crc32) s ∧
      s.ShowsLog messagePack setThenNothing ∧
      RaftNode.new messagePack crc32 1 3 (some s.disk.wal) s.disk.snaps 0 (fun _ => 0) = .ok s₁ ∧
      s₁.schedule messagePack = .ok s' ∧ s'.appliedIndex = 4 ∧ s'.store.keyValues.lookup [107] = some [118] ∧
      s.disk.Whole messagePack crc32 := by
  obtain ⟨⟨⟨s₀, s, a, a'⟩, s₁, s'⟩, hrun, heval⟩ := exists_ok_of_any
    (x := do
      let served ← publishSet
      let started ← startAgain served.2.2.2
      .ok (served, started))
    (p := fun r => decide (r.1.1.Plain setThenNothing ∧ r.1.2.2.1.Plain setThenNothing ∧ r.2.2.appliedIndex = 4 ∧
      r.2.2.store.keyValues.lookup [107] = some [118] ∧
      (mapOf messagePack setThenNothing 4).toOption.any fun kv => kv.entries = r.2.2.store.keyValues.entries))
    (by decide +kernel)
  obtain ⟨served, hserve, hrun⟩ := bind_ok hrun
  obtain ⟨started, hstart, hrun⟩ := bind_ok hrun
  obtain ⟨rfl, rfl⟩ := Prod.mk.inj (Except.ok.inj hrun)
  obtain ⟨h₀, ha, happlied, hkey, hmap⟩ := of_decide_eq_true heval
  have hserves := publishSet_serves (P := Disk.Whole messagePack crc32) hserve h₀ ha
  obtain ⟨hnew, hschedule⟩ := startAgain_starts hstart
  obtain ⟨hshows, hnext⟩ := recovered_store_iff messagePack_reliable messagePack_maps hserves
  have hiff := hnext a'.disk 0 (fun _ => 0) s₁ s' (crashes_between a') hnew hschedule
  have hkept : s'.ShowsLog messagePack setThenNothing := by
    rw [ShowsLog, show s'.appliedIndex = 4 from happlied]
    cases hof : mapOf messagePack setThenNothing 4 with
    | error text =>
        rw [hof] at hmap
        cases hmap
    | ok kv =>
        rw [hof] at hmap
        obtain rfl := AList.ext (of_decide_eq_true hmap)
        exact ⟨_, rfl, fun _ => rfl⟩
  exact ⟨a', s₁, s', hserves, hshows, hnew, hschedule, happlied, hkey, hiff.mp hkept⟩

open RaftNode in
/-- With one entry behind the snapshot, the pair of the snapshot is lost. -/
theorem recovered_store_lost : ∃ s s' : RaftNode Unit,
    ServesLog messagePack crc32 1 3 setThenNothing (fun _ => True) s ∧ s.store.keyValues.lookup [107] = some [118] ∧
      ServesLog messagePack crc32 1 3 setThenNothing (fun _ => True) s' ∧ s'.appliedIndex = 4 ∧
      s'.store.keyValues.lookup [107] = none ∧ ¬ s'.ShowsLog messagePack setThenNothing := by
  obtain ⟨⟨⟨s₀, s, a, a'⟩, ⟨b, b'⟩, s₁, s'⟩, hrun, heval⟩ := exists_ok_of_any
    (x := do
      let served ← publishSet
      let heard ← hearAndRound served.2.2.2 (appendOf 4 2 [lastEntry])
      let started ← startAgain heard.2
      .ok (served, heard, started))
    (p := fun r => decide (r.1.1.Plain setThenNothing ∧ r.1.2.2.1.Plain setThenNothing ∧
      r.2.1.1.Plain setThenNothing ∧ r.2.1.2.store.keyValues.lookup [107] = some [118] ∧ r.2.2.2.appliedIndex = 4 ∧
      r.2.2.2.store.keyValues.lookup [107] = none ∧
      (mapOf messagePack setThenNothing 4).toOption.any fun kv => kv.lookup [107] = some [118]))
    (by decide +kernel)
  obtain ⟨served, hserve, hrun⟩ := bind_ok hrun
  obtain ⟨heard, hhear, hrun⟩ := bind_ok hrun
  obtain ⟨started, hstart, hrun⟩ := bind_ok hrun
  simp only [Except.ok.injEq, Prod.mk.injEq] at hrun
  obtain ⟨rfl, rfl, rfl⟩ := hrun
  obtain ⟨h₀, ha, hb, hkey, happlied, hlost, hmap⟩ := of_decide_eq_true heval
  have hserves : ServesLog messagePack crc32 1 3 setThenNothing (fun _ => True) b' :=
    hearAndRound_serves (publishSet_serves hserve h₀ ha) (appendOf_isCall (by decide)) hhear hb
  obtain ⟨hnew, hschedule⟩ := startAgain_starts hstart
  refine ⟨b', s', hserves, hkey, .restarts hserves (crashes_between b') trivial hnew hschedule, happlied, hlost, ?_⟩
  rintro ⟨kv, hkv, hsame⟩
  rw [show s'.appliedIndex = 4 from happlied] at hkv
  rw [hkv] at hmap
  have hthere : kv.lookup [107] = some [118] := of_decide_eq_true hmap
  rw [← hsame, show s'.store.keyValues.lookup [107] = none from hlost] at hthere
  cases hthere

end RaftEtcd
