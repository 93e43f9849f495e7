import RaftEtcd.Dropped
import RaftEtcd.Forwarding
import RaftEtcd.LocalSnapshot
import RaftEtcd.PendingConf
import RaftEtcd.Unapplied
import RaftEtcd.WalReplay
import Mathlib.Algebra.Order.BigOperators.Group.List
import Mathlib.Algebra.Order.Ring.Nat

/-! What a leader counts as uncommitted. The count goes up by what it appends and down by what a `Ready`
hands out, and that is not the same: entries of earlier terms are handed out without having been counted,
and what was counted must still be in the log when it is handed out. -/
namespace RaftEtcd
variable {r r' : Raft} {msg : Message}

/-! ### Payloads -/

/-- The payload of the entries in bytes. -/
def payload (es : List Entry) : Nat := (es.map fun e => e.data.length).sum

section Payload
variable {es es' : List Entry}

@[simp] theorem payload_nil : payload [] = 0 := rfl

@[simp] theorem payload_cons (e : Entry) (es : List Entry) : payload (e :: es) = e.data.length + payload es := by
  simp [payload]

@[simp] theorem payload_append (es es' : List Entry) : payload (es ++ es') = payload es + payload es' := by
  simp [payload]

/-- The sum that the code makes is the payload, but for what does not fit its type. -/
theorem payloadSum_eq_mod (es : List Entry) : payloadSum es = payload es % 2 ^ 32 := by
  suffices h : ∀ s, es.foldl (fun s e => (s + e.payloadSize) % 2 ^ 32) (s % 2 ^ 32) = (s + payload es) % 2 ^ 32 by
    have h := h 0
    rwa [Nat.zero_mod, Nat.zero_add] at h
  induction es with
  | nil => exact fun s => rfl
  | cons e es ih =>
      intro s
      rw [List.foldl_cons, Entry.payloadSize, ← Nat.add_mod, ih, payload_cons, Nat.add_assoc]

theorem payload_stampEntries (t i : Nat) (es : List Entry) : payload (Raft.stampEntries t i es) = payload es := by
  induction es generalizing i with
  | nil => rfl
  | cons e es ih =>
      rw [Raft.stampEntries, payload_cons, ih, payload_cons]

/-- Entries that are all found in another list weigh no more than that list. -/
theorem payload_le_of_subset (hnodup : es.Nodup) (hsub : ∀ e ∈ es, e ∈ es') : payload es ≤ payload es' := by
  obtain ⟨picked, hperm, hpicked⟩ := hnodup.subperm hsub
  have hsame : payload picked = payload es := (hperm.map _).sum_eq
  rw [← hsame]
  exact (hpicked.map _).sum_le_sum fun _ _ => Nat.zero_le _

end Payload

theorem IndexedFrom.nodup {start : Nat} {es : List Entry} (h : IndexedFrom start es) : es.Nodup := by
  rw [List.nodup_iff_injective_get]
  intro i j hij
  have hi := h i _ (List.getElem?_eq_getElem i.isLt)
  have hj := h j _ (List.getElem?_eq_getElem j.isLt)
  simp only [List.get_eq_getElem] at hij
  rw [hij] at hi
  exact Fin.ext (by omega)

/-! ### The end of the log -/

/-- Entries have gone behind the last one of the log, and all before them is where it was. -/
structure RaftLog.Lengthened (l l' : RaftLog) (es : List Entry) : Prop where
  storage : l'.storage = l.storage
  snapshot : l'.unstable.snapshot = l.unstable.snapshot
  offset_le : l'.unstable.offset ≤ l.unstable.offset
  offset_eq : l.unstable.entries ≠ [] → l'.unstable.offset = l.unstable.offset
  grown : l.unstable.entries <+: l'.unstable.entries
  kept : ∀ e ∈ l.log, e.index ≤ l.lastIndex → e ∈ l'.log
  given : ∀ e ∈ es, e ∈ l'.unstable.entries
  starts : es ≠ [] → l'.unstable.offset ≤ l.lastIndex + 1
  lastIndex : l'.lastIndex = l.lastIndex + es.length

section End
variable {l l' : RaftLog} {es : List Entry}

theorem RaftLog.lastIndex_unstable (h : l.unstable.entries ≠ []) :
    l.lastIndex + 1 = l.unstable.offset + l.unstable.entries.length := by
  have hpos := List.length_pos_of_ne_nil h
  simp only [RaftLog.lastIndex, Unstable.maybeLastIndex, if_pos h]
  omega

theorem append_lengthened (hst : IndexedFrom (l.storage.dummy.index + 1) l.storage.ents)
    (hidx : IndexedFrom (l.lastIndex + 1) es) (h : l.append es = .ok l') : l.Lengthened l' es := by
  rcases append_cases h with ⟨rfl, rfl⟩ | ⟨e, rest, u, rfl, hs, rfl⟩
  · exact ⟨rfl, rfl, le_rfl, fun _ => rfl, List.prefix_rfl, fun e he _ => he, nofun, fun hne => absurd rfl hne, rfl⟩
  have hlast := (append_lastIndex (List.cons_ne_nil _ _) hidx h).1
  rw [hidx.cons.1] at hs
  have hoff := hs.offset
  have hstart := hs.start_le
  -- with unstable entries, the new ones go right behind them
  have hsame : l.unstable.entries ≠ [] → u.offset = l.unstable.offset := by
    intro hne
    have hend := RaftLog.lastIndex_unstable hne
    have hpos := List.length_pos_of_ne_nil hne
    omega
  have hgrown : l.unstable.entries <+: u.entries := by
    by_cases hne : l.unstable.entries = []
    · rw [hne]
      exact List.nil_prefix
    · rw [List.prefix_iff_getElem?]
      intro k hk
      have hend := RaftLog.lastIndex_unstable hne
      have hbelow := hs.below (u.offset + k) (Nat.le_add_right _ _) (by rw [hsame hne]; omega)
      rw [hsame hne, Nat.add_sub_cancel_left] at hbelow
      rw [hbelow, List.getElem?_eq_getElem hk]
  refine ⟨rfl, hs.snapshot, by simp only; omega, hsame, hgrown, fun e' he' hle => ?_, fun e' he' => ?_,
    fun _ => by simp only; omega, hlast⟩
  · refine (mem_log_iff (l := { l with unstable := u }) hst).mpr ?_
    rcases (mem_log_iff hst).mp he' with ⟨hstored, hlt⟩ | hmem
    · by_cases hne : l.unstable.entries = []
      · exact Or.inl ⟨hstored, by simp only; rw [hne, List.length_nil] at hstart; omega⟩
      · exact Or.inl ⟨hstored, by simp only; rw [hsame hne]; exact hlt⟩
    · exact Or.inr (hgrown.subset hmem)
  · obtain ⟨k, hk⟩ := List.mem_iff_getElem?.mp he'
    have habove := hs.above (l.lastIndex + 1 + k) (Nat.le_add_right _ _)
    rw [Nat.add_sub_cancel_left, hk] at habove
    exact List.mem_of_getElem? habove

/-- Nothing that is committed is overwritten. -/
theorem append_committed_le (hidx : IndexedFrom (l.lastIndex + 1) es) (hne : es ≠ []) (h : l.append es = .ok l') :
    l.committed ≤ l.lastIndex := by
  cases es with
  | nil => exact absurd rfl hne
  | cons e rest =>
      unfold RaftLog.append at h
      simp only [hidx.cons.1] at h
      split at h
      · cases h
      · omega

end End

/-! ### The storage -/

section Storage
variable {st st' : MemoryStorage} {i : Nat} {es : List Entry} {rd : Ready}

/-- Appending keeps what is below the new entries, and takes those behind the dummy. -/
theorem storageAppend_keeps (hst : IndexedFrom (st.dummy.index + 1) st.ents) (hes : IndexedFrom i es)
    (h : st.append es = .ok st') :
    (∀ e ∈ st.ents, e.index < i → e ∈ st'.ents) ∧ ∀ e ∈ es, st.dummy.index < e.index → e ∈ st'.ents := by
  rcases MemoryStorage.append_cases hes h with ⟨hlow, rfl⟩ | ⟨-, -, rfl⟩
  · refine ⟨fun e he _ => he, fun e he hlt => ?_⟩
    obtain ⟨k, hk⟩ := List.mem_iff_getElem?.mp he
    obtain ⟨hlen, -⟩ := List.getElem?_eq_some_iff.mp hk
    have hidx := hes k e hk
    rcases hlow with rfl | hlow
    · cases he
    · omega
  · refine ⟨fun e he hlt => ?_, fun e he hlt => ?_⟩
    · obtain ⟨k, hk⟩ := List.mem_iff_getElem?.mp he
      have hidx := hst k e hk
      refine List.mem_append_left _ (List.mem_iff_getElem?.mpr ⟨k, ?_⟩)
      rw [List.getElem?_take_of_lt (by omega)]
      exact hk
    · obtain ⟨k, hk⟩ := List.mem_iff_getElem?.mp he
      have hidx := hes k e hk
      refine List.mem_append_right _ (List.mem_iff_getElem?.mpr ⟨k - (st.dummy.index + 1 - i), ?_⟩)
      rw [List.getElem?_drop, show st.dummy.index + 1 - i + (k - (st.dummy.index + 1 - i)) = k by omega]
      exact hk

/-- Storing a `Ready` keeps what is below its entries, unless its snapshot replaces the storage, and takes its
entries from behind the snapshot on. -/
theorem persist_keeps (hst : IndexedFrom (st.dummy.index + 1) st.ents) (hes : IndexedFrom i rd.entries)
    (h : persist st rd = .ok st') :
    (rd.snapshot.isEmpty = true → ∀ e ∈ st.ents, e.index < i → e ∈ st'.ents) ∧
      ∀ e ∈ rd.entries, max st.dummy.index rd.snapshot.metadata.index < e.index → e ∈ st'.ents := by
  obtain ⟨st₁, -, hdummy, hents, happend⟩ := persist_appends h
  rcases withSnapshot_cases st rd.snapshot with ⟨hempty, hsame⟩ | ⟨hfull, ⟨-, hsame⟩ | ⟨-, -, hat, hnone⟩⟩
  · rw [hsame] at hdummy hents
    have hkeeps := storageAppend_keeps (by rw [hdummy, hents]; exact hst) hes happend
    rw [hdummy, hents] at hkeeps
    exact ⟨fun _ => hkeeps.1, fun e he hlt => hkeeps.2 e he (by omega)⟩
  · rw [hsame] at hdummy hents
    have hkeeps := storageAppend_keeps (by rw [hdummy, hents]; exact hst) hes happend
    rw [hdummy, hents] at hkeeps
    exact ⟨fun _ => hkeeps.1, fun e he hlt => hkeeps.2 e he (by omega)⟩
  · have hkeeps := storageAppend_keeps (by rw [hents, hnone]; exact .nil _) hes happend
    rw [hdummy] at hkeeps
    refine ⟨fun hempty => ?_, fun e he hlt => hkeeps.2 e he (by omega)⟩
    rw [hfull] at hempty
    cases hempty

/-- Compaction keeps what is behind the new dummy, and where the storage ends. -/
theorem compact_keeps {status : Status} (hst : IndexedFrom (st.dummy.index + 1) st.ents)
    (h : st.compact i = .ok (status, st')) :
    (∀ e ∈ st.ents, st'.dummy.index < e.index → e ∈ st'.ents) ∧ st'.lastIndex = st.lastIndex ∧
      st'.dummy.index ≤ max i st.dummy.index := by
  rcases RaftLog.compact_cases hst h with ⟨-, rfl⟩ | ⟨e, hlt, hat, rfl⟩
  · exact ⟨fun e he _ => he, rfl, le_max_right _ _⟩
  obtain ⟨hlen, -⟩ := List.getElem?_eq_some_iff.mp hat
  refine ⟨fun e he hd => ?_, ?_, le_max_left _ _⟩
  · obtain ⟨k, hk⟩ := List.mem_iff_getElem?.mp he
    have hidx := hst k e hk
    simp only at hd
    refine List.mem_iff_getElem?.mpr ⟨k - (i - st.dummy.index), ?_⟩
    rw [List.getElem?_drop, Nat.add_sub_cancel' (by omega)]
    exact hk
  · simp only [MemoryStorage.lastIndex, List.length_drop]
    omega

end Storage

/-! ### The count -/

/-- A `Ready` that is out since before the election; the log ended at `last` then. -/
structure Foreign (last d : Nat) (r : Raft) (rd : Ready) : Prop where
  earlier : ∀ e ∈ rd.entries, e.term < r.term
  offset_le : r.raftLog.unstable.offset ≤ last + 1
  nonempty : r.raftLog.unstable.entries ≠ []
  before : d ≤ last

/-- A `Ready` that the leader made itself. -/
structure Domestic (own : List Entry) (last d : Nat) (r : Raft) (rd : Ready) (stored : Bool) : Prop where
  entries : rd.entries <+: r.raftLog.unstable.entries
  snapshot : rd.snapshot = r.raftLog.unstable.snapshot.getD {}
  plain : rd.entries = [] → r.raftLog.unstable.snapshot = none
  reach : r.raftLog.unstable.entries = rd.entries ∨ d < last + own.length
  ahead : stored = false → rd.entries ≠ [] →
    max last (max r.raftLog.applied r.raftLog.storage.dummy.index) + 1 < r.raftLog.unstable.offset + rd.entries.length
  kept : stored = true → ∀ e ∈ own, d < e.index → e ∈ rd.entries → e ∈ r.raftLog.storage.ents
  ends : stored = true → rd.entries ≠ [] →
    r.raftLog.storage.lastIndex + 1 = r.raftLog.unstable.offset + rd.entries.length

/-- A leader has appended `own` since its log ended at `last`, and counts no more than what is left of that
above what has been delivered. -/
structure Counts (own : List Entry) (last d : Nat) (out : Option (Ready × Bool)) (r : Raft) : Prop where
  indexed : IndexedFrom (last + 1) own
  nonempty : own ≠ []
  terms : ∀ e ∈ r.raftLog.unstable.entries, last < e.index → e.term = r.term
  logged : ∀ e ∈ own, d < e.index → e ∈ r.raftLog.log
  lastIndex : r.raftLog.lastIndex = last + own.length
  reach : d ≤ last + own.length
  pending : ∀ snap, r.raftLog.unstable.snapshot = some snap →
    snap.metadata.index ≤ last ∧ r.raftLog.unstable.offset ≤ last + 1
  size : r.uncommittedSize ≤ payload (above d own)
  idle : out = none → r.raftLog.unstable.entries = [] ∨ d < last + own.length
  out : ∀ rd stored, out = some (rd, stored) → Foreign last d r rd ∨ Domestic own last d r rd stored

section Count
variable {own : List Entry} {last d : Nat} {out : Option (Ready × Bool)}

/-- The log is the same up to its commit index, and nothing is counted. -/
theorem Counts.congr (h : Counts own last d out r) (hlog : ∃ c, r'.raftLog = { r.raftLog with committed := c })
    (hterm : r'.term = r.term) (hsize : r'.uncommittedSize = r.uncommittedSize) : Counts own last d out r' := by
  obtain ⟨c, hlog⟩ := hlog
  have hlast : r'.raftLog.lastIndex = r.raftLog.lastIndex := by rw [hlog]; rfl
  have hmem : r'.raftLog.log = r.raftLog.log := by rw [hlog]; rfl
  have hunstable : r'.raftLog.unstable = r.raftLog.unstable := by rw [hlog]
  have hstorage : r'.raftLog.storage = r.raftLog.storage := by rw [hlog]
  have happlied : r'.raftLog.applied = r.raftLog.applied := by rw [hlog]
  refine ⟨h.indexed, h.nonempty, ?_, ?_, hlast.trans h.lastIndex, h.reach, ?_, hsize ▸ h.size, ?_, fun rd stored hout => ?_⟩
  · rw [hunstable, hterm]
    exact h.terms
  · rw [hmem]
    exact h.logged
  · rw [hunstable]
    exact h.pending
  · rw [hunstable]
    exact h.idle
  · rcases h.out rd stored hout with hforeign | hown
    · refine Or.inl ⟨?_, ?_, ?_, hforeign.before⟩
      · rw [hterm]
        exact hforeign.earlier
      · rw [hunstable]
        exact hforeign.offset_le
      · rw [hunstable]
        exact hforeign.nonempty
    · refine Or.inr ⟨?_, ?_, ?_, ?_, ?_, ?_, ?_⟩
      all_goals simp only [hunstable, hstorage, happlied]
      · exact hown.entries
      · exact hown.snapshot
      · exact hown.plain
      · exact hown.reach
      · exact hown.ahead
      · exact hown.kept
      · exact hown.ends

theorem appendEntry_counts {es : List Entry} (h : r.appendEntry es = .ok (r', true)) :
    r'.uncommittedSize = r.uncommittedSize + payloadSum es := by
  unfold Raft.appendEntry Raft.increaseUncommittedSize at h
  simp only [payloadSum_stampEntries] at h
  split at h
  · cases (Prod.mk.inj (Except.ok.inj h)).2
  · rename_i r₁ heq
    split at heq
    · cases heq
    obtain ⟨rfl, -⟩ := Prod.mk.inj heq
    obtain ⟨log, -, h⟩ := bind_ok h
    split at h
    · cases h
    · obtain ⟨⟨r₂, changed⟩, h₂, h⟩ := bind_ok h
      obtain ⟨rfl, -⟩ := Prod.mk.inj (Except.ok.inj h)
      obtain ⟨c, rfl⟩ := maybeCommit_frame h₂
      obtain ⟨prs, lprs, hmod⟩ := Raft.modifyProgress_eq
        { r with uncommittedSize := r.uncommittedSize + payloadSum es, raftLog := log } r.id
        fun p => (p.maybeUpdate log.lastIndex).1
      rw [hmod]

/-- The empty entry of a new leader weighs nothing. -/
theorem becomeLeader_uncommitted (h : r.becomeLeader = .ok r') : r'.uncommittedSize = 0 := by
  obtain ⟨_, r₁, -, happ, rfl⟩ := becomeLeader_spec h
  have hsize : r₁.uncommittedSize = 0 := by
    rw [appendEntry_counts happ]
    rfl
  exact (congrArg Raft.uncommittedSize (if_pos hsize)).trans hsize

/-- A new leader has appended its empty entry. What is out is not its own. -/
theorem Counts.elected (h : Watched out r) (hc : r.state = .candidate) (hlead : r.becomeLeader = .ok r')
    (hd : d ≤ r.raftLog.committed)
    (hpending : ∀ snap, r.raftLog.unstable.snapshot = some snap → snap.metadata.index ≤ r.raftLog.committed) :
    Counts (Raft.stampEntries r.term (r.raftLog.lastIndex + 1) [{}]) r.raftLog.lastIndex d out r' := by
  have hnew := becomeLeader_new hlead
  obtain ⟨log, c, happend, hlog⟩ := hnew.log
  have hnum : IndexedFrom (r.raftLog.lastIndex + 1) (Raft.stampEntries r.term (r.raftLog.lastIndex + 1) [{}]) :=
    stampEntries_indexed _ _ _
  have hne : Raft.stampEntries r.term (r.raftLog.lastIndex + 1) [{}] ≠ [] := by simp [Raft.stampEntries]
  have hlonger := append_lengthened h.stored hnum happend
  have hcommitted := append_committed_le hnum hne happend
  have hmem := (append_log_mem h.stored h.unstable hne hnum happend).2.2
  have hstored : IndexedFrom (log.storage.dummy.index + 1) log.storage.ents := by
    rw [hlonger.storage]
    exact h.stored
  have hgiven := hlonger.given
  have hfull : log.unstable.entries ≠ [] := List.ne_nil_of_mem (hgiven _ (List.mem_singleton.mpr rfl))
  have hcounts : Counts (Raft.stampEntries r.term (r.raftLog.lastIndex + 1) [{}]) r.raftLog.lastIndex d out
      { r' with raftLog := log } := by
    refine ⟨hnum, hne, fun e he hlt => ?_, fun e he _ => (mem_log_iff hstored).mpr (Or.inr (hgiven e he)),
      hlonger.lastIndex, by omega, fun snap hs => ?_, ?_, fun _ => Or.inr ?_, fun rd stored hout => Or.inl ?_⟩
    · rw [hnew.term]
      rcases hmem e ((mem_log_iff hstored).mpr (Or.inr he)) with ⟨-, hle⟩ | hown
      · omega
      · exact stampEntries_term _ _ _ e hown
    · exact ⟨(hpending snap (hlonger.snapshot.symm.trans hs)).trans hcommitted, hlonger.starts hne⟩
    · rw [show Raft.uncommittedSize { r' with raftLog := log } = r'.uncommittedSize from rfl, becomeLeader_uncommitted hlead]
      exact Nat.zero_le _
    · rw [stampEntries_length]
      exact Nat.lt_succ_of_le (hd.trans hcommitted)
    · refine ⟨fun e he => ?_, hlonger.starts hne, hfull, hd.trans hcommitted⟩
      rw [show Raft.term { r' with raftLog := log } = r'.term from rfl, hnew.term]
      exact h.candidate hc e (mem_recent.mpr (Or.inl ⟨rd, stored, hout, he⟩))
  exact hcounts.congr ⟨c, hlog⟩ rfl rfl

/-- A proposal that is taken adds its payload to the count, and its entries to what the leader has appended. -/
theorem Counts.appends (h : Counts own last d out r)
    (hst : IndexedFrom (r.raftLog.storage.dummy.index + 1) r.raftLog.storage.ents)
    (hun : IndexedFrom r.raftLog.unstable.offset r.raftLog.unstable.entries) {es : List Entry}
    (happend : r.appendEntry es = .ok (r', true)) :
    Counts (own ++ Raft.stampEntries r.term (last + own.length + 1) es) last d out r' := by
  have hsize := appendEntry_counts happend
  obtain ⟨hb, -⟩ | ⟨-, -, log, c, prs, lprs, u, hlog, -, -, rfl⟩ := appendEntry_frame happend
  · cases hb
  rw [h.lastIndex] at hlog
  have hpayload := payload_stampEntries r.term (last + own.length + 1) es
  have hterms := stampEntries_term r.term (last + own.length + 1) es
  have hnum := stampEntries_indexed r.term (last + own.length + 1) es
  generalize Raft.stampEntries r.term (last + own.length + 1) es = new at hlog hpayload hterms hnum ⊢
  rw [show last + own.length + 1 = r.raftLog.lastIndex + 1 by rw [h.lastIndex]] at hnum
  have hlonger := append_lengthened hst hnum hlog
  have hstored : IndexedFrom (log.storage.dummy.index + 1) log.storage.ents := by
    rw [hlonger.storage]
    exact hst
  have hgrow := RaftLog.append_grows (W := True) (fun _ => ⟨_, by omega, hnum⟩) hlog
  have hlen : (own ++ new).length = own.length + new.length := List.length_append
  have hbefore : ∀ e ∈ own, e.index ≤ r.raftLog.lastIndex := by
    intro e he
    have := h.lastIndex
    have := (h.indexed.bounds he).2
    omega
  have hbehind : ∀ e ∈ new, r.raftLog.lastIndex < e.index := fun e he => (hnum.bounds he).1
  have hmoved : new ≠ [] → d < last + (own ++ new).length := by
    intro hne
    have := List.length_pos_of_ne_nil hne
    have := h.reach
    omega
  -- without new entries the log is as it was
  have hsame : new = [] → log.unstable = r.raftLog.unstable := by
    rintro rfl
    rw [← Except.ok.inj hlog]
  refine ⟨h.indexed.append ?_, by simp [h.nonempty], fun e he hlt => ?_, fun e he hlt => ?_, ?_, ?_, fun snap hs => ?_,
    ?_, fun hout => ?_, fun rd stored hout => ?_⟩
  · rw [show last + 1 + own.length = r.raftLog.lastIndex + 1 by rw [h.lastIndex]; omega]
    exact hnum
  · rcases append_mem hlog he with hold | hnew
    · exact h.terms e hold hlt
    · exact hterms e hnew
  · rcases List.mem_append.mp he with hold | hnew
    · exact hlonger.kept e (h.logged e hold hlt) (hbefore e hold)
    · exact (mem_log_iff hstored).mpr (Or.inr (hlonger.given e hnew))
  · have := h.lastIndex
    have hlast : log.lastIndex = r.raftLog.lastIndex + new.length := hlonger.lastIndex
    change log.lastIndex = _
    omega
  · have := h.reach
    omega
  · obtain ⟨hle, hoff⟩ := h.pending snap (hlonger.snapshot.symm.trans hs)
    exact ⟨hle, hlonger.offset_le.trans hoff⟩
  · have hall : above d new = new := by
      refine List.filter_eq_self.mpr fun e he => ?_
      have := hbehind e he
      have := h.lastIndex
      have := h.reach
      exact decide_eq_true (by omega)
    have hle : payloadSum es ≤ payload es := by
      rw [payloadSum_eq_mod]
      exact Nat.mod_le _ _
    have hcount := h.size
    simp only at hsize ⊢
    rw [above, List.filter_append, payload_append, ← above, ← above, hall, hpayload]
    omega
  · by_cases hne : new = []
    · refine (h.idle hout).imp (fun hnil => ?_) fun hlt => by omega
      rw [← hnil]
      exact congrArg Unstable.entries (hsame hne)
    · exact Or.inr (hmoved hne)
  · rcases h.out rd stored hout with hforeign | hown
    · refine Or.inl ⟨hforeign.earlier, hlonger.offset_le.trans hforeign.offset_le, fun hnil => ?_, hforeign.before⟩
      have hprefix := hlonger.grown
      simp only at hnil
      rw [hnil] at hprefix
      exact hforeign.nonempty (List.prefix_nil.mp hprefix)
    · have hoff : rd.entries ≠ [] → log.unstable.offset = r.raftLog.unstable.offset := by
        refine fun hne => hlonger.offset_eq fun hnil => hne ?_
        have hprefix := hown.entries
        rw [hnil] at hprefix
        exact List.prefix_nil.mp hprefix
      refine Or.inr ⟨hown.entries.trans hlonger.grown, ?_, fun hnil => hlonger.snapshot.trans (hown.plain hnil), ?_,
        fun hs hne => ?_, fun hs e he hlt hmem => ?_, fun hs hne => ?_⟩
      · simp only
        rw [hlonger.snapshot]
        exact hown.snapshot
      · by_cases hne : new = []
        · refine hown.reach.imp (fun heq => ?_) fun hlt => by omega
          rw [← heq]
          exact congrArg Unstable.entries (hsame hne)
        · exact Or.inr (hmoved hne)
      · simp only
        rw [hoff hne, hlonger.storage, hgrow.applied]
        exact hown.ahead hs hne
      · simp only
        rw [hlonger.storage]
        rcases List.mem_append.mp he with hold | hnew
        · exact hown.kept hs e hold hlt hmem
        · -- the new entries are behind all that was unstable when the `Ready` was made
          exfalso
          have hmem := hown.entries.subset hmem
          have hend := RaftLog.lastIndex_unstable (List.ne_nil_of_mem hmem)
          have := (hun.bounds hmem).2
          have := hbehind e hnew
          omega
      · simp only
        rw [hoff hne, hlonger.storage]
        exact hown.ends hs hne

theorem Counts.posts (h : Counts own last d out r) (hp : Posts r r') : Counts own last d out r' := by
  obtain ⟨_, _, _, rfl⟩ := hp.rest
  exact h.congr ⟨_, rfl⟩ rfl rfl

theorem Counts.proposes (h : Counts own last d out r)
    (hst : IndexedFrom (r.raftLog.storage.dummy.index + 1) r.raftLog.storage.ents)
    (hun : IndexedFrom r.raftLog.unstable.offset r.raftLog.unstable.entries) {es : List Entry} {taken : Bool}
    (happend : (r.filterConfChanges 0 es).1.appendEntry (r.filterConfChanges 0 es).2 = .ok (r', taken)) :
    ∃ own, Counts own last d out r' := by
  obtain ⟨p, hframe⟩ := filterConfChanges_frame r 0 es
  rw [hframe] at happend
  have hpending : Counts own last d out { r with pendingConfIndex := p } := h.congr ⟨_, rfl⟩ rfl rfl
  cases taken with
  | false =>
      obtain ⟨-, rfl⟩ | ⟨hb, -⟩ := appendEntry_frame happend
      · exact ⟨own, hpending⟩
      · cases hb
  | true => exact ⟨_, hpending.appends hst hun happend⟩

end Count

/-! ### Calls -/

/-- Whenever the node leads, its count is in order. -/
def Tallied (out : Option (Ready × Bool)) (d : Nat) (r : Raft) : Prop :=
  r.state = .leader → ∃ own last, Counts own last d out r

/-- What has been delivered, and a pending snapshot, are committed. -/
structure Placed (d : Nat) (l : RaftLog) : Prop where
  delivered : d ≤ l.committed
  pending : ∀ snap, l.unstable.snapshot = some snap → snap.metadata.index ≤ l.committed

section Calls
variable {out : Option (Ready × Bool)} {d : Nat} {n n' : RawNode}

theorem Placed.grows {l l' : RaftLog} {W : Prop} (h : Placed d l) (hg : l.Grows W l') : Placed d l' where
  delivered := h.delivered.trans hg.committed
  pending snap hs := by
    rcases hg.snapshot with heq | ⟨snap', hs', -, hle⟩
    · exact (h.pending snap (heq.symm.trans hs)).trans hg.committed
    · obtain rfl := Option.some.inj (hs.symm.trans hs')
      exact hle

theorem Delivered.placed {s : Driver} (h : Delivered s d) : Placed d s.log where
  delivered := h.le_committed
  pending snap hs := by
    cases hout : s.outstanding with
    | none => exact ((h.waiting hout).pending snap hs).2
    | some p => exact ((h.handing p.1 p.2 hout).pending snap hs).2.1

namespace Tallied

theorem congr (h : Tallied out d r) (hstate : r'.state = r.state)
    (hlog : ∃ c, r'.raftLog = { r.raftLog with committed := c }) (hterm : r'.term = r.term)
    (hsize : r'.uncommittedSize = r.uncommittedSize) : Tallied out d r' := by
  intro hl
  obtain ⟨own, last, hcounts⟩ := h (hstate ▸ hl)
  exact ⟨own, last, hcounts.congr hlog hterm hsize⟩

theorem timed (h : Tallied out d r) (ht : Timed r r') : Tallied out d r' := by
  obtain ⟨_, _, _, rfl⟩ := ht
  exact h.congr rfl ⟨_, rfl⟩ rfl rfl

theorem posts (h : Tallied out d r) (hp : Posts r r') : Tallied out d r' := by
  obtain ⟨_, _, _, rfl⟩ := hp.rest
  exact h.congr rfl ⟨_, rfl⟩ rfl rfl

theorem leads (h : Tallied out d r) (hw : Watched out r) (hl : r.state = .leader) (hs : Leads msg r r') :
    Tallied out d r' := by
  cases hs with
  | works works =>
      obtain ⟨_, _, _, _, _, _, _, _, rfl⟩ := works.rest
      exact h.congr rfl ⟨_, rfl⟩ rfl rfl
  | proposes type r₁ taken append posts =>
      obtain ⟨own, last, hcounts⟩ := h hl
      obtain ⟨own', hcounts'⟩ := hcounts.proposes hw.stored hw.unstable append
      exact fun _ => ⟨own', last, hcounts'.posts posts⟩
  | stepsDown type lost follows =>
      rw [follows]
      exact nofun

theorem step (h : Tallied out d r) (hw : Watched out r) (hp : Placed d r.raftLog)
    (hterm : msg.type.isFromLeader = true → msg.term ≠ 0) (hd : msg.Dated) {st : Status}
    (hs : r.step msg = .ok (r', st)) : Tallied out d r' := by
  rcases step_succeeds hterm hs with hsucc | ⟨hl, hs⟩
  · cases hsucc with
    | carries carries =>
        intro hl
        obtain ⟨hl', hterm, hlog, -, hsize⟩ := carries.leader hl
        obtain ⟨own, last, hcounts⟩ := h hl'
        exact ⟨own, last, hcounts.congr ⟨_, hlog⟩ hterm hsize⟩
    | elected c l carries log role lead posts =>
        have hc : Watched out c := hw.carries carries hd (by rw [log]; exact hw.stored) (by rw [log]; exact hw.unstable)
        rw [← log] at hp
        exact fun _ => ⟨_, _, (Counts.elected hc role lead hp.delivered hp.pending).posts posts⟩
  · exact h.leads hw hl (stepLeader_leads hs)

/-- A message of the node's own. -/
theorem step_own (h : Tallied out d r) (hw : Watched out r) (hp : Placed d r.raftLog)
    (hty : msg.type.isFromLeader = false) {st : Status} (hs : r.step msg = .ok (r', st)) : Tallied out d r' := by
  refine h.step hw hp (fun hleader => ?_) (fun heq => ?_) hs
  · rw [hty] at hleader
    cases hleader
  · rw [heq] at hty
    cases hty

theorem tick (h : Tallied out d r) (hw : Watched out r) (hp : Placed d r.raftLog) (ht : r.tick = .ok r') :
    Tallied out d r' := by
  have htimed : ∀ {r r' : Raft}, Timed r r' → Placed d r.raftLog → Placed d r'.raftLog := by
    rintro r r' ⟨_, _, _, rfl⟩ hp
    exact hp
  cases tick_ticks ht with
  | waits timed => exact h.timed timed
  | stands r₁ timed role promotable st step => exact (h.timed timed).step_own (hw.timed timed) (htimed timed hp) rfl step
  | beats r₁ r₂ r₃ role timed check timed' beat =>
      have h₂ : Tallied out d r₂ ∧ Watched out r₂ ∧ Placed d r₂.raftLog := by
        rcases check with rfl | ⟨st, hcheck⟩
        · exact ⟨h.timed timed, hw.timed timed, htimed timed hp⟩
        · exact ⟨(h.timed timed).step_own (hw.timed timed) (htimed timed hp) rfl hcheck,
            (hw.timed timed).step_own rfl hcheck,
            (htimed timed hp).grows (step_handles (fun ht => Bool.noConfusion ht) hcheck).log⟩
      obtain ⟨htally, hwatched, hplaced⟩ := h₂
      rcases beat with rfl | ⟨-, st, hbeat⟩
      · exact htally.timed timed'
      · exact (htally.timed timed').step_own (hwatched.timed timed') (htimed timed' hplaced) rfl hbeat

theorem configures (h : Tallied out d r) {cc : ConfChange} (hc : Configures cc r r') : Tallied out d r' := by
  obtain ⟨_, _, _, c, _, _, _, _, rfl⟩ := hc.frame
  exact h.congr rfl ⟨c, rfl⟩ rfl rfl

theorem call (h : Tallied out d n.raft) (hw : Watched out n.raft) (hp : Placed d n.raft.raftLog) {a : NodeAction}
    (ha : a.IsCall) (hd : a.Dated) (hrun : n.run a = .ok n') : Tallied out d n'.raft := by
  cases call_called ha hrun with
  | refuses same =>
      rw [same]
      exact h
  | steps msg message led numbered r' st step node =>
      rw [node]
      rcases message_own message with rfl | hown
      · exact h.step hw hp led hd step
      · exact h.step_own hw hp hown step
  | ticks r' tick node =>
      rw [node]
      exact h.tick hw hp tick
  | configures cc cs apply => exact h.configures (applyConfChange_configures apply).1

end Tallied

end Calls

/-! ### The application -/

section Application
variable {own : List Entry} {last d : Nat} {n n' : RawNode} {rd : Ready}

/-- The log of a leader ends with what it has appended. -/
theorem Counts.log_le {out : Option (Ready × Bool)} (h : Counts own last d out r)
    (hst : IndexedFrom (r.raftLog.storage.dummy.index + 1) r.raftLog.storage.ents)
    (hun : IndexedFrom r.raftLog.unstable.offset r.raftLog.unstable.entries) {e : Entry} (he : e ∈ r.raftLog.log) :
    e.index ≤ last + own.length := by
  have hlast := h.lastIndex
  have hpos := List.length_pos_of_ne_nil h.nonempty
  rcases (mem_log_iff hst).mp he with ⟨hstored, hlt⟩ | hmem
  · by_cases hne : r.raftLog.unstable.entries = []
    · -- nothing is unstable, so the storage ends the log
      have hnone : r.raftLog.unstable.snapshot = none := by
        cases hs : r.raftLog.unstable.snapshot with
        | none => rfl
        | some snap =>
            have hle := (h.pending snap hs).1
            have hat : r.raftLog.lastIndex = snap.metadata.index := by
              simp [RaftLog.lastIndex, Unstable.maybeLastIndex, hne, hs]
            omega
      have hat : r.raftLog.lastIndex = r.raftLog.storage.lastIndex := by
        simp [RaftLog.lastIndex, Unstable.maybeLastIndex, hne, hnone]
      have hend : r.raftLog.storage.lastIndex = r.raftLog.storage.dummy.index + r.raftLog.storage.ents.length := rfl
      have := (hst.bounds hstored).2
      omega
    · have := RaftLog.lastIndex_unstable hne
      omega
  · have := RaftLog.lastIndex_unstable (List.ne_nil_of_mem hmem)
    have := (hun.bounds hmem).2
    omega

theorem ready_raft (h : n.ready = .ok (rd, n')) :
    n'.raft.raftLog = n.raft.raftLog ∧ n'.raft.term = n.raft.term ∧ n'.raft.state = n.raft.state ∧
      n'.raft.uncommittedSize = n.raft.uncommittedSize - payloadSum rd.committedEntries := by
  rw [ready_frame h]
  exact ⟨rfl, rfl, rfl, rfl⟩

/-- What a leader has appended is in its log as far as it has not been delivered. -/
theorem Counts.logical {out : Option (Ready × Bool)} (h : Counts own last d out r)
    (hdummy : r.raftLog.storage.dummy.index ≤ d) {e : Entry} (he : e ∈ own) (hd : d < e.index) :
    e ∈ r.raftLog.logical.entries := by
  have hlast := (h.indexed.bounds he).1
  have hlogical : r.raftLog.logical.index < e.index := by
    cases hs : r.raftLog.unstable.snapshot with
    | none =>
        rw [RaftLog.logical_none hs]
        exact hdummy.trans_lt hd
    | some snap =>
        rw [RaftLog.logical_some hs]
        have := (h.pending snap hs).1
        simp only
        omega
  rw [RaftLog.logical_entries]
  exact List.mem_filter.mpr ⟨h.logged e he hd, decide_eq_true hlogical⟩

/-- What a `Ready` takes off the count is at least what it takes from the entries that were counted. -/
theorem Counts.handed (h : Counts own last d none n.raft)
    (hst : IndexedFrom (n.raft.raftLog.storage.dummy.index + 1) n.raft.raftLog.storage.ents)
    (hun : IndexedFrom n.raft.raftLog.unstable.offset n.raft.raftLog.unstable.entries)
    (hdummy : n.raft.raftLog.storage.dummy.index ≤ d) (hcont : rd.Continues d) (hstart : rd.start d ≤ max d last)
    (hentry : ∀ e ∈ rd.committedEntries, n.raft.raftLog.logical.entry e.index = some e) :
    payload (above d own) ≤ payload (above (rd.reaches d) own) + payload rd.committedEntries := by
  rw [← payload_append]
  refine payload_le_of_subset (h.indexed.nodup.filter _) fun e he => ?_
  obtain ⟨hown, hd⟩ := List.mem_filter.mp he
  have hd := of_decide_eq_true hd
  by_cases hlater : rd.reaches d < e.index
  · exact List.mem_append_left _ (List.mem_filter.mpr ⟨hown, decide_eq_true hlater⟩)
  refine List.mem_append_right _ ?_
  -- the entry of that index is the one that is handed out
  have hlast := (h.indexed.bounds hown).1
  have hin := h.logical hdummy hown hd
  rw [Ready.reaches] at hlater
  obtain ⟨k, hk⟩ : ∃ k, e.index = rd.start d + 1 + k := ⟨e.index - rd.start d - 1, by omega⟩
  have hget := List.getElem?_eq_getElem (show k < rd.committedEntries.length by omega)
  have hindex := hcont.2 k _ hget
  have hsame := hentry _ (List.mem_of_getElem? hget)
  rw [hindex, ← hk, RaftLog.entry_of_mem hst hun hin] at hsame
  rw [Option.some.inj hsame]
  exact List.getElem_mem _

theorem Counts.ready (h : Counts own last d none n.raft)
    (hst : IndexedFrom (n.raft.raftLog.storage.dummy.index + 1) n.raft.raftLog.storage.ents)
    (hun : IndexedFrom n.raft.raftLog.unstable.offset n.raft.raftLog.unstable.entries)
    (happ : n.raft.raftLog.applied ≤ d) (hdummy : n.raft.raftLog.storage.dummy.index ≤ d)
    (hready : n.ready = .ok (rd, n')) (hcont : rd.Continues d)
    (hentry : ∀ e ∈ rd.committedEntries, n.raft.raftLog.logical.entry e.index = some e)
    (hfit : payload rd.committedEntries < 2 ^ 32) :
    Counts own last (rd.reaches d) (some (rd, false)) n'.raft := by
  obtain ⟨-, hents, hsnap, -⟩ := ready_spec hready
  obtain ⟨hlog, hterm, -, hsize⟩ := ready_raft hready
  have hlast := h.lastIndex
  have hpos := List.length_pos_of_ne_nil h.nonempty
  have hstart : d ≤ rd.start d ∧ rd.start d ≤ max d last := by
    have hjump := hcont.1
    rw [Ready.start]
    cases hempty : rd.snapshot.isEmpty with
    | true => simp
    | false =>
        have hlt := hjump hempty
        simp only [Bool.false_eq_true, if_false]
        cases hs : n.raft.raftLog.unstable.snapshot with
        | none =>
            rw [hsnap, hs] at hempty
            cases hempty
        | some snap =>
            rw [hs] at hsnap
            have := (h.pending snap hs).1
            rw [hsnap] at hlt ⊢
            simp only [Option.getD_some] at hlt ⊢
            omega
  have hreach : d ≤ rd.reaches d := hstart.1.trans (Nat.le_add_right _ _)
  have hcount := h.handed hst hun hdummy hcont hstart.2 hentry
  have hmod : payloadSum rd.committedEntries = payload rd.committedEntries := by
    rw [payloadSum_eq_mod, Nat.mod_eq_of_lt hfit]
  refine ⟨h.indexed, h.nonempty, ?_, ?_, ?_, ?_, ?_, ?_, fun h => (by cases h), fun rd' stored hout => Or.inr ?_⟩
  · rw [hlog, hterm]
    exact h.terms
  · rw [hlog]
    exact fun e he hlt => h.logged e he (by omega)
  · rw [hlog]
    exact hlast
  · cases hces : rd.committedEntries.getLast? with
    | none =>
        rw [Ready.reaches, List.getLast?_eq_none_iff.mp hces, List.length_nil]
        have := h.reach
        omega
    | some e =>
        have hmem := List.mem_of_getLast? hces
        have hfound := List.mem_of_find?_eq_some (hentry e hmem)
        rw [RaftLog.logical_entries] at hfound
        have hle := h.log_le hst hun (List.mem_filter.mp hfound).1
        rw [List.getLast?_eq_getElem?] at hces
        have hindex := hcont.2 _ e hces
        obtain ⟨hlt, -⟩ := List.getElem?_eq_some_iff.mp hces
        rw [Ready.reaches]
        omega
  · rw [hlog]
    exact h.pending
  · rw [hsize, hmod]
    have := h.size
    omega
  · obtain ⟨rfl, rfl⟩ := Prod.mk.inj (Option.some.inj hout)
    rw [← hlog] at hents hsnap
    refine ⟨by rw [hents], hsnap, fun hnil => ?_, Or.inl hents.symm, fun _ hne => ?_, fun h => (by cases h),
      fun h => by cases h⟩
    · rw [hents] at hnil
      cases hs : n'.raft.raftLog.unstable.snapshot with
      | none => rfl
      | some snap =>
          have hat : n'.raft.raftLog.lastIndex = snap.metadata.index := by
            simp [RaftLog.lastIndex, Unstable.maybeLastIndex, hnil, hs]
          rw [hlog] at hs hat
          have := (h.pending snap hs).1
          omega
    · rw [hents] at hne ⊢
      have hend := RaftLog.lastIndex_unstable hne
      rw [hlog] at hne hend ⊢
      have := (h.idle rfl).resolve_left hne
      omega

theorem Counts.persist (h : Counts own last d (some (rd, false)) r)
    (hst : IndexedFrom (r.raftLog.storage.dummy.index + 1) r.raftLog.storage.ents)
    (hun : IndexedFrom r.raftLog.unstable.offset r.raftLog.unstable.entries) {i : Nat} (hes : IndexedFrom i rd.entries)
    (hdummy : r.raftLog.storage.dummy.index ≤ d) {st : MemoryStorage} (hp : persist r.raftLog.storage rd = .ok st) :
    Counts own last d (some (rd, true)) { r with raftLog := { r.raftLog with storage := st } } := by
  have hnum := (persist_numbered hst hes hp).1
  have hpos := List.length_pos_of_ne_nil h.nonempty
  have hlast := h.lastIndex
  have hunstable : r.raftLog.unstable.entries ≠ [] →
      RaftLog.lastIndex { r.raftLog with storage := st } = last + own.length := by
    intro hne
    have hold := RaftLog.lastIndex_unstable hne
    have hnew : RaftLog.lastIndex { r.raftLog with storage := st } + 1 =
        r.raftLog.unstable.offset + r.raftLog.unstable.entries.length := RaftLog.lastIndex_unstable hne
    omega
  rcases h.out rd false rfl with hforeign | hown
  · -- all that the leader has appended is unstable
    refine ⟨h.indexed, h.nonempty, h.terms, fun e he hd => ?_, hunstable hforeign.nonempty, h.reach, h.pending, h.size,
      fun h => (by cases h), fun rd' stored hout => Or.inl ?_⟩
    · refine (mem_log_iff hnum).mpr (Or.inr ?_)
      have := (h.indexed.bounds he).1
      have := hforeign.offset_le
      refine ((mem_log_iff hst).mp (h.logged e he hd)).resolve_left fun hstored => ?_
      omega
    · obtain ⟨rfl, -⟩ := Prod.mk.inj (Option.some.inj hout)
      exact ⟨hforeign.earlier, hforeign.offset_le, hforeign.nonempty, hforeign.before⟩
  have hes : IndexedFrom r.raftLog.unstable.offset rd.entries := hun.of_initial hown.entries
  obtain ⟨hkept, htaken⟩ := persist_keeps hst hes hp
  have hsnap : rd.snapshot.isEmpty = false → rd.snapshot.metadata.index ≤ last ∧ r.raftLog.unstable.offset ≤ last + 1 := by
    intro hfull
    cases hs : r.raftLog.unstable.snapshot with
    | none =>
        rw [hown.snapshot, hs] at hfull
        cases hfull
    | some snap =>
        rw [hown.snapshot, hs]
        exact h.pending snap hs
  have hindex : rd.snapshot.metadata.index ≤ last := by
    cases hempty : rd.snapshot.isEmpty with
    | true =>
        rw [Snapshot.isEmpty, beq_iff_eq] at hempty
        omega
    | false => exact (hsnap hempty).1
  refine ⟨h.indexed, h.nonempty, h.terms, fun e he hd => ?_, ?_, h.reach, h.pending, h.size,
    fun h => (by cases h), fun rd' stored hout => Or.inr ?_⟩
  · refine (mem_log_iff hnum).mpr (((mem_log_iff hst).mp (h.logged e he hd)).imp_left ?_)
    rintro ⟨hstored, hlt⟩
    refine ⟨?_, hlt⟩
    have hbehind := (h.indexed.bounds he).1
    refine hkept ?_ e hstored hlt
    cases hempty : rd.snapshot.isEmpty with
    | true => rfl
    | false =>
        have := (hsnap hempty).2
        omega
  · by_cases hne : r.raftLog.unstable.entries = []
    · -- nothing is there to be stored
      have hnil : rd.entries = [] := List.prefix_nil.mp (hne ▸ hown.entries)
      have hnone := hown.plain hnil
      have hstored := (persist_stores hes hp).2.1 hnil
      rw [hown.snapshot, hnone] at hstored
      have hend : ∀ st' : MemoryStorage, RaftLog.lastIndex { r.raftLog with storage := st' } = st'.lastIndex := by
        intro st'
        simp [RaftLog.lastIndex, Unstable.maybeLastIndex, hne, hnone]
      rw [hend, hstored, ← hlast]
      exact (hend _).symm
    · exact hunstable hne
  · obtain ⟨rfl, rfl⟩ := Prod.mk.inj (Option.some.inj hout)
    refine ⟨hown.entries, hown.snapshot, hown.plain, hown.reach, fun h => (by cases h), fun _ e he hd hmem => ?_,
      fun _ hne => ?_⟩
    · have := (h.indexed.bounds he).1
      exact htaken e hmem (by omega)
    · refine (persist_stores hes hp).2.2 hne ?_
      have := hown.ahead rfl hne
      rcases withSnapshot_cases r.raftLog.storage rd.snapshot with ⟨-, hsame⟩ | ⟨-, ⟨-, hsame⟩ | ⟨-, -, hat, -⟩⟩
      · rw [hsame]
        omega
      · rw [hsame]
        omega
      · omega

/-- The entries of a `Ready` of the leader's own are still there when it is reported. -/
theorem Domestic.takes {stored : Bool} (h : Domestic own last d r rd stored)
    (hun : IndexedFrom r.raftLog.unstable.offset r.raftLog.unstable.entries) {e : Entry}
    (he : rd.entries.getLast? = some e) :
    r.raftLog.Takes e.index e.term ∧ e.index + 1 = r.raftLog.unstable.offset + rd.entries.length := by
  rw [List.getLast?_eq_getElem?] at he
  obtain ⟨hlen, heq⟩ := List.getElem?_eq_some_iff.mp he
  have hat := List.prefix_iff_getElem?.mp h.entries _ hlen
  rw [heq] at hat
  have hidx := hun _ e hat
  have hkth : e.index - r.raftLog.unstable.offset = rd.entries.length - 1 := by omega
  refine ⟨⟨by omega, ?_⟩, by omega⟩
  rw [hkth, hat]
  rfl

/-- The entries of an earlier `Ready` reach up to the end of the log before the election at most. -/
theorem Foreign.takes (h : Foreign last d r rd) (hterms : ∀ e ∈ r.raftLog.unstable.entries, last < e.index → e.term = r.term)
    (hun : IndexedFrom r.raftLog.unstable.offset r.raftLog.unstable.entries) {e : Entry} (he : e ∈ rd.entries)
    (htakes : r.raftLog.Takes e.index e.term) : e.index ≤ last := by
  obtain ⟨e', he', hterm⟩ := Option.map_eq_some_iff.mp htakes.2
  have hidx := hun _ e' he'
  have hge := htakes.1
  have hearlier := h.earlier e he
  by_contra hbehind
  have hown := hterms e' (List.mem_of_getElem? he') (by omega)
  omega

theorem Counts.advance (h : Counts own last d (some (rd, true)) n.raft)
    (hst : IndexedFrom (n.raft.raftLog.storage.dummy.index + 1) n.raft.raftLog.storage.ents)
    (hun : IndexedFrom n.raft.raftLog.unstable.offset n.raft.raftLog.unstable.entries)
    (hs : ∀ snap, n.raft.raftLog.unstable.snapshot = some snap → snap.metadata.index ≠ 0) :
    Counts own last d none (n.advance rd).raft := by
  obtain ⟨hstorage, -, hindexed, hsnap⟩ := advanceLog_leaves rd hs
  have hlast := h.lastIndex
  have hpos := List.length_pos_of_ne_nil h.nonempty
  have hcases := advanceLog_cases n.raft.raftLog rd
  have hlog : (n.advance rd).raft.raftLog = RawNode.advanceLog n.raft.raftLog rd := rfl
  have hnum : IndexedFrom ((RawNode.advanceLog n.raft.raftLog rd).storage.dummy.index + 1)
      (RawNode.advanceLog n.raft.raftLog rd).storage.ents := by
    rw [hstorage]
    exact hst
  have hsub : ∀ e ∈ (RawNode.advanceLog n.raft.raftLog rd).unstable.entries, e ∈ n.raft.raftLog.unstable.entries := by
    intro e he
    rcases hcases with ⟨-, hsame, -⟩ | ⟨last, -, -, -, hdrop⟩
    · rwa [hsame] at he
    · rw [hdrop] at he
      exact List.mem_of_mem_drop he
  -- an entry from the new offset on has not been taken
  have hkeeps : ∀ e ∈ n.raft.raftLog.unstable.entries, (RawNode.advanceLog n.raft.raftLog rd).unstable.offset ≤ e.index →
      e ∈ (RawNode.advanceLog n.raft.raftLog rd).unstable.entries := by
    intro e he hle
    rcases hcases with ⟨-, hsame, -⟩ | ⟨last', hlast', htakes, hoff, hdrop⟩
    · rwa [hsame]
    · obtain ⟨k, hk⟩ := List.mem_iff_getElem?.mp he
      have hidx := hun k e hk
      have hge := htakes.1
      rw [hoff] at hle
      rw [hdrop, List.mem_iff_getElem?]
      refine ⟨k - (last'.index + 1 - n.raft.raftLog.unstable.offset), ?_⟩
      rw [List.getElem?_drop, Nat.add_sub_cancel' (by omega)]
      exact hk
  have hends : (RawNode.advanceLog n.raft.raftLog rd).unstable.entries ≠ [] →
      (RawNode.advanceLog n.raft.raftLog rd).lastIndex = last + own.length := by
    intro hne
    have hnew := RaftLog.lastIndex_unstable hne
    have hold : n.raft.raftLog.unstable.entries ≠ [] := List.ne_nil_of_mem (hsub _ (List.head_mem hne))
    have hend := RaftLog.lastIndex_unstable hold
    rcases hcases with ⟨hoff, hsame, -⟩ | ⟨last', hlast', htakes, hoff, hdrop⟩
    · rw [hoff, hsame] at hnew
      omega
    · have hge := htakes.1
      have := List.length_pos_of_ne_nil hne
      rw [hdrop, List.length_drop] at this
      rw [hoff, hdrop, List.length_drop] at hnew
      omega
  rcases h.out rd true rfl with hforeign | hown
  · have hoff : (RawNode.advanceLog n.raft.raftLog rd).unstable.offset ≤ last + 1 := by
      rcases hcases with ⟨hoff, -⟩ | ⟨last', hlast', htakes, hoff, -⟩
      · rw [hoff]
        exact hforeign.offset_le
      · have := hforeign.takes h.terms hun (List.mem_of_getLast? hlast') htakes
        omega
    -- what the leader has appended is all unstable
    have hin : ∀ e ∈ own, d < e.index → e ∈ (RawNode.advanceLog n.raft.raftLog rd).unstable.entries := by
      intro e he hd
      have hbehind := (h.indexed.bounds he).1
      refine hkeeps e (((mem_log_iff hst).mp (h.logged e he hd)).resolve_left fun hstored => ?_) (by omega)
      have := hforeign.offset_le
      omega
    refine ⟨h.indexed, h.nonempty, fun e he => h.terms e (hsub e he),
      fun e he hd => (mem_log_iff hnum).mpr (Or.inr (hin e he hd)), hends ?_, h.reach, fun snap hsome => ?_, h.size,
      fun _ => Or.inr ?_, nofun⟩
    · have hfirst := List.head_mem h.nonempty
      refine List.ne_nil_of_mem (hin _ hfirst ?_)
      have := (h.indexed.bounds hfirst).1
      have := hforeign.before
      omega
    · exact ⟨(h.pending snap (hsnap snap hsome).1).1, hoff⟩
    · have := hforeign.before
      omega
  · have hnone : (RawNode.advanceLog n.raft.raftLog rd).unstable.snapshot = none := by
      cases hsome : (RawNode.advanceLog n.raft.raftLog rd).unstable.snapshot with
      | none => rfl
      | some snap =>
          obtain ⟨hold, hdiff⟩ := hsnap snap hsome
          rw [hown.snapshot, hold] at hdiff
          exact absurd rfl hdiff
    refine ⟨h.indexed, h.nonempty, fun e he => h.terms e (hsub e he), fun e he hd => (mem_log_iff hnum).mpr ?_, ?_,
      h.reach, fun snap hsome => ?_, h.size, fun _ => ?_, nofun⟩
    · rw [hstorage]
      rcases (mem_log_iff hst).mp (h.logged e he hd) with ⟨hstored, hlt⟩ | hmem
      · refine Or.inl ⟨hstored, ?_⟩
        rcases hcases with ⟨hoff, -⟩ | ⟨last', -, htakes, hoff, -⟩
        · rwa [hoff]
        · have := htakes.1
          omega
      · by_cases hle : (RawNode.advanceLog n.raft.raftLog rd).unstable.offset ≤ e.index
        · exact Or.inr (hkeeps e hmem hle)
        · -- it was in the `Ready`, so it is stored
          refine Or.inl ⟨hown.kept rfl e he hd ?_, by omega⟩
          obtain ⟨k, hk⟩ := List.mem_iff_getElem?.mp hmem
          have hidx := hun k e hk
          rcases hcases with ⟨hoff, -⟩ | ⟨last', hlast', -, hoff, -⟩
          · omega
          · have hend := (hown.takes hun hlast').2
            have hlen : k < rd.entries.length := by omega
            have hat := List.prefix_iff_getElem?.mp hown.entries k hlen
            rw [hk] at hat
            rw [Option.some.inj hat]
            exact List.getElem_mem hlen
    · by_cases hne : (RawNode.advanceLog n.raft.raftLog rd).unstable.entries = []
      · have hat : (RawNode.advanceLog n.raft.raftLog rd).lastIndex = n.raft.raftLog.storage.lastIndex := by
          rw [← hstorage]
          simp [RaftLog.lastIndex, Unstable.maybeLastIndex, hne, hnone]
        rw [hlog, hat]
        rcases hcases with ⟨-, hsame, hno⟩ | ⟨last', hlast', htakes, hoff, hdrop⟩
        · have hnil : n.raft.raftLog.unstable.entries = [] := hsame.symm.trans hne
          have hplain := hown.plain (List.prefix_nil.mp (hnil ▸ hown.entries))
          rw [← hlast]
          simp [RaftLog.lastIndex, Unstable.maybeLastIndex, hnil, hplain]
        · have hfull : rd.entries ≠ [] := by
            rintro hnil
            rw [hnil] at hlast'
            cases hlast'
          have hstored := hown.ends rfl hfull
          have hend := (hown.takes hun hlast').2
          have hold := RaftLog.lastIndex_unstable fun hnil => hfull (List.prefix_nil.mp (hnil ▸ hown.entries))
          have hlen := congrArg List.length hne
          rw [hdrop, List.length_drop, List.length_nil] at hlen
          have := hown.entries.length_le
          omega
      · exact hends hne
    · rw [hlog, hnone] at hsome
      cases hsome
    · refine hown.reach.imp_left fun hall => ?_
      rw [hlog]
      rcases hcases with ⟨-, hsame, hno⟩ | ⟨last', hlast', -, hoff, hdrop⟩
      · rw [hsame, hall]
        cases hlast' : rd.entries.getLast? with
        | none => exact List.getLast?_eq_none_iff.mp hlast'
        | some last' => exact absurd (hown.takes hun hlast').1 (hno last' hlast')
      · have hend := (hown.takes hun hlast').2
        rw [hdrop, hall]
        exact List.drop_eq_nil_of_le (by omega)

/-- The storage loses entries that have been delivered. -/
theorem Counts.shrink {out : Option (Ready × Bool)} (h : Counts own last d out r)
    (hst : IndexedFrom (r.raftLog.storage.dummy.index + 1) r.raftLog.storage.ents) {st : MemoryStorage}
    (hnum : IndexedFrom (st.dummy.index + 1) st.ents) (hkept : ∀ e ∈ r.raftLog.storage.ents, d < e.index → e ∈ st.ents)
    (hlast : st.lastIndex = r.raftLog.storage.lastIndex)
    (hdummy : ∀ rd, out = some (rd, false) → st.dummy.index ≤ max r.raftLog.applied r.raftLog.storage.dummy.index) :
    Counts own last d out { r with raftLog := { r.raftLog with storage := st } } := by
  have hend : RaftLog.lastIndex { r.raftLog with storage := st } = r.raftLog.lastIndex := by
    simp only [RaftLog.lastIndex, hlast]
  refine ⟨h.indexed, h.nonempty, h.terms, fun e he hd => ?_, hend.trans h.lastIndex, h.reach, h.pending, h.size, h.idle,
    fun rd stored hout => (h.out rd stored hout).imp (fun hforeign => ?_) fun hown => ?_⟩
  · exact (mem_log_iff hnum).mpr
      (((mem_log_iff hst).mp (h.logged e he hd)).imp_left fun hstored => ⟨hkept e hstored.1 hd, hstored.2⟩)
  · exact ⟨hforeign.earlier, hforeign.offset_le, hforeign.nonempty, hforeign.before⟩
  · refine ⟨hown.entries, hown.snapshot, hown.plain, hown.reach, fun hs hne => ?_,
      fun hs e he hd hmem => hkept e (hown.kept hs e he hd hmem) hd, fun hs hne => ?_⟩
    · subst hs
      have hahead := hown.ahead rfl hne
      have hbound := hdummy rd hout
      simp only
      omega
    · rw [hlast]
      exact hown.ends hs hne

end Application

/-! ### Every run -/

section Runs
variable {s s' : Driver} {d₀ : Nat}

/-- The index of the last entry that a `Ready` has handed out, 0 before the first. -/
def Driver.handedIndex (s : Driver) : Nat :=
  ((s.handed.flatMap fun p => p.2.committedEntries).getLast?.map Entry.index).getD 0

/-- What the application has after all that has been handed out. -/
def Driver.delivered (s : Driver) (d₀ : Nat) : Nat := (s.handed.map Prod.snd).foldl Ready.reaches d₀

theorem Tallied.driven (h : Tallied s.outstanding (s.delivered d₀) s.node.raft)
    (hw : Watched s.outstanding s.node.raft) (hd : Delivery d₀ s)
    (hfit : ∀ p ∈ s'.handed, payload p.2.committedEntries < 2 ^ 32)
    (hstep : Driver.StepWith NodeAction.Dated s s') :
    Tallied s'.outstanding (s'.delivered d₀) s'.node.raft := by
  have hdel := hd.delivered
  cases hstep with
  | call ha hdated hrun => exact h.call hw hdel.placed ha hdated hrun
  | tends hstep hown =>
      cases hstep with
      | @call a n ha hrun =>
          have hsame := Driver.tends_same ha hrun hown
          change Tallied s.outstanding (s.delivered d₀) n.raft
          rw [hsame]
          exact h
      | @ready rd n hout hrd =>
          obtain ⟨hcont, hentry, -⟩ := hdel.ready hout hrd
          intro hl
          rw [hout] at h
          obtain ⟨own, last, hcounts⟩ := h ((ready_raft hrd).2.2.1.symm.trans hl)
          refine ⟨own, last, ?_⟩
          simp only [Driver.delivered, List.map_append, List.foldl_append]
          exact hcounts.ready hdel.stored hdel.unstable hdel.applied_le hdel.dummy_le hrd hcont hentry
            (hfit _ (List.mem_append_right _ (List.mem_singleton.mpr rfl)))
      | @persist rd st hout hst =>
          obtain ⟨i, hents⟩ := (hdel.handing rd false hout).entries
          intro hl
          obtain ⟨own, last, hcounts⟩ := h hl
          rw [hout] at hcounts
          exact ⟨own, last, hcounts.persist hdel.stored hdel.unstable hents hdel.dummy_le hst⟩
      | @advance rd hout =>
          have hhanding := hdel.handing rd true hout
          intro hl
          obtain ⟨own, last, hcounts⟩ := h hl
          rw [hout] at hcounts
          refine ⟨own, last, hcounts.advance hdel.stored hdel.unstable fun snap hs => ?_⟩
          have := (hhanding.pending snap hs).1
          omega
      | @compact i status st hi hst =>
          have hdel' := hdel.compact hi hst
          obtain ⟨hkept, hlast, hdummy⟩ := compact_keeps hdel.stored hst
          intro hl
          obtain ⟨own, last, hcounts⟩ := h hl
          refine ⟨own, last, hcounts.shrink hdel.stored hdel'.stored (fun e he hd => hkept e he ?_) hlast fun rd hout => ?_⟩
          · exact hdel'.dummy_le.trans_lt hd
          · -- only what is applied goes while the `Ready` is not stored
            rcases hi with hi | ⟨rd', hout', -⟩
            · exact hdummy.trans (max_le_max_right _ hi)
            · rw [hout] at hout'
              cases hout'
      | createSnapshot hst =>
          obtain ⟨hdummy, hents⟩ := MemoryStorage.createSnapshot_keeps hst
          intro hl
          obtain ⟨own, last, hcounts⟩ := h hl
          refine ⟨own, last, hcounts.shrink hdel.stored ?_ (fun e he _ => ?_) ?_ fun rd hout => ?_⟩
          · rw [hdummy, hents]
            exact hdel.stored
          · rwa [hents]
          · rw [MemoryStorage.lastIndex, MemoryStorage.lastIndex, hdummy, hents]
            rfl
          · rw [hdummy]
            exact le_max_right _ _

theorem Driver.Step.handed_mono (h : Driver.Step s s') {p : RaftLog × Ready} (hp : p ∈ s.handed) : p ∈ s'.handed := by
  cases h with
  | ready => exact List.mem_append_left _ hp
  | call | persist | advance | compact | createSnapshot => exact hp

/-- Nothing that is handed out is behind what the application then has. -/
theorem Delivers.index_le {d : Nat} {rds : List Ready} (h : Delivers d rds) :
    d ≤ rds.foldl Ready.reaches d ∧
      ∀ rd ∈ rds, ∀ e ∈ rd.committedEntries, e.index ≤ rds.foldl Ready.reaches d := by
  induction rds generalizing d with
  | nil => exact ⟨le_rfl, nofun⟩
  | cons rd rds ih =>
      obtain ⟨⟨hjump, hidx⟩, hrest⟩ := h
      obtain ⟨hle, hlater⟩ := ih hrest
      have hstart : d ≤ rd.start d := by
        rw [Ready.start]
        split
        · exact le_rfl
        · rename_i hfull
          exact (hjump (Bool.not_eq_true _ ▸ hfull)).le
      rw [List.foldl_cons]
      refine ⟨(hstart.trans (Nat.le_add_right _ _)).trans hle, fun rd' hrd' e he => ?_⟩
      rcases List.mem_cons.mp hrd' with rfl | hmem
      · have hlt := (hidx.bounds he).2
        rw [Ready.reaches] at hle
        rw [Ready.reaches]
        omega
      · exact hlater rd' hmem e he

theorem Delivery.handedIndex_le (h : Delivery d₀ s) : s.handedIndex ≤ s.delivered d₀ := by
  rw [Driver.handedIndex]
  cases hlast : (s.handed.flatMap fun p => p.2.committedEntries).getLast? with
  | none => exact Nat.zero_le _
  | some e =>
      obtain ⟨p, hp, he⟩ := List.mem_flatMap.mp (List.mem_of_getLast? hlast)
      exact h.delivers.index_le.2 p.2 (List.mem_map_of_mem hp) e he

theorem Driver.RunsWith.tallied {c : Config} {n : RawNode}
    (hst : IndexedFrom (c.storage.dummy.index + 1) c.storage.ents)
    (happ : c.applied ≤ max c.storage.hardState.commit c.storage.dummy.index)
    (hn : RawNode.restartNode c = .ok n ∨ ∃ serialize peers, RawNode.startNode serialize c peers = .ok n)
    (h : Driver.RunsWith NodeAction.Dated { node := n } s)
    (hfit : ∀ p ∈ s.handed, payload p.2.committedEntries < 2 ^ 32) :
    Delivery (max c.applied c.storage.dummy.index) s ∧
      Tallied s.outstanding (s.delivered (max c.applied c.storage.dummy.index)) s.node.raft := by
  induction h with
  | refl =>
      refine ⟨started_delivery hst happ hn, fun hl => ?_⟩
      cases (started_follower hn).symm.trans hl
  | tail hruns hstep ih =>
      obtain ⟨hd, htally⟩ := ih fun p hp => hfit p (hstep.step.handed_mono hp)
      exact ⟨hd.step hstep.step, htally.driven (Driver.RunsWith.watched hst happ hn hruns) hd hfit hstep⟩

/-- In every run, from any stored log, in which the committed entries of no `Ready` weigh 4 GiB: a leader
counts as uncommitted no more than the payload of the entries in its log behind the last one that was
handed out. When all are handed out it counts nothing, and appends whatever is proposed. -/
theorem uncommitted_size_never_over {c : Config} {n : RawNode}
    (hst : IndexedFrom (c.storage.dummy.index + 1) c.storage.ents)
    (happ : c.applied ≤ max c.storage.hardState.commit c.storage.dummy.index)
    (hn : RawNode.restartNode c = .ok n ∨ ∃ serialize peers, RawNode.startNode serialize c peers = .ok n)
    (h : Driver.RunsWith NodeAction.Dated { node := n } s)
    (hfit : ∀ p ∈ s.handed, payload p.2.committedEntries < 2 ^ 32) (hl : s.node.raft.state = .leader) :
    s.node.raft.uncommittedSize ≤ payload (above s.handedIndex s.log.logical.entries) ∧
      ((∀ e ∈ s.log.logical.entries, e.index ≤ s.handedIndex) →
        s.node.raft.uncommittedSize = 0 ∧
          ∀ es r' taken, s.node.raft.appendEntry es = .ok (r', taken) → taken = true) := by
  obtain ⟨hd, htally⟩ := h.tallied hst happ hn hfit
  obtain ⟨own, last, hcounts⟩ := htally hl
  have hle : s.node.raft.uncommittedSize ≤ payload (above s.handedIndex s.log.logical.entries) := by
    refine hcounts.size.trans (payload_le_of_subset (hcounts.indexed.nodup.filter _) fun e he => ?_)
    obtain ⟨hown, hbehind⟩ := List.mem_filter.mp he
    have hbehind := of_decide_eq_true hbehind
    have hin := hcounts.logical hd.delivered.dummy_le hown hbehind
    exact List.mem_filter.mpr ⟨hin, decide_eq_true (hd.handedIndex_le.trans_lt hbehind)⟩
  refine ⟨hle, fun hall => ?_⟩
  have hnone : above s.handedIndex s.log.logical.entries = [] :=
    List.filter_eq_nil_iff.mpr fun e he hbehind => absurd (hall e he) (Nat.not_le.mpr (of_decide_eq_true hbehind))
  rw [hnone, payload_nil] at hle
  have hzero := Nat.le_zero.mp hle
  refine ⟨hzero, fun es r' taken happend => ?_⟩
  unfold Raft.appendEntry Raft.increaseUncommittedSize at happend
  simp only [hzero, gt_iff_lt, lt_self_iff_false, false_and, if_false] at happend
  obtain ⟨log, -, happend⟩ := bind_ok happend
  split at happend
  · cases happend
  · obtain ⟨⟨r₁, changed⟩, -, happend⟩ := bind_ok happend
    exact (Prod.mk.inj (Except.ok.inj happend)).2.symm

/-- A voter that is alone elects itself, and hands out its first entry before three bytes are proposed and
after. -/
def proposeThree (n : RawNode) : Result (Driver × Driver) := do
  let n ← n.run .campaign
  let log := n.raft.raftLog
  let (rd, n) ← n.ready
  let n ← n.run (.propose [1, 2, 3])
  let s : Driver := { node := n, outstanding := some (rd, false), handed := [(log, rd)] }
  let st ← persist s.log.storage rd
  let stored : Driver := { s.setStorage st with outstanding := some (rd, true) }
  let told : Driver := { stored with node := stored.node.advance rd, outstanding := none }
  let (rd', n) ← told.node.ready
  .ok (s, { node := n, outstanding := some (rd', false), handed := told.handed ++ [(told.log, rd')] })

theorem proposeThree_runs {n : RawNode} {s s' : Driver} (h : proposeThree n = .ok (s, s')) :
    Driver.RunsWith NodeAction.Dated { node := n } s ∧ Driver.RunsWith NodeAction.Dated { node := n } s' := by
  unfold proposeThree at h
  obtain ⟨n₁, h₁, h⟩ := bind_ok h
  obtain ⟨⟨rd₁, n₂⟩, h₂, h⟩ := bind_ok h
  obtain ⟨n₃, h₃, h⟩ := bind_ok h
  obtain ⟨st, h₄, h⟩ := bind_ok h
  obtain ⟨⟨rd₂, n₅⟩, h₅, h⟩ := bind_ok h
  obtain ⟨rfl, rfl⟩ := Prod.mk.inj (Except.ok.inj h)
  have hfirst : Driver.RunsWith NodeAction.Dated { node := n }
      { node := n₃, outstanding := some (rd₁, false), handed := [(n₁.raft.raftLog, rd₁)] } :=
    .head (.call (a := .campaign) trivial trivial h₁) (.head (.tends (.ready rfl h₂) (Or.inl nofun))
      (.single (.call (a := .propose [1, 2, 3]) trivial trivial h₃)))
  exact ⟨hfirst, hfirst.trans (.head (.tends (.persist rfl h₄) (Or.inl (by simp))) (.head (.tends (.advance rfl) (Or.inl nofun))
    (.single (.tends (.ready rfl h₅) (Or.inl nofun)))))⟩

/-- The three bytes are counted, and handed out. -/
theorem uncommitted_size_never_over_three : ∃ n s s', RawNode.restartNode loneVoter = .ok n ∧
    Driver.RunsWith NodeAction.Dated { node := n } s ∧ Driver.RunsWith NodeAction.Dated { node := n } s' ∧
      s.node.raft.state = .leader ∧ s.node.raft.uncommittedSize = 3 ∧
      s.node.raft.uncommittedSize ≤ payload (above s.handedIndex s.log.logical.entries) ∧
      s'.node.raft.state = .leader ∧ s'.node.raft.uncommittedSize = 0 := by
  obtain ⟨⟨s, s'⟩, hrun, heval⟩ : ∃ p, (RawNode.restartNode loneVoter >>= proposeThree) = .ok p ∧
      decide (p.1.node.raft.state = .leader ∧ p.1.node.raft.uncommittedSize = 3 ∧
        (∀ q ∈ p.1.handed, payload q.2.committedEntries < 2 ^ 32) ∧ p.2.node.raft.state = .leader ∧
        (∀ q ∈ p.2.handed, payload q.2.committedEntries < 2 ^ 32) ∧
        ∀ e ∈ p.2.log.logical.entries, e.index ≤ p.2.handedIndex) = true :=
    exists_ok_of_any (by decide +kernel)
  obtain ⟨n, hn, hrun⟩ := bind_ok hrun
  obtain ⟨hruns, hruns'⟩ := proposeThree_runs hrun
  obtain ⟨hl, hsize, hfit, hl', hfit', hall⟩ := of_decide_eq_true heval
  have hle := (uncommitted_size_never_over (c := loneVoter) (.nil _) (by decide) (Or.inl hn) hruns hfit hl).1
  have hzero := (uncommitted_size_never_over (c := loneVoter) (.nil _) (by decide) (Or.inl hn) hruns' hfit' hl').2 hall
  exact ⟨n, s, s', hn, hruns, hruns', hl, hsize, hle, hl', hzero.1⟩

end Runs

end RaftEtcd
