import RaftEtcd.Handlers
import RaftEtcd.Lib.Outcome
import RaftEtcd.Node

/-! What no operation of a node undoes, whatever comes in: its term, its vote in a term and its
commit index only move forward, the storage and the applied index are left to the application, and
pending reads are kept or dropped as a whole. Nothing is assumed of the peers here. -/
namespace RaftEtcd

namespace RaftLog

/-- What the unstable entries go on behind: the snapshot that is pending, or the storage. -/
def base (l : RaftLog) : Nat := (l.unstable.snapshot.map fun s => s.metadata.index).getD l.storage.lastIndex

/-- The unstable entries go on at the base of the log or below it, and above `c`; all that is
committed is stored or among them. -/
structure Tail (c : Nat) (l : RaftLog) : Prop where
  above : l.unstable.entries ≠ [] → c < l.unstable.offset
  offset_le : l.unstable.offset ≤ l.base + 1
  offset_eq : l.unstable.entries = [] → l.unstable.offset = l.base + 1
  committed_lt : l.committed < l.unstable.offset + l.unstable.entries.length
  pending : ∀ s, l.unstable.snapshot = some s → s.metadata.index ≤ l.committed ∧ s.metadata.index < l.unstable.offset

/-- The entry at an index, looked up where the code looks. -/
def entryAt (l : RaftLog) (i : Nat) : Option Entry :=
  if i < l.unstable.offset then l.storage.ents[i - l.storage.dummy.index - 1]?
  else l.unstable.entries[i - l.unstable.offset]?

/-- The log after some calls. `W` stands for "the entries that came in are numbered". -/
structure Grows (W : Prop) (l l' : RaftLog) : Prop where
  storage : l'.storage = l.storage
  applied : l'.applied = l.applied
  limit : l'.maxNextEntsSize = l.maxNextEntsSize
  committed : l.committed ≤ l'.committed
  snapshot : l'.unstable.snapshot = l.unstable.snapshot ∨
    ∃ s, l'.unstable.snapshot = some s ∧ l.committed < s.metadata.index ∧ s.metadata.index ≤ l'.committed
  indexed : W → IndexedFrom l.unstable.offset l.unstable.entries →
    IndexedFrom l'.unstable.offset l'.unstable.entries
  tail : W → ∀ c ≤ l.committed, l.Tail c → l'.Tail c
  kept : l'.unstable.snapshot = none → ∀ i, 0 < i → i ≤ l.committed → l'.entryAt i = l.entryAt i

variable {W : Prop} {l l' l'' : RaftLog}

theorem Tail.lastIndex {c : Nat} (h : l.Tail c) :
    l.lastIndex + 1 = l.unstable.offset + l.unstable.entries.length := by
  rw [RaftLog.lastIndex, Unstable.maybeLastIndex]
  by_cases he : l.unstable.entries = []
  · have hoff := h.offset_eq he
    rw [base] at hoff
    simp only [he, ne_eq, not_true_eq_false, if_false, List.length_nil, Nat.add_zero]
    cases hs : l.unstable.snapshot with
    | none =>
        rw [hs] at hoff
        exact hoff.symm
    | some s =>
        rw [hs] at hoff
        exact hoff.symm
  · have := List.length_pos_of_ne_nil he
    simp only [he, ne_eq, not_false_eq_true, if_true]
    omega

namespace Grows

theorem refl (l : RaftLog) : Grows W l l :=
  ⟨rfl, rfl, rfl, le_rfl, Or.inl rfl, fun _ h => h, fun _ _ _ h => h, fun _ _ _ _ => rfl⟩

theorem trans (h : Grows W l l') (h' : Grows W l' l'') : Grows W l l'' where
  storage := h'.storage.trans h.storage
  applied := h'.applied.trans h.applied
  limit := h'.limit.trans h.limit
  committed := h.committed.trans h'.committed
  snapshot := by
    rcases h'.snapshot with h₂ | ⟨s, hs, hlt, hle⟩
    · rcases h.snapshot with h₁ | ⟨s, hs, hlt, hle⟩
      · exact Or.inl (h₂.trans h₁)
      · exact Or.inr ⟨s, h₂.trans hs, hlt, hle.trans h'.committed⟩
    · exact Or.inr ⟨s, hs, lt_of_le_of_lt h.committed hlt, hle⟩
  indexed w hi := h'.indexed w (h.indexed w hi)
  tail w c hc ht := h'.tail w c (hc.trans h.committed) (h.tail w c hc ht)
  kept hnone i hi hc := by
    -- no snapshot came in on the way
    have hbefore : l'.unstable.snapshot = none := by
      rcases h'.snapshot with hsame | ⟨s, hs, -, -⟩
      · rw [← hsame]
        exact hnone
      · cases hs.symm.trans hnone
    rw [h'.kept hnone i hi (hc.trans h.committed)]
    exact h.kept hbefore i hi hc

theorem mono {W' : Prop} (h : Grows W l l') (hw : W' → W) : Grows W' l l' :=
  ⟨h.storage, h.applied, h.limit, h.committed, h.snapshot, fun w => h.indexed (hw w), fun w => h.tail (hw w), h.kept⟩

end Grows

theorem commitTo_grows {c : Nat} (h : l.commitTo c = .ok l') : Grows W l l' := by
  rw [commitTo] at h
  split at h
  · rename_i hlt
    split at h
    · cases h
    · rename_i hlast
      obtain rfl := Except.ok.inj h
      refine ⟨rfl, rfl, rfl, hlt.le, Or.inl rfl, fun _ hi => hi, fun _ b _ ht => ?_, fun _ _ _ _ => rfl⟩
      have hend := ht.lastIndex
      refine ⟨ht.above, ht.offset_le, ht.offset_eq, by simp only; omega, fun s hs => ?_⟩
      exact ⟨(ht.pending s hs).1.trans hlt.le, (ht.pending s hs).2⟩
  · obtain rfl := Except.ok.inj h
    exact .refl l

/-- Whatever the entries replace, the unstable ones stay numbered from their offset on. -/
theorem truncateAndAppend_spec {u u' : Unstable} {es : List Entry} (h : u.truncateAndAppend es = .ok u') :
    u'.snapshot = u.snapshot ∧ ((∃ s, IndexedFrom s es) → IndexedFrom u.offset u.entries →
      IndexedFrom u'.offset u'.entries) := by
  unfold Unstable.truncateAndAppend at h
  split at h
  · obtain rfl := Except.ok.inj h
    exact ⟨rfl, fun _ hi => hi⟩
  · rename_i e rest
    have hhead : (∃ s, IndexedFrom s (e :: rest)) → IndexedFrom e.index (e :: rest) := by
      rintro ⟨s, hs⟩
      rw [hs.cons.1]
      exact hs
    dsimp only at h
    split at h
    · rename_i hafter
      obtain rfl := Except.ok.inj h
      refine ⟨rfl, fun hes hi => hi.append ?_⟩
      rw [Nat.add_comm, ← hafter]
      exact hhead hes
    split at h
    · obtain rfl := Except.ok.inj h
      exact ⟨rfl, fun hes _ => hhead hes⟩
    · rename_i hle
      obtain ⟨kept, hkept, h⟩ := bind_ok h
      obtain rfl := Except.ok.inj h
      refine ⟨rfl, fun hes hi => ?_⟩
      obtain ⟨-, -, hin, rfl⟩ := Unstable.slice_cases hkept
      rw [Nat.sub_self, List.drop_zero]
      refine (hi.take _).append ?_
      rw [List.length_take, show u.offset + min (e.index - u.offset) u.entries.length = e.index by omega]
      exact hhead hes

/-- Entries from `i` on are taken over, and those below it stay where they were. -/
structure Spliced (u u' : Unstable) (i : Nat) (es : List Entry) : Prop where
  snapshot : u'.snapshot = u.snapshot
  nonempty : u'.entries ≠ []
  offset : u'.offset = u.offset ∧ u.offset ≤ i ∨ u'.offset = i ∧ i ≤ u.offset
  start_le : i ≤ u.offset + u.entries.length
  given : es ≠ []
  ends : u'.offset + u'.entries.length = i + es.length
  below : ∀ k, u'.offset ≤ k → k < i → u'.entries[k - u'.offset]? = u.entries[k - u.offset]?
  above : ∀ k, i ≤ k → u'.entries[k - u'.offset]? = es[k - i]?

theorem truncateAndAppend_spliced {u u' : Unstable} {i : Nat} {e : Entry} {es : List Entry} (he : e.index = i)
    (h : u.truncateAndAppend (e :: es) = .ok u') : Spliced u u' i (e :: es) := by
  unfold Unstable.truncateAndAppend at h
  simp only [he] at h
  split at h
  · rename_i hend
    obtain rfl := Except.ok.inj h
    refine ⟨rfl, by simp, Or.inl ⟨rfl, by omega⟩, by omega, by simp, ?_, fun k hk hlt => ?_, fun k hk => ?_⟩
    · simp only [List.length_append]
      omega
    · simp only at hk ⊢
      exact List.getElem?_append_left (by omega)
    · simp only
      rw [List.getElem?_append_right (by omega)]
      congr 1
      omega
  split at h
  · rename_i hle
    obtain rfl := Except.ok.inj h
    refine ⟨rfl, by simp, Or.inr ⟨rfl, hle⟩, by omega, by simp, rfl, fun k hk hlt => ?_, fun k hk => rfl⟩
    simp only at hk
    omega
  · rename_i hgt
    obtain ⟨kept, hkept, h⟩ := bind_ok h
    obtain rfl := Except.ok.inj h
    obtain ⟨-, -, hin, rfl⟩ := Unstable.slice_cases hkept
    rw [Nat.sub_self, List.drop_zero]
    have hlen : (u.entries.take (i - u.offset)).length = i - u.offset := by
      rw [List.length_take]
      omega
    refine ⟨rfl, by simp, Or.inl ⟨rfl, by omega⟩, by omega, by simp, ?_, fun k hk hlt => ?_, fun k hk => ?_⟩
    · simp only [List.length_append, hlen]
      omega
    · simp only at hk ⊢
      rw [List.getElem?_append_left (by omega), List.getElem?_take_of_lt (by omega)]
    · simp only
      rw [List.getElem?_append_right (by omega), hlen]
      congr 1
      omega

/-- Below the first new entry nothing is looked up elsewhere than before. -/
theorem Spliced.offset_of_lt {u u' : Unstable} {i k : Nat} {es : List Entry} (h : Spliced u u' i es)
    (hk : k < i) : u'.offset ≤ k ↔ u.offset ≤ k := by
  have := h.offset
  omega

/-- The entries reach from the first new one, or from below it, to the last new one. -/
theorem truncateAndAppend_reaches {u u' : Unstable} {e : Entry} {es : List Entry}
    (h : u.truncateAndAppend (e :: es) = .ok u') : u'.entries ≠ [] ∧ u'.offset ≤ u.offset ∧
      e.index < u'.offset + u'.entries.length ∧ (u'.offset = e.index ∨ u'.offset = u.offset ∧ u.entries ≠ []) := by
  have hs := truncateAndAppend_spliced rfl h
  have hoffset := hs.offset
  have hstart := hs.start_le
  have hends := hs.ends
  rw [List.length_cons] at hends
  refine ⟨hs.nonempty, by omega, by omega, ?_⟩
  by_cases hnil : u.entries = []
  · rw [hnil, List.length_nil] at hstart
    exact Or.inl (by omega)
  · rcases hoffset with ⟨hsame, -⟩ | ⟨hnew, -⟩
    · exact Or.inr ⟨hsame, hnil⟩
    · exact Or.inl hnew

/-- An entry below the new ones is where it was. -/
theorem Spliced.entryAt {u : Unstable} {i k : Nat} {es : List Entry} (h : Spliced l.unstable u i es) (hk : k < i) :
    RaftLog.entryAt { l with unstable := u } k = l.entryAt k := by
  have hoffset := h.offset_of_lt hk
  rw [RaftLog.entryAt, RaftLog.entryAt]
  simp only
  by_cases hlow : k < u.offset
  · rw [if_pos hlow, if_pos (by omega)]
  · rw [if_neg hlow, if_neg (by omega)]
    exact h.below k (by omega) hk

theorem append_grows {es : List Entry} (hes : W → ∃ s, 1 ≤ s ∧ IndexedFrom s es) (h : l.append es = .ok l') :
    Grows W l l' := by
  unfold append at h
  split at h
  · obtain rfl := Except.ok.inj h
    exact .refl l
  · rename_i e es
    split at h
    · cases h
    · rename_i hcom
      obtain ⟨u, hu, h⟩ := bind_ok h
      obtain rfl := Except.ok.inj h
      obtain ⟨hsnap, hidx⟩ := truncateAndAppend_spec hu
      refine ⟨rfl, rfl, rfl, le_rfl, Or.inl hsnap, fun w hi => ?_, fun w c hc ht => ?_, fun _ i hi hc => ?_⟩
      · obtain ⟨s, -, hs⟩ := hes w
        exact hidx ⟨s, hs⟩ hi
      · obtain ⟨s, hpos, hidx⟩ := hes w
        obtain ⟨hne, hle, hlast, hoff⟩ := truncateAndAppend_reaches hu
        have hfirst : e.index = s := hidx.cons.1
        have hbase : base { l with unstable := u } = l.base := by rw [base, base, hsnap]
        -- the entries go on above everything that is committed, or where they went on before
        have habove : ∀ i ≤ l.committed, (l.unstable.entries ≠ [] → i < l.unstable.offset) → i < u.offset := by
          intro i hi hold
          rcases hoff with hoff | ⟨hoff, hne⟩
          · omega
          · have := hold hne
            omega
        refine ⟨fun _ => habove c hc ht.above, ?_, fun hnil => absurd hnil hne, by simp only; omega, fun s' hs' => ?_⟩
        · rw [hbase]
          exact hle.trans ht.offset_le
        · obtain ⟨hcom, hlt⟩ := ht.pending s' (hsnap.symm.trans hs')
          exact ⟨hcom, habove _ hcom fun _ => hlt⟩
      · exact (truncateAndAppend_spliced rfl hu).entryAt (by omega)

theorem maybeAppend_grows {index logTerm committed : Nat} {es : List Entry} {ok : Option Nat}
    (hes : W → IndexedFrom (index + 1) es) (h : l.maybeAppend index logTerm committed es = .ok (l', ok)) :
    Grows W l l' := by
  unfold maybeAppend at h
  split at h
  · -- the end of each branch: the commit index follows
    have hend : ∀ {l₁ : RaftLog} {c : Nat}, Grows W l l₁ →
        (do let l₂ ← l₁.commitTo c; Except.ok (l₂, some (index + es.length)) : Result _) = .ok (l', ok) →
        Grows W l l' := by
      intro l₁ c hg₁ h
      obtain ⟨l₂, h₂, h⟩ := bind_ok h
      rw [← (Prod.mk.inj (Except.ok.inj h)).1]
      exact hg₁.trans (commitTo_grows h₂)
    simp only at h
    split at h
    · exact hend (.refl l) h
    split at h
    · cases h
    · obtain ⟨l₁, h₁, h⟩ := bind_ok h
      exact hend (append_grows (fun w => ⟨_, by omega, (hes w).drop _⟩) h₁) h
  · rw [← (Prod.mk.inj (Except.ok.inj h)).1]
    exact .refl l

theorem maybeCommit_grows {i t : Nat} {b : Bool} (h : l.maybeCommit i t = .ok (l', b)) : Grows W l l' := by
  rw [maybeCommit] at h
  split at h
  · split at h
    · cases h
    · split at h
      · obtain ⟨l₁, h₁, h⟩ := bind_ok h
        rw [← (Prod.mk.inj (Except.ok.inj h)).1]
        exact commitTo_grows h₁
      · rw [← (Prod.mk.inj (Except.ok.inj h)).1]
        exact .refl l
  · rw [← (Prod.mk.inj (Except.ok.inj h)).1]
    exact .refl l

theorem restore_grows {s : Snapshot} (h : l.committed < s.metadata.index) : Grows W l (l.restore s) :=
  ⟨rfl, rfl, rfl, h.le, Or.inr ⟨s, rfl, h, le_rfl⟩, fun _ _ => .nil _, fun _ _ _ _ =>
    ⟨fun hne => absurd rfl hne, le_rfl, fun _ => rfl, Nat.lt_succ_self _, fun _ hs => by
      obtain rfl := Option.some.inj hs
      exact ⟨le_rfl, Nat.lt_succ_self _⟩⟩, nofun⟩

end RaftLog

/-- The node after some calls. -/
structure Advances (W : Prop) (r r' : Raft) : Prop where
  id : r'.id = r.id
  term : r.term ≤ r'.term
  vote : r'.term = r.term → r.vote ≠ 0 → r'.vote = r.vote
  log : r.raftLog.Grows W r'.raftLog

/-- The reads that wait for an acknowledgement are all dropped, or all kept by a node that still
leads the same voters if it led them before. -/
structure ReadsKept (r r' : Raft) : Prop where
  option : r'.readOnly.option = r.readOnly.option
  kept : (r'.readOnly.readIndexQueue = [] ∧ r'.readOnly.pendingReadIndex = ∅) ∨
    (r'.readOnly = r.readOnly ∧ (r.state = .leader → r'.state = .leader ∧ r'.prs.keys = r.prs.keys))

structure Evolves (W : Prop) (r r' : Raft) : Prop extends Advances W r r', ReadsKept r r'

/-- Only messages, timers, tallies, read states and the peers may be different. -/
structure SameSelf (r r' : Raft) : Prop where
  id : r'.id = r.id
  term : r'.term = r.term
  vote : r'.vote = r.vote
  raftLog : r'.raftLog = r.raftLog
  state : r'.state = r.state
  readOnly : r'.readOnly = r.readOnly

/-- And the voters are the same. -/
structure Keeps (r r' : Raft) : Prop extends SameSelf r r' where
  keys : r'.prs.keys = r.prs.keys

/-- Messages are added and progresses change. -/
structure Sends (r r' : Raft) : Prop extends Keeps r r' where
  readStates : r'.readStates = r.readStates
  msgs : r.msgs <+: r'.msgs

variable {W : Prop} {r r' r'' : Raft} {msg : Message}

theorem Advances.refl (r : Raft) : Advances W r r := ⟨rfl, le_rfl, fun _ _ => rfl, .refl _⟩

theorem Advances.trans (h : Advances W r r') (h' : Advances W r' r'') : Advances W r r'' where
  id := h'.id.trans h.id
  term := h.term.trans h'.term
  vote ht hv := by
    have h1 := h.term
    have h2 := h'.term
    have hv' := h.vote (by omega) hv
    rw [h'.vote (by omega) (hv' ▸ hv), hv']
  log := h.log.trans h'.log

theorem ReadsKept.trans (h : ReadsKept r r') (h' : ReadsKept r' r'') : ReadsKept r r'' where
  option := h'.option.trans h.option
  kept := by
    rcases h'.kept with h₂ | ⟨h₂, hl₂⟩
    · exact Or.inl h₂
    · rcases h.kept with h₁ | ⟨h₁, hl₁⟩
      · rw [h₂]
        exact Or.inl h₁
      · refine Or.inr ⟨h₂.trans h₁, fun hl => ?_⟩
        obtain ⟨hs, hk⟩ := hl₁ hl
        exact ⟨(hl₂ hs).1, (hl₂ hs).2.trans hk⟩

theorem Evolves.trans (h : Evolves W r r') (h' : Evolves W r' r'') : Evolves W r r'' :=
  ⟨h.toAdvances.trans h'.toAdvances, h.toReadsKept.trans h'.toReadsKept⟩

theorem SameSelf.trans (h : SameSelf r r') (h' : SameSelf r' r'') : SameSelf r r'' :=
  ⟨h'.id.trans h.id, h'.term.trans h.term, h'.vote.trans h.vote, h'.raftLog.trans h.raftLog,
    h'.state.trans h.state, h'.readOnly.trans h.readOnly⟩

theorem SameSelf.advances (h : SameSelf r r') : Advances W r r' where
  id := h.id
  term := h.term.ge
  vote _ _ := h.vote
  log := by
    rw [h.raftLog]
    exact .refl _

namespace Keeps

theorem refl (r : Raft) : Keeps r r := ⟨⟨rfl, rfl, rfl, rfl, rfl, rfl⟩, rfl⟩

theorem trans (h : Keeps r r') (h' : Keeps r' r'') : Keeps r r'' :=
  ⟨h.toSameSelf.trans h'.toSameSelf, h'.keys.trans h.keys⟩

theorem evolves (h : Keeps r r') : Evolves W r r' where
  toAdvances := h.toSameSelf.advances
  option := by rw [h.readOnly]
  kept := Or.inr ⟨h.readOnly, fun hl => ⟨h.state.trans hl, h.keys⟩⟩

end Keeps

theorem Evolves.refl (r : Raft) : Evolves W r r := (Keeps.refl r).evolves

theorem Sends.refl (r : Raft) : Sends r r := ⟨.refl r, rfl, List.prefix_refl _⟩

theorem Sends.trans (h : Sends r r') (h' : Sends r' r'') : Sends r r'' :=
  ⟨h.toKeeps.trans h'.toKeeps, h'.readStates.trans h.readStates, h.msgs.trans h'.msgs⟩

/-- A loop whose rounds only send. -/
theorem Sends.foldlM {α : Type} {f : Raft → α → Result Raft} (hf : ∀ r₁ x r₂, f r₁ x = .ok r₂ → Sends r₁ r₂)
    (xs : List α) (h : xs.foldlM f r = .ok r') : Sends r r' := by
  exact Outcome.foldlM_keeps (I := Sends r) (fun r₁ x r₂ hsent hx => hsent.trans (hf r₁ x r₂ hx)) xs (.refl r) h

section Sending

theorem send_sends {m : Message} (h : r.send m = .ok r') : Sends r r' := by
  obtain ⟨t, rfl, -, -⟩ := send_spec h
  exact ⟨⟨⟨rfl, rfl, rfl, rfl, rfl, rfl⟩, rfl⟩, rfl, List.prefix_append _ _⟩

theorem modifyProgress_sends (r : Raft) (id : Nat) (f : Progress → Progress) :
    Sends r (r.modifyProgress id f) := by
  have hkeys := r.modifyProgress_prs_keys id f
  obtain ⟨prs, lprs, heq⟩ := r.modifyProgress_eq id f
  rw [heq] at hkeys ⊢
  exact ⟨⟨⟨rfl, rfl, rfl, rfl, rfl, rfl⟩, hkeys⟩, rfl, List.prefix_refl _⟩

theorem sendHeartbeat_sends {id : Nat} {ctx : Bytes} (h : r.sendHeartbeat id ctx = .ok r') : Sends r r' := by
  unfold Raft.sendHeartbeat at h
  split at h
  · cases h
  · exact send_sends h

theorem bcastHeartbeatWithCtx_sends {ctx : Bytes} (h : r.bcastHeartbeatWithCtx ctx = .ok r') : Sends r r' :=
  Sends.foldlM (fun _ _ _ h => sendHeartbeat_sends h) _ h

theorem maybeSendAppend_sends {id : Nat} {e b : Bool} (h : r.maybeSendAppend id e = .ok (r', b)) :
    Sends r r' := by
  obtain ⟨p, -, hs⟩ := maybeSendAppend_supplies h
  -- a message goes out after the progress of the addressee has been noted
  cases hs with
  | waits paused => exact .refl r
  | spares status offered unasked => exact .refl r
  | skips status es offered missing inactive => exact .refl r
  | entries t status es p' _ ready before offered due noted sent =>
      exact (modifyProgress_sends r id _).trans (send_sends sent)
  | snapshot status es _ ready offered due missing sent => exact (modifyProgress_sends r id _).trans (send_sends sent)

theorem sendAppend_sends {id : Nat} (h : r.sendAppend id = .ok r') : Sends r r' := by
  obtain ⟨⟨r₁, b⟩, h₁, h⟩ := bind_ok h
  obtain rfl := Except.ok.inj h
  exact maybeSendAppend_sends h₁

theorem bcastAppend_sends (h : r.bcastAppend = .ok r') : Sends r r' :=
  Sends.foldlM (fun _ _ _ h => sendAppend_sends h) _ h

theorem sendAppendLoop_sends {id fuel : Nat} (h : Raft.sendAppendLoop id fuel r = .ok r') : Sends r r' := by
  induction fuel generalizing r with
  | zero => cases h
  | succ fuel ih =>
      rw [Raft.sendAppendLoop] at h
      obtain ⟨⟨r₁, sent⟩, h₁, h⟩ := bind_ok h
      have hk := maybeSendAppend_sends h₁
      simp only at h
      split at h
      · exact hk.trans (ih h)
      · obtain rfl := Except.ok.inj h
        exact hk

theorem sendVoteRequests_sends {ty : MessageType} {t : Nat} (h : r.sendVoteRequests ty t = .ok r') :
    Sends r r' := by
  refine Sends.foldlM ?_ _ h
  intro r₁ id r₂ h
  obtain ⟨lt, -, h⟩ := bind_ok h
  exact send_sends h

theorem poll_keeps (r : Raft) (id : Nat) (v : Bool) : Keeps r (r.poll id v).1 := by
  rw [Raft.poll_fst]
  split
  · exact .refl r
  · exact ⟨⟨rfl, rfl, rfl, rfl, rfl, rfl⟩, rfl⟩

theorem reduceUncommittedSize_keeps (r : Raft) (es : List Entry) : Keeps r (r.reduceUncommittedSize es) := by
  rw [Raft.reduceUncommittedSize_eq]
  exact ⟨⟨rfl, rfl, rfl, rfl, rfl, rfl⟩, rfl⟩

theorem filterConfChanges_keeps (r : Raft) (i : Nat) (es : List Entry) : Keeps r (r.filterConfChanges i es).1 := by
  induction es generalizing r i with
  | nil => exact .refl r
  | cons e es ih =>
      unfold Raft.filterConfChanges
      split
      · split
        · exact ih r _
        · have hset : Keeps r { r with pendingConfIndex := r.raftLog.lastIndex + i + 1 } :=
            ⟨⟨rfl, rfl, rfl, rfl, rfl, rfl⟩, rfl⟩
          exact hset.trans (ih _ _)
      · exact ih r _

end Sending

section Roles

@[simp] theorem Raft.reset_readOnly (r : Raft) (t : Nat) :
    (r.reset t).readOnly = { r.readOnly with pendingReadIndex := ∅, readIndexQueue := [] } := by
  unfold Raft.reset
  split <;> rfl

theorem reset_evolves (r : Raft) {t : Nat} (ht : r.term ≤ t) : Evolves W r (r.reset t) where
  id := by simp
  term := by simpa using ht
  vote h _ := by
    rw [Raft.reset_term] at h
    rw [Raft.reset_vote, if_pos h.symm]
  log := by
    rw [Raft.reset_raftLog]
    exact .refl _
  option := by simp
  kept := by simp

theorem becomeFollower_evolves (r : Raft) {t : Nat} (lead : Nat) (ht : r.term ≤ t) :
    Evolves W r (r.becomeFollower t lead) := by
  have h := reset_evolves (W := W) r ht
  exact ⟨⟨h.id, h.term, h.vote, h.log⟩, h.option, Or.inl (by simp [Raft.becomeFollower])⟩

theorem becomeCandidate_evolves (h : r.becomeCandidate = .ok r') : Evolves W r r' := by
  rw [Raft.becomeCandidate] at h
  split at h
  · cases h
  · obtain rfl := Except.ok.inj h
    have hr := reset_evolves (W := W) r (Nat.le_succ r.term)
    refine ⟨⟨hr.id, hr.term, ?_, hr.log⟩, hr.option, Or.inl (by simp)⟩
    intro ht
    simp at ht

theorem becomePreCandidate_evolves (h : r.becomePreCandidate = .ok r') : Evolves W r r' := by
  rw [Raft.becomePreCandidate] at h
  split at h
  · cases h
  · rename_i hnl
    obtain rfl := Except.ok.inj h
    exact ⟨⟨rfl, le_rfl, fun _ _ => rfl, .refl _⟩, rfl, Or.inr ⟨rfl, fun hl => absurd hl hnl⟩⟩

/-- A new log under the same node. -/
theorem Evolves.ofLog {log : RaftLog} (h : r.raftLog.Grows W log) : Evolves W r { r with raftLog := log } :=
  ⟨⟨rfl, le_rfl, fun _ _ => rfl, h⟩, rfl, Or.inr ⟨rfl, fun hl => ⟨hl, rfl⟩⟩⟩

theorem maybeCommit_spec {b : Bool} (h : r.maybeCommit = .ok (r', b)) :
    ∃ log, r' = { r with raftLog := log } ∧ r.raftLog.Grows W log := by
  unfold Raft.maybeCommit at h
  simp only at h
  split at h
  · cases h
  split at h
  · cases h
  · obtain ⟨⟨log, changed⟩, hlog, h⟩ := bind_ok h
    exact ⟨log, (Prod.mk.inj (Except.ok.inj h)).1.symm, RaftLog.maybeCommit_grows hlog⟩

theorem maybeCommit_evolves {b : Bool} (h : r.maybeCommit = .ok (r', b)) : Evolves W r r' := by
  obtain ⟨log, rfl, hgrow⟩ := maybeCommit_spec (W := W) h
  exact .ofLog hgrow

theorem increaseUncommittedSize_keeps (r : Raft) (es : List Entry) :
    Keeps r (r.increaseUncommittedSize es).1 := by
  unfold Raft.increaseUncommittedSize
  dsimp only
  split
  · exact .refl r
  · exact ⟨⟨rfl, rfl, rfl, rfl, rfl, rfl⟩, rfl⟩

theorem appendEntry_evolves {es : List Entry} {b : Bool} (h : r.appendEntry es = .ok (r', b)) :
    Evolves W r r' := by
  unfold Raft.appendEntry at h
  simp only at h
  have hk := increaseUncommittedSize_keeps r (Raft.stampEntries r.term (r.raftLog.lastIndex + 1) es)
  split at h
  · rename_i r₁ hr₁
    rw [hr₁] at hk
    rw [← (Prod.mk.inj (Except.ok.inj h)).1]
    exact hk.evolves
  · rename_i r₁ hr₁
    rw [hr₁] at hk
    obtain ⟨log, hlog, h⟩ := bind_ok h
    have hgrow := RaftLog.append_grows (W := W)
      (fun _ => ⟨_, Nat.le_add_left 1 _, stampEntries_indexed _ _ es⟩) hlog
    split at h
    · cases h
    · obtain ⟨⟨r₃, b₃⟩, h₃, h⟩ := bind_ok h
      rw [← (Prod.mk.inj (Except.ok.inj h)).1]
      exact hk.evolves.trans ((Evolves.ofLog hgrow).trans
        ((modifyProgress_sends _ _ _).evolves.trans (maybeCommit_evolves h₃)))

theorem becomeLeader_evolves (h : r.becomeLeader = .ok r') : Evolves W r r' := by
  obtain ⟨_, r₁, -, h₁, rfl⟩ := becomeLeader_spec h
  have hr := reset_evolves (W := W) r le_rfl
  have hlead := appendEntry_evolves (W := W) h₁
  refine Evolves.trans ?_ (hlead.trans (reduceUncommittedSize_keeps _ _).evolves)
  exact ⟨⟨hr.id, hr.term, hr.vote, hr.log⟩, hr.option, Or.inl (by simp)⟩

theorem campaignElection_evolves (h : r.campaignElection = .ok r') : Evolves W r r' := by
  obtain ⟨r₁, h₁, h⟩ := bind_ok h
  have hk := (becomeCandidate_evolves (W := W) h₁).trans (poll_keeps r₁ r₁.id true).evolves
  simp only at h
  split at h
  · exact hk.trans (becomeLeader_evolves h)
  · exact hk.trans (sendVoteRequests_sends h).evolves

theorem campaign_evolves {ct : CampaignType} (h : r.campaign ct = .ok r') : Evolves W r r' := by
  unfold Raft.campaign at h
  split at h
  · obtain ⟨r₁, h₁, h⟩ := bind_ok h
    have hk := (becomePreCandidate_evolves (W := W) h₁).trans (poll_keeps r₁ r₁.id true).evolves
    simp only at h
    split at h
    · exact hk.trans (campaignElection_evolves h)
    · exact hk.trans (sendVoteRequests_sends h).evolves
  · exact campaignElection_evolves h
  · exact campaignElection_evolves h

theorem stepHup_evolves (h : r.stepHup = .ok r') : Evolves W r r' := by
  rcases stepHup_cases h with rfl | ⟨-, hcampaign⟩
  · exact .refl r'
  · exact campaign_evolves hcampaign

/-- The vote moves only from none, or to the one it was given to already. -/
theorem stepVote_evolves (h : r.stepVote msg = .ok r') : Evolves W r r' := by
  cases stepVote_votes h with
  | learns learner same =>
      rw [same]
      exact .refl r
  | grants voter type answer free upToDate r₁ sent noted =>
      have hk := send_sends sent
      have he := hk.evolves (W := W)
      rw [noted]
      split
      · rename_i hty
        refine ⟨⟨hk.id, hk.term.ge, ?_, he.log⟩, he.option, Or.inr ⟨hk.readOnly, ?_⟩⟩
        · intro _ hv
          rcases free with hfrom | ⟨h0, -⟩ | ⟨hpre, -⟩
          · exact hfrom.symm
          · exact absurd h0 hv
          · rw [hty] at hpre
            cases hpre
        · intro hl
          exact ⟨hk.state.trans hl, hk.keys⟩
      · exact he
  | refuses type answer sent => exact (send_sends sent).evolves

end Roles

end RaftEtcd
