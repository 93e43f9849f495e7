import RaftEtcd.Refine.Moves

/-! What a node tells its peers: every message it sends is one that the abstract protocol allows
it to say, or one that does not exist there. -/
namespace RaftEtcd
open Consensus
variable {cfg : ClusterConfig} {N : Set (Msg Nat Entry)} {B : Prop} {r r' r'' : Raft}

theorem ClusterConfig.ne_zero_of_mem {n : Nat} (h : n ∈ cfg.members) : n ≠ 0 := by
  rintro rfl
  exact cfg.nonzero h

theorem Good.id_ne_zero (hg : Good cfg r) : r.id ≠ 0 := ClusterConfig.ne_zero_of_mem hg.member

/-- Every peer with a progress is a member. -/
theorem Good.mem_of_progress (hg : Good cfg r) {id : Nat} {p : Progress} (hp : r.getProgress id = some p) :
    id ∈ cfg.members := by
  rw [Raft.getProgress] at hp
  cases h : r.prs.lookup id with
  | some q =>
      have hk : id ∈ r.prs.keys := (AssocMap.lookup_isSome_iff _ _).mp (by rw [h]; rfl)
      exact List.mem_append_left _ (hg.keys.mem_iff.mp hk)
  | none =>
      simp only [h] at hp
      have hk : id ∈ r.learnerPrs.keys := (AssocMap.lookup_isSome_iff _ _).mp (by rw [hp]; rfl)
      exact List.mem_append_right _ (hg.learnerKeys id hk)

/-- A move that only tells peers something: role, term and log stay. -/
structure Tells (cfg : ClusterConfig) (N : Set (Msg Nat Entry)) (B : Prop) (r r' : Raft) : Prop
    extends Sim cfg N B r r' where
  state : r'.state = r.state
  term : r'.term = r.term
  raftLog : r'.raftLog = r.raftLog

namespace Tells

theorem refl (h : Good cfg r) : Tells cfg N B r r := ⟨.refl h, rfl, rfl, rfl⟩

theorem trans (h : Tells cfg N B r r') (h' : Tells cfg N B r' r'') : Tells cfg N B r r'' :=
  ⟨h.toSim.trans h'.toSim, h'.state.trans h.state, h'.term.trans h.term, h'.raftLog.trans h.raftLog⟩

/-- A loop whose rounds only tell. -/
theorem foldlM {α : Type} (hg : Good cfg r) (xs : List α) (f : Raft → α → Result Raft)
    (hf : ∀ r₁ r₂, ∀ x ∈ xs, Tells cfg N B r r₁ → f r₁ x = .ok r₂ → Tells cfg N B r₁ r₂)
    (h : xs.foldlM f r = .ok r') : Tells cfg N B r r' := by
  -- the loop state `r₁` has been told from `r`; the induction is over the rounds that are left
  suffices hloop : ∀ (ys : List α) (r₁ : Raft), (∀ y ∈ ys, y ∈ xs) → Tells cfg N B r r₁ →
      ys.foldlM f r₁ = .ok r' → Tells cfg N B r r' from hloop xs r (fun _ h => h) (.refl hg) h
  intro ys
  induction ys with
  | nil =>
      intro r₁ _ h₁ h
      rw [List.foldlM_nil] at h
      obtain rfl := Except.ok.inj h
      exact h₁
  | cons y ys ih =>
      intro r₁ hsub h₁ h
      rw [List.foldlM_cons] at h
      obtain ⟨r₂, h₂, h⟩ := bind_ok h
      have htell := hf r₁ r₂ y (hsub y (List.mem_cons_self ..)) h₁ h₂
      exact ih r₂ (fun y' hy => hsub y' (List.mem_cons_of_mem _ hy)) (h₁.trans htell) h

end Tells

/-- One message more. -/
theorem tells_of_say (hg : Good cfg r) {m : Message} (hm : MsgGood cfg m) (hsrc : m.from_ = r.id)
    (hs : B → Bounded r → absMsg m = ∅ ∨ CanSay Entry.term N r.id r.abs (absMsg m)) :
    Tells cfg N B r { r with msgs := r.msgs ++ [m] } := by
  have hout : ({ r with msgs := r.msgs ++ [m] } : Raft).abs = { r.abs with out := r.abs.out ∪ absMsg m } := by
    ext1 <;> try rfl
    exact (absMsgs_append _ _).trans (by rw [absMsgs_singleton]; rfl)
  refine ⟨⟨⟨hg.whole, hg.member, hg.keys, hg.learnerKeys, hg.voter, hg.term_pos, hg.leader_voter,
    hg.vote_zero, hg.next_pos, ?_, hg.pre⟩, rfl, rfl, ?_⟩, rfl, rfl, rfl⟩
  · intro m' hm'
    rcases List.mem_append.mp hm' with hm' | hm'
    · exact hg.msgs m' hm'
    · rw [List.mem_singleton.mp hm']
      exact ⟨hm, hsrc⟩
  · intro hB hb
    refine ⟨hb, ?_⟩
    rw [hout]
    rcases hs hB hb with h0 | hsay
    · rw [h0, Set.union_empty]
    · exact .single (.say _ _ hsay)

/-- The types whose term the sender sets itself. -/
def MessageType.isVote : MessageType → Bool
  | .msgVote | .msgVoteResp | .msgPreVote | .msgPreVoteResp => true
  | _ => false

theorem send_spec {m : Message} (h : r.send m = .ok r') :
    ∃ t, r' = { r with msgs := r.msgs ++ [{ m with from_ := r.id, term := t }] } ∧
      (m.type.isVote = true → t = m.term ∧ m.term ≠ 0) ∧
      (m.type.isVote = false → m.type ≠ .msgReadIndex → t = r.term) := by
  unfold Raft.send at h
  simp only at h
  split at h
  · rename_i hty
    have hvote : m.type.isVote = true := by
      rcases hty with hty | hty | hty | hty <;> rw [hty] <;> rfl
    split at h
    · cases h
    · rename_i h0
      exact ⟨m.term, (Except.ok.inj h).symm, fun _ => ⟨rfl, h0⟩, fun hf => absurd (hf.symm.trans hvote) (by decide)⟩
  · rename_i hty
    have hvote : m.type.isVote = false := by
      cases hm : m.type <;> simp_all [MessageType.isVote]
    split at h
    · cases h
    · split at h
      · exact ⟨r.term, (Except.ok.inj h).symm, fun ht => absurd (ht.symm.trans hvote) (by decide), fun _ _ => rfl⟩
      · rename_i hri
        exact ⟨m.term, (Except.ok.inj h).symm, fun ht => absurd (ht.symm.trans hvote) (by decide),
          fun _ hne => absurd hne hri⟩

/-- A message that the abstract protocol does not know. -/
theorem send_tells_quiet (hg : Good cfg r) {m : Message} (h : r.send m = .ok r') (hp : m.type.isPeer = false)
    (hsnap : m.type ≠ .msgSnap) : Tells cfg N B r r' := by
  obtain ⟨t, rfl, -, -⟩ := send_spec h
  have habs : absMsg { m with from_ := r.id, term := t } = ∅ := by
    cases hm : m.type <;> simp_all [absMsg, MessageType.isPeer]
  refine tells_of_say hg ⟨hg.member, ?_, hsnap, ?_, ?_⟩ rfl fun _ _ => Or.inl habs
  · intro hp'
    simp only [hp] at hp'
    cases hp'
  · intro ha
    simp only at ha
    rw [ha] at hp
    cases hp
  · intro hpre
    cases hm : m.type <;> simp_all [MessageType.isPre, MessageType.isPeer]

/-- A message to another member, of a type that carries no entries. -/
theorem send_tells (hg : Good cfg r) {m : Message} (h : r.send m = .ok r') (hp : m.type.isPeer = true)
    (happ : m.type ≠ .msgApp) (hto : m.to_ ∈ cfg.members) (hne : m.to_ ≠ r.id)
    (hterm : m.type.isVote = false → r.term ≠ 0) (hpre : m.type.isPre = true → cfg.UsesPreVote)
    (hs : ∀ t, (m.type.isVote = true → t = m.term) → (m.type.isVote = false → t = r.term) → B → Bounded r →
      absMsg { m with from_ := r.id, term := t } = ∅ ∨
        CanSay Entry.term N r.id r.abs (absMsg { m with from_ := r.id, term := t })) :
    Tells cfg N B r r' := by
  obtain ⟨t, rfl, hv, hnv⟩ := send_spec h
  have hri : m.type ≠ .msgReadIndex := by
    intro he
    rw [he] at hp
    cases hp
  have ht0 : t ≠ 0 := by
    cases hvt : m.type.isVote with
    | true =>
        rw [(hv hvt).1]
        exact (hv hvt).2
    | false =>
        rw [hnv hvt hri]
        exact hterm hvt
  refine tells_of_say hg ⟨hg.member, fun _ => ⟨ht0, hne, hto⟩, ?_, fun ha => absurd ha happ, hpre⟩ rfl ?_
  · intro he
    simp only at he
    rw [he] at hp
    cases hp
  · exact hs t (fun hvt => (hv hvt).1) (fun hvt => hnv hvt hri)

/-- A change of one progress that amounts to steps of the abstract protocol. -/
theorem modifyProgress_tells_of (hg : Good cfg r) (id : Nat) (f : Progress → Progress)
    (hf : r.state = .leader → ∀ p, r.getProgress id = some p → 1 ≤ (f p).next ∧ (f p).state ≠ .snapshot)
    (hb : B → Bounded r → r.state = .leader → ∀ p, r.getProgress id = some p →
      (f p).next ≤ r.raftLog.log.length + 1 ∧ (f p).matched ≤ r.raftLog.log.length)
    (hs : Relation.ReflTransGen (LocalStep cfg.voters.toFinset Entry.term N r.id) r.abs
      (r.modifyProgress id f).abs) : Tells cfg N B r (r.modifyProgress id f) := by
  obtain ⟨prs, lprs, heq⟩ := r.modifyProgress_eq id f
  have hget := r.getProgress_modifyProgress id
  have hkeys := r.modifyProgress_prs_keys id f
  have hlkeys := r.modifyProgress_learnerPrs_keys id f
  have hstate : (r.modifyProgress id f).state = r.state := by rw [heq]
  have hlog : (r.modifyProgress id f).raftLog = r.raftLog := by rw [heq]
  -- the progress that a leader finds afterwards is an old one or the changed one
  have hcases : ∀ {id' p}, (r.modifyProgress id f).getProgress id' = some p →
      r.getProgress id' = some p ∨ ∃ q, r.getProgress id = some q ∧ p = f q := by
    intro id' p hp
    rw [hget] at hp
    split at hp
    · obtain ⟨q, hq, rfl⟩ := Option.map_eq_some_iff.mp hp
      exact Or.inr ⟨q, hq, rfl⟩
    · exact Or.inl hp
  refine ⟨⟨⟨?_, ?_, ?_, ?_, ?_, ?_, ?_, ?_, ?_, ?_, ?_⟩, by rw [heq], by rw [heq], ?_⟩, hstate,
    by rw [heq], hlog⟩
  · rw [heq]; exact hg.whole
  · rw [heq]; exact hg.member
  · rw [hkeys]; exact hg.keys
  · rw [hlkeys]; exact hg.learnerKeys
  · rw [heq]; exact hg.voter
  · rw [heq]; exact hg.term_pos
  · rw [heq]; exact hg.leader_voter
  · rw [heq]; exact hg.vote_zero
  · intro hl id' p hp
    rw [hstate] at hl
    rcases hcases hp with hp | ⟨q, hq, rfl⟩
    · exact hg.next_pos hl id' p hp
    · exact hf hl q hq
  · rw [heq]; exact hg.msgs
  · rw [heq]; exact hg.pre
  · intro hB hbr
    refine ⟨?_, hs⟩
    intro hl id' p hp
    rw [hstate] at hl
    rw [hlog]
    rcases hcases hp with hp | ⟨q, hq, rfl⟩
    · exact hbr hl id' p hp
    · exact hb hB hbr hl q hq

/-- A change of one progress that keeps what the peer has acknowledged. -/
theorem modifyProgress_tells (hg : Good cfg r) (id : Nat) (f : Progress → Progress)
    (hf : r.state = .leader → ∀ p, r.getProgress id = some p →
      1 ≤ (f p).next ∧ (f p).state ≠ .snapshot ∧ (id ≠ r.id → (f p).matched = p.matched))
    (hb : B → Bounded r → r.state = .leader → ∀ p, r.getProgress id = some p →
      (f p).next ≤ r.raftLog.log.length + 1 ∧ (f p).matched ≤ r.raftLog.log.length) :
    Tells cfg N B r (r.modifyProgress id f) := by
  refine modifyProgress_tells_of hg id f (fun hl p hp => ⟨(hf hl p hp).1, (hf hl p hp).2.1⟩) hb ?_
  have habs : (r.modifyProgress id f).abs = r.abs := by
    obtain ⟨prs, lprs, heq⟩ := r.modifyProgress_eq id f
    have hstate : (r.modifyProgress id f).state = r.state := by rw [heq]
    have hidr : (r.modifyProgress id f).id = r.id := by rw [heq]
    ext1 <;> try (rw [heq]; rfl)
    funext m
    simp only [Raft.abs, hstate]
    rw [hidr]
    split
    · rename_i hl
      rw [r.getProgress_modifyProgress]
      split
      · rename_i hm
        subst m
        cases hq : r.getProgress id with
        | none => rfl
        | some q => simp [(hf hl.1 q hq).2.2 hl.2]
      · rfl
    · rfl
  rw [habs]

/-- The progress of a peer whose acknowledgement of `j` has arrived. -/
theorem ackProgress_tells (hg : Good cfg r) (hl : r.state = .leader) {id j : Nat} (hid : id ≠ r.id)
    (hack : .ack id r.term j ∈ N) {p p' : Progress} (hp : r.getProgress id = some p)
    (hm : p'.matched = max p.matched j) (hn : 1 ≤ p'.next) (hs : p'.state ≠ .snapshot)
    (hb : B → Bounded r → p'.next ≤ r.raftLog.log.length + 1 ∧ p'.matched ≤ r.raftLog.log.length) :
    Tells cfg N B r (r.modifyProgress id fun _ => p') := by
  refine modifyProgress_tells_of hg id _ (fun _ _ _ => ⟨hn, hs⟩) (fun hB hbr _ _ _ => hb hB hbr) (.single ?_)
  have habs : (r.modifyProgress id fun _ => p').abs =
      { r.abs with matched := Function.update r.abs.matched id (max (r.abs.matched id) j) } := by
    obtain ⟨prs, lprs, heq⟩ := r.modifyProgress_eq id fun _ => p'
    have hstate : (r.modifyProgress id fun _ => p').state = .leader := by rw [heq]; exact hl
    have hidr : (r.modifyProgress id fun _ => p').id = r.id := by rw [heq]
    ext1 <;> try (rw [heq]; rfl)
    funext m
    simp only [Raft.abs, hstate, hidr, hl, true_and, Function.update_apply, r.getProgress_modifyProgress]
    by_cases hmid : m = id
    · subst m
      simp [hid, hp, hm]
    · simp [hmid]
  rw [habs]
  exact .recvAck r.abs id j (Raft.abs_role_leader.mpr hl) hid hack

theorem sendTimeoutNow_tells (hg : Good cfg r) {id : Nat} (h : r.sendTimeoutNow id = .ok r') :
    Tells cfg N B r r' := send_tells_quiet hg h rfl (by simp)

/-- The bound on the commit index keeps a heartbeat below what the addressee acknowledged. -/
theorem sendHeartbeat_tells (hg : Good cfg r) (hl : r.state = .leader) {id : Nat} {ctx : Bytes} (hid : id ≠ r.id)
    (h : r.sendHeartbeat id ctx = .ok r') : Tells cfg N B r r' := by
  rw [Raft.sendHeartbeat] at h
  cases hp : r.getProgress id with
  | none =>
      rw [hp] at h
      cases h
  | some p =>
      rw [hp] at h
      refine send_tells hg h rfl (by simp) (hg.mem_of_progress hp) hid (fun _ => hg.term_pos (Or.inr hl)) nofun ?_
      intro t _ ht _ _
      right
      rw [ht rfl]
      refine .beat id (min p.matched r.raftLog.committed) (Raft.abs_role_leader.mpr hl) hid (min_le_right _ _) ?_
      simp only [Raft.abs, hl, hid, ne_eq, not_false_eq_true, and_self, if_true, hp, Option.map_some,
        Option.getD_some]
      exact min_le_left _ _

theorem bcastHeartbeatWithCtx_tells (hg : Good cfg r) (hl : r.state = .leader) {ctx : Bytes}
    (h : r.bcastHeartbeatWithCtx ctx = .ok r') : Tells cfg N B r r' := by
  refine Tells.foldlM hg _ _ ?_ h
  intro r₁ r₂ id hid h₁ h₂
  have hne : id ≠ r.id := by simpa using (List.mem_filter.mp hid).2
  exact sendHeartbeat_tells h₁.good (h₁.state.trans hl) (h₁.id ▸ hne) h₂

/-- What sending entries up to `last` leaves of the progress. -/
theorem progressAfterSend_spec {p p' : Progress} {last : Nat} (h : Raft.progressAfterSend p last = .ok p') :
    p'.matched = p.matched ∧ p'.state = p.state ∧ p.state ≠ .snapshot ∧
      (p'.next = p.next ∨ p'.next = last + 1) := by
  rw [Raft.progressAfterSend] at h
  split at h
  · rename_i hs
    obtain ⟨w, -, h⟩ := bind_ok h
    obtain rfl := Except.ok.inj h
    exact ⟨rfl, rfl, by rw [hs]; decide, Or.inr rfl⟩
  · rename_i hs
    obtain rfl := Except.ok.inj h
    exact ⟨rfl, rfl, by rw [hs]; decide, Or.inl rfl⟩
  · cases h

/-- The message that carries entries to a peer. -/
theorem sendEntries_tells (hg : Good cfg r) (hl : r.state = .leader) {id next : Nat} {es : List Entry}
    (hid : id ≠ r.id) (hmem : id ∈ cfg.members) (hn : 1 ≤ next) (hnb : Bounded r → next ≤ r.raftLog.log.length + 1)
    (hes : es <+: r.raftLog.log.drop (next - 1))
    (h : r.send { to_ := id, type := .msgApp, index := next - 1,
                  logTerm := termAt Entry.term r.raftLog.log (next - 1), entries := es,
                  commit := r.raftLog.committed } = .ok r') : Tells cfg N B r r' := by
  obtain ⟨t, rfl, -, ht⟩ := send_spec h
  obtain rfl := ht rfl (by simp)
  refine tells_of_say hg ⟨hg.member, fun _ => ⟨hg.term_pos (Or.inr hl), hid, hmem⟩, by simp, fun _ => ?_, nofun⟩ rfl ?_
  · have hidx := hg.whole.indexed.drop (next - 1)
    rw [Nat.add_comm 1] at hidx
    exact hidx.of_initial hes
  · intro _ hb
    right
    have hlen : next - 1 + es.length ≤ r.raftLog.log.length := by
      have h1 := hes.length_le
      have h2 := hnb hb
      rw [List.length_drop] at h1
      omega
    have hslice : (r.abs.log.drop (next - 1)).take es.length = es := (List.prefix_iff_eq_take.mp hes).symm
    have hsay : CanSay Entry.term N r.id r.abs
        {.app r.id r.term (next - 1) (termAt Entry.term r.abs.log (next - 1))
          ((r.abs.log.drop (next - 1)).take es.length) r.raftLog.committed, .ack r.id r.term (next - 1 + es.length)} :=
      .app (next - 1) es.length (Raft.abs_role_leader.mpr hl) hlen
    rw [hslice] at hsay
    exact hsay

theorem maybeSendAppend_tells (hg : Good cfg r) (hl : r.state = .leader) {id : Nat} {e b : Bool} (hid : id ≠ r.id)
    (h : r.maybeSendAppend id e = .ok (r', b)) : Tells cfg N B r r' := by
  rw [Raft.maybeSendAppend] at h
  cases hp : r.getProgress id with
  | none =>
      rw [hp] at h
      cases h
  | some p =>
      obtain ⟨hnext, hsnap⟩ := hg.next_pos hl id p hp
      obtain ⟨es, hes, hpre⟩ := hg.whole.entries_spec r.maxMsgSize hnext
      simp only [hp, hg.whole.term_eq, hes] at h
      split at h
      · rw [← (Prod.mk.inj (Except.ok.inj h)).1]
        exact .refl hg
      obtain ⟨⟨st, es'⟩, hst, h⟩ := bind_ok h
      obtain ⟨rfl, rfl⟩ := Prod.mk.inj (Except.ok.inj hst)
      simp only at h
      split at h
      · rw [← (Prod.mk.inj (Except.ok.inj h)).1]
        exact .refl hg
      obtain ⟨p', hp', h⟩ : ∃ p', es.getLast?.elim (.ok p) (fun e => Raft.progressAfterSend p e.index) = .ok p' ∧
          (r.modifyProgress id fun _ => p').send
            { to_ := id, type := .msgApp, index := p.next - 1,
              logTerm := termAt Entry.term r.raftLog.log (p.next - 1), entries := es,
              commit := r.raftLog.committed } = .ok r' := by
        cases hlast : es.getLast? with
        | none =>
            simp only [hlast, Status.isOk] at h
            obtain ⟨p', hp', h⟩ := bind_ok h
            obtain ⟨r₁, h₁, h⟩ := bind_ok h
            rw [← (Prod.mk.inj (Except.ok.inj h)).1]
            exact ⟨p', hp', h₁⟩
        | some x =>
            simp only [hlast, Status.isOk] at h
            obtain ⟨p', hp', h⟩ := bind_ok h
            obtain ⟨r₁, h₁, h⟩ := bind_ok h
            rw [← (Prod.mk.inj (Except.ok.inj h)).1]
            exact ⟨p', hp', h₁⟩
      -- the entries end at an index of the log, so the next one to send is still inside it
      have hidx : IndexedFrom p.next es := by
        have hdrop := hg.whole.indexed.drop (p.next - 1)
        rw [show 1 + (p.next - 1) = p.next by omega] at hdrop
        exact hdrop.of_initial hpre
      have hspec : p'.matched = p.matched ∧ p'.state ≠ .snapshot ∧ p.next ≤ p'.next ∧
          (p.next ≤ r.raftLog.log.length + 1 → p'.next ≤ r.raftLog.log.length + 1) := by
        cases hlast : es.getLast? with
        | none =>
            rw [hlast] at hp'
            obtain rfl := Except.ok.inj hp'
            exact ⟨rfl, hsnap, le_rfl, fun h => h⟩
        | some x =>
            rw [hlast] at hp'
            obtain ⟨hm, hs, hns, hn⟩ := progressAfterSend_spec hp'
            have hpos : es ≠ [] := by
              rintro rfl
              cases hlast
            have hx : x.index = p.next + (es.length - 1) := by
              apply hidx
              rw [← hlast, List.getLast?_eq_getElem?]
            have h1 := hpre.length_le
            have h2 := List.length_pos_iff.mpr hpos
            rw [List.length_drop] at h1
            refine ⟨hm, hs ▸ hns, ?_, ?_⟩
            · rcases hn with hn | hn <;> omega
            · rcases hn with hn | hn <;> omega
      have hmod : Tells cfg N B r (r.modifyProgress id fun _ => p') := by
        refine modifyProgress_tells hg id _ ?_ ?_
        · intro _ q hq
          rw [hp] at hq
          obtain rfl := Option.some.inj hq
          exact ⟨hnext.trans hspec.2.2.1, hspec.2.1, fun _ => hspec.1⟩
        · intro _ hb _ q hq
          exact ⟨hspec.2.2.2 (hb hl id p hp).1, hspec.1 ▸ (hb hl id p hp).2⟩
      have hbound : Bounded (r.modifyProgress id fun _ => p') →
          p.next ≤ (r.modifyProgress id fun _ => p').raftLog.log.length + 1 := by
        intro hb
        refine hspec.2.2.1.trans (hb (hmod.state.trans hl) id p' ?_).1
        rw [Raft.getProgress_modifyProgress, if_pos rfl, hp]
        rfl
      rw [← hmod.raftLog] at h hpre
      exact hmod.trans (sendEntries_tells hmod.good (hmod.state.trans hl) (hmod.id ▸ hid) (hg.mem_of_progress hp)
        hnext hbound hpre h)

theorem sendAppend_tells (hg : Good cfg r) (hl : r.state = .leader) {id : Nat} (hid : id ≠ r.id)
    (h : r.sendAppend id = .ok r') : Tells cfg N B r r' := by
  obtain ⟨⟨r₁, b⟩, h₁, h⟩ := bind_ok h
  obtain rfl := Except.ok.inj h
  exact maybeSendAppend_tells hg hl hid h₁

theorem bcastAppend_tells (hg : Good cfg r) (hl : r.state = .leader) (h : r.bcastAppend = .ok r') :
    Tells cfg N B r r' := by
  refine Tells.foldlM hg _ _ ?_ h
  intro r₁ r₂ id hid h₁ h₂
  have hne : id ≠ r.id := by simpa using (List.mem_filter.mp hid).2
  exact sendAppend_tells h₁.good (h₁.state.trans hl) (h₁.id ▸ hne) h₂

theorem sendAppendLoop_tells {id : Nat} (fuel : Nat) (hg : Good cfg r) (hl : r.state = .leader) (hid : id ≠ r.id)
    (h : Raft.sendAppendLoop id fuel r = .ok r') : Tells cfg N B r r' := by
  induction fuel generalizing r with
  | zero => cases h
  | succ fuel ih =>
      rw [Raft.sendAppendLoop] at h
      obtain ⟨⟨r₁, b⟩, h₁, h⟩ := bind_ok h
      have htell : Tells cfg N B r r₁ := maybeSendAppend_tells hg hl hid h₁
      simp only at h
      split at h
      · exact htell.trans (ih htell.good (htell.state.trans hl) (htell.id ▸ hid) h)
      · obtain rfl := Except.ok.inj h
        exact htell

/-- The requests of a campaign: for votes they are said by a candidate, for pre-votes they are no
messages of the abstract protocol. -/
theorem sendVoteRequests_tells (hg : Good cfg r) {voteMsg : MessageType} {term : Nat}
    (hv : (voteMsg = .msgVote ∧ r.state = .candidate ∧ term = r.term) ∨ (voteMsg = .msgPreVote ∧ cfg.UsesPreVote))
    (h : r.sendVoteRequests voteMsg term = .ok r') : Tells cfg N B r r' := by
  refine Tells.foldlM hg _ _ ?_ h
  intro r₁ r₂ id hid h₁ h₂
  obtain ⟨hkey, hne⟩ := List.mem_filter.mp hid
  have hne : id ≠ r.id := by simpa using hne
  have hmem : id ∈ cfg.members := List.mem_append_left _ (hg.keys.mem_iff.mp hkey)
  obtain ⟨lt, hlt, h₂⟩ := bind_ok h₂
  rw [h₁.good.whole.lastTerm_eq] at hlt
  obtain rfl := Except.ok.inj hlt
  rw [h₁.good.whole.lastIndex_eq] at h₂
  rcases hv with ⟨rfl, hc, rfl⟩ | ⟨rfl, hpre⟩
  · refine send_tells h₁.good h₂ rfl (by simp) hmem (h₁.id ▸ hne) nofun nofun ?_
    intro t ht _ _ _
    right
    rw [ht rfl, ← h₁.term]
    exact .vote (Raft.abs_role_candidate.mpr (h₁.state.trans hc))
  · refine send_tells h₁.good h₂ rfl (by simp) hmem (h₁.id ▸ hne) nofun (fun _ => hpre) ?_
    intro t _ _ _ _
    exact Or.inl rfl

end RaftEtcd
