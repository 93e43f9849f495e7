import RaftEtcd.Healthy

/-! A request for a preliminary vote. It takes the same way through `step` as a request for a vote, in every
branch of it, and leaves nothing but an answer. -/
namespace RaftEtcd
variable {r r' : Raft} {msg : Message}

/-- A log that ends at `(index, logTerm)` is at least as up to date as this one. -/
def RaftLog.Behind (l : RaftLog) (index logTerm : Nat) : Prop :=
  ∃ t, l.lastTerm = .ok t ∧ (t < logTerm ∨ t = logTerm ∧ l.lastIndex ≤ index)

theorem isUpToDate_behind {l : RaftLog} {index logTerm : Nat} (h : l.isUpToDate index logTerm = .ok true) :
    l.Behind index logTerm := by
  obtain ⟨t, ht, h⟩ := bind_ok h
  refine ⟨t, ht, ?_⟩
  have hcond := Except.ok.inj h
  simp only [Bool.or_eq_true, Bool.and_eq_true, decide_eq_true_eq, beq_iff_eq] at hcond
  exact hcond.imp_right fun ⟨hsame, hle⟩ => ⟨hsame.symm, hle⟩

section Answers

/-- At most one message has been added, and it grants only a candidate whose log is good enough. -/
inductive AnswersPreVote (msg : Message) (r r' : Raft) : Prop
  | silent (same : r' = r)
  | answers (m : Message) (type : m.type = .msgPreVoteResp) (posted : r' = { r with msgs := r.msgs ++ [m] })
      (granted : m.reject = false → r.raftLog.Behind msg.index msg.logTerm)

/-- An answer leaves as it is. -/
theorem send_preVoteResp {m : Message} (hty : m.type = .msgPreVoteResp) (h : r.send m = .ok r') :
    r' = { r with msgs := r.msgs ++ [{ m with from_ := r.id }] } := by
  unfold Raft.send at h
  simp only at h
  rw [if_pos (Or.inr (Or.inr (Or.inr hty)))] at h
  split at h
  · cases h
  · exact (Except.ok.inj h).symm

theorem stepVote_preVote (hty : msg.type = .msgPreVote) (h : r.stepVote msg = .ok r') : AnswersPreVote msg r r' := by
  have hresp : ∀ {type : MessageType}, voteRespMsgType msg.type = .ok type → type = .msgPreVoteResp := by
    intro type htype
    rw [hty] at htype
    exact (Except.ok.inj htype).symm
  cases stepVote_votes h with
  | learns learner same => exact .silent same
  | grants voter type answer free upToDate r₁ sent noted =>
      obtain rfl := hresp answer
      rw [hty, if_neg (by decide)] at noted
      rw [noted]
      exact .answers _ rfl (send_preVoteResp rfl sent) fun _ => isUpToDate_behind upToDate
  | refuses type answer sent =>
      obtain rfl := hresp answer
      exact .answers _ rfl (send_preVoteResp rfl sent) nofun

theorem step_preVote (hty : msg.type = .msgPreVote) {st : Status} (h : r.step msg = .ok (r', st)) :
    AnswersPreVote msg r r' := by
  have hbody : ∀ {g : Raft}, g.stepBody msg = .ok (r', st) → AnswersPreVote msg g r' := by
    intro g hg
    unfold Raft.stepBody at hg
    simp only [hty] at hg
    exact stepVote_preVote hty (withOk_ok hg)
  have hnot : ¬ (msg.type = .msgHeartbeat ∨ msg.type = .msgApp) := by simp [hty]
  unfold Raft.step at h
  split at h
  · exact hbody h
  split at h
  · split at h
    · exact .silent (Prod.mk.inj (Except.ok.inj h)).1.symm
    · -- the term of the request is not taken over
      rw [Raft.higherTerm] at h
      simp only [hty] at h
      exact hbody h
  split at h
  · have hlower := withOk_ok h
    unfold Raft.lowerTerm at hlower
    rw [if_neg fun hleader => hnot hleader.2, if_pos hty] at hlower
    exact .answers _ rfl (send_preVoteResp rfl hlower) nofun
  · exact hbody h

/-- A request is dealt with if the log has a last term, and the node has one when it is to refuse. -/
theorem step_preVote_ok (hty : msg.type = .msgPreVote) (hterm : msg.term ≠ 0)
    {t : Nat} (ht : r.raftLog.lastTerm = .ok t) (hset : r.term ≠ 0 ∨ t = 0 ∧ r.raftLog.lastIndex = 0) :
    ∃ r' st, r.step msg = .ok (r', st) := by
  have hsend : ∀ {g : Raft} {m : Message}, m.type = .msgPreVoteResp → m.term ≠ 0 → ∃ g', g.send m = .ok g' := by
    intro g m hm hm'
    unfold Raft.send
    simp only [hm, hm', or_true, if_true, if_false]
    exact ⟨_, rfl⟩
  have hvote : (r.term ≠ 0 ∨ msg.term > r.term) → ∃ r', r.stepVote msg = .ok r' := by
    intro hreach
    unfold Raft.stepVote RaftLog.isUpToDate
    split
    · exact ⟨r, rfl⟩
    simp only [ht, hty, voteRespMsgType, bind, Except.bind]
    split
    · obtain ⟨g, hg⟩ := hsend (g := r) (m := { to_ := msg.from_, term := msg.term, type := .msgPreVoteResp }) rfl hterm
      rw [hg]
      exact ⟨_, rfl⟩
    · rename_i hno
      refine hsend rfl fun hzero => hno ⟨Or.inr (Or.inr ⟨trivial, ?_⟩), ?_⟩
      · exact hreach.resolve_left fun hne => hne hzero
      · -- without a term the log is empty, and no candidate's is behind it
        obtain ⟨rfl, hlast⟩ := hset.resolve_left fun hne => hne hzero
        rw [hlast]
        rcases Nat.eq_zero_or_pos msg.logTerm with heq | hpos
        · simp [heq]
        · simp [hpos]
  have hbody : (r.term ≠ 0 ∨ msg.term > r.term) → ∃ r' st, r.stepBody msg = .ok (r', st) := by
    intro hreach
    obtain ⟨r', hr'⟩ := hvote hreach
    unfold Raft.stepBody
    simp only [hty, hr']
    exact ⟨r', .ok, rfl⟩
  have hnot : ¬ (msg.type = .msgHeartbeat ∨ msg.type = .msgApp) := by simp [hty]
  unfold Raft.step
  rw [if_neg hterm]
  split
  · rename_i hlater
    split
    · exact ⟨r, .ok, rfl⟩
    · rw [Raft.higherTerm]
      simp only [hty]
      exact hbody (Or.inr hlater)
  split
  · rename_i hearlier
    unfold Raft.lowerTerm
    rw [if_neg fun hleader => hnot hleader.2, if_pos hty]
    obtain ⟨g, hg⟩ := hsend (g := r) (m := { to_ := msg.from_, type := .msgPreVoteResp, reject := true, term := r.term }) rfl
      (by simp only; omega)
    rw [hg]
    exact ⟨g, .ok, rfl⟩
  · exact hbody (Or.inl (by omega))

end Answers

/-! ### Without a term -/

section Untouched

theorem campaign_untouched {ty : CampaignType} (hr : r.Dormant) (h : r.campaign ty = .ok r') (hzero : r'.term = 0) :
    r'.raftLog = r.raftLog := by
  rw [campaign_eq hr.not_leader] at h
  split at h
  · split at h
    · have hterm := campaignElection_term (r := r.asking) nofun h
      omega
    · exact (sendVoteRequests_sends h).raftLog
  · have hterm := campaignElection_term hr.not_leader h
    omega

theorem stepFollower_untouched {st : Status} (hr : r.Dormant) (hkind : msg.type.isFromLeader = false)
    (h : r.stepFollower msg = .ok (r', st)) (hzero : r'.term = 0) : r'.raftLog = r.raftLog := by
  cases stepFollower_step h with
  | keeps unread same => rw [same]
  | forwards type sent => exact (send_sends sent).raftLog
  | appends type handled => exact absurd type (ne_of_fromLeader hkind rfl)
  | beats type handled => exact absurd type (ne_of_fromLeader hkind rfl)
  | restores type handled => exact absurd type (ne_of_fromLeader hkind rfl)
  | stands type promotable campaign => exact campaign_untouched hr campaign hzero
  | reads type e one noted => rw [noted]

theorem stepCandidate_untouched {st : Status} (hr : r.Dormant) (hkind : msg.type.isFromLeader = false)
    (h : r.stepCandidate msg = .ok (r', st)) (hzero : r'.term = 0) : r'.raftLog = r.raftLog := by
  cases stepCandidate_step h with
  | keeps same => rw [same]
  | appends type handled => exact absurd type (ne_of_fromLeader hkind rfl)
  | beats type handled => exact absurd type (ne_of_fromLeader hkind rfl)
  | restores type handled => exact absurd type (ne_of_fromLeader hkind rfl)
  | counts type c polled votes frame tally =>
      have hcount : c.Dormant := by
        rw [frame]
        exact hr.congr rfl rfl ⟨rfl, rfl⟩
      have hlog : c.raftLog = r.raftLog := by rw [frame]
      rw [← hlog]
      cases tally with
      | stands quorum role campaign => exact campaign_untouched hcount campaign hzero
      | wins quorum role l lead cast =>
          rcases hcount.role with hrole | hrole
          · cases role.symm.trans hrole
          · cases role.symm.trans hrole
      | loses follows =>
          rw [follows]
          exact Raft.reset_raftLog _ _
      | waits same => rw [same]

theorem stepBody_untouched {st : Status} (hr : r.Dormant) (hkind : msg.type.isFromLeader = false)
    (h : r.stepBody msg = .ok (r', st)) (hzero : r'.term = 0) : r'.raftLog = r.raftLog := by
  unfold Raft.stepBody at h
  split at h
  · rcases stepHup_cases (withOk_ok h) with rfl | ⟨-, hcampaign⟩
    · rfl
    · exact campaign_untouched hr hcampaign hzero
  · exact stepVote_log (withOk_ok h)
  · exact stepVote_log (withOk_ok h)
  · split at h
    · exact stepFollower_untouched hr hkind h hzero
    · exact stepCandidate_untouched hr hkind h hzero
    · exact stepCandidate_untouched hr hkind h hzero
    · rename_i hl
      exact absurd hl hr.not_leader

/-- A step that leaves a node without a term leaves its log alone. -/
theorem step_untouched {st : Status} (hr : r.Termless) (hterm : msg.type.isFromLeader = true → msg.term ≠ 0)
    (h : r.step msg = .ok (r', st)) (hzero : r'.term = 0) : r'.raftLog = r.raftLog := by
  have hle := (step_handles hterm h).term
  have hdormant := hr (by omega)
  rcases step_without_term hterm h hzero with same | ⟨hkind, body⟩
  · rw [same]
  · exact stepBody_untouched hdormant hkind body hzero

theorem call_untouched {n n' : RawNode} {a : NodeAction} (ha : a.IsCall) (hr : n.raft.Termless) (h : n.run a = .ok n')
    (hzero : n'.raft.term = 0) :
    n.raft.term = 0 ∧ n'.raft.raftLog.unstable = n.raft.raftLog.unstable := by
  cases call_called ha h with
  | refuses same =>
      rw [same] at hzero ⊢
      exact ⟨hzero, rfl⟩
  | steps msg message led numbered r' st step node =>
      rw [node] at hzero ⊢
      have hle := (step_handles led step).term
      exact ⟨Nat.le_zero.mp (hle.trans_eq hzero), congrArg RaftLog.unstable (step_untouched hr led step hzero)⟩
  | ticks r' tick node =>
      rw [node] at hzero ⊢
      have hle := (tick_evolves (W := True) tick).toAdvances.term
      have hbefore := Nat.le_zero.mp (hle.trans_eq hzero)
      have hdormant := hr hbefore
      refine ⟨hbefore, ?_⟩
      cases tick_ticks tick with
      | waits timed => exact congrArg RaftLog.unstable timed.raftLog
      | stands r₁ timed role promotable st step =>
          have hdormant₁ : r₁.Termless := by
            obtain ⟨_, _, _, rfl⟩ := timed
            exact fun _ => hdormant.congr rfl rfl ⟨rfl, rfl⟩
          rw [← timed.raftLog]
          exact congrArg RaftLog.unstable (step_untouched hdormant₁ (by rintro ⟨⟩) step hzero)
      | beats r₁ r₂ r₃ role timed check timed' beat => exact absurd role hdormant.not_leader
  | configures cc cs apply =>
      have hle := (applyConfChange_advances (W := True) apply).term
      exact ⟨Nat.le_zero.mp (hle.trans_eq hzero), applyConfChange_unstable apply⟩

end Untouched

/-- Nothing is or ever was in the log. -/
structure RaftLog.Blank (l : RaftLog) : Prop where
  entries : l.unstable.entries = []
  snapshot : l.unstable.snapshot = none
  stored : l.storage.ents = []
  dummy : l.storage.dummy.index = 0 ∧ l.storage.dummy.term = 0

/-- Nor does the `Ready` that is out hold anything for it. -/
structure Driver.Bare (s : Driver) : Prop where
  log : s.log.Blank
  out : ∀ rd stored, s.outstanding = some (rd, stored) → rd.entries = [] ∧ rd.snapshot.isEmpty = true

section Bare
variable {s s' : Driver}

theorem RaftLog.Blank.lastIndex {l : RaftLog} (h : l.Blank) : l.lastIndex = 0 := by
  obtain ⟨hentries, hsnapshot, hstored, hindex, -⟩ := h
  simp [RaftLog.lastIndex, Unstable.maybeLastIndex, MemoryStorage.lastIndex, hentries, hsnapshot, hstored, hindex]

theorem RaftLog.Blank.lastTerm {l : RaftLog} (h : l.Blank) : l.lastTerm = .ok 0 := by
  have hlast := h.lastIndex
  obtain ⟨hentries, hsnapshot, hstored, hindex, hterm⟩ := h
  have hunstable : l.unstable.maybeTerm 0 = none := by
    simp [Unstable.maybeTerm, Unstable.maybeLastIndex, hentries, hsnapshot]
  have hzero : l.term 0 = .ok 0 := by
    simp [RaftLog.term, hunstable, MemoryStorage.term, MemoryStorage.all, RaftLog.firstIndex, Unstable.maybeFirstIndex,
      MemoryStorage.firstIndex, hsnapshot, hindex, hterm]
  rw [RaftLog.lastTerm, hlast, hzero]

theorem MemoryStorage.Tidied.blank {bound : Nat} {st st' : MemoryStorage} (h : st.Tidied bound st') (hents : st.ents = []) :
    st'.ents = [] ∧ st'.dummy = st.dummy := by
  induction h with
  | refl => exact ⟨hents, rfl⟩
  | @compact st₁ st' i status _ _ hcompact ih =>
      have hnum : IndexedFrom (st₁.dummy.index + 1) st₁.ents := by
        rw [ih.1]
        exact .nil _
      rcases RaftLog.compact_cases hnum hcompact with ⟨-, rfl⟩ | ⟨e, -, he, -⟩
      · exact ih
      · rw [ih.1] at he
        cases he
  | createSnapshot _ _ hcreate ih =>
      obtain ⟨hdummy, hkept⟩ := MemoryStorage.createSnapshot_keeps hcreate
      exact ⟨hkept.trans ih.1, hdummy.trans ih.2⟩

theorem Driver.Bare.ready {rd : Ready} {n : RawNode} (h : s.Bare) (hrd : s.node.ready = .ok (rd, n)) :
    Driver.Bare { node := n, outstanding := some (rd, false), handed := s.handed ++ [(s.log, rd)] } := by
  obtain ⟨-, hents, hsnap, hlog⟩ := ready_spec hrd
  refine ⟨by rw [Driver.log, hlog]; exact h.log, fun rd' stored hout => ?_⟩
  obtain ⟨rfl, -⟩ := Prod.mk.inj (Option.some.inj hout)
  rw [hents, hsnap]
  have hnone : s.node.raft.raftLog.unstable.snapshot = none := h.log.snapshot
  exact ⟨h.log.entries, by rw [hnone]; rfl⟩

theorem Driver.Bare.persist {rd : Ready} {st : MemoryStorage} (h : s.Bare) (hout : s.outstanding = some (rd, false))
    (hst : RaftEtcd.persist s.log.storage rd = .ok st) :
    Driver.Bare { s.setStorage st with outstanding := some (rd, true) } := by
  obtain ⟨hnil, hempty⟩ := h.out rd false hout
  obtain ⟨st₁, -, hdummy, hents, happend⟩ := persist_appends hst
  have hsame : s.log.storage.withSnapshot rd.snapshot = s.log.storage := by
    rw [MemoryStorage.withSnapshot, if_pos hempty]
  rw [hsame] at hdummy hents
  rw [hnil] at happend
  obtain rfl := Except.ok.inj happend
  refine ⟨⟨h.log.entries, h.log.snapshot, hents.trans h.log.stored, ?_⟩, fun rd' stored hout' => ?_⟩
  · change st₁.dummy.index = 0 ∧ st₁.dummy.term = 0
    rw [hdummy]
    exact h.log.dummy
  · obtain ⟨rfl, -⟩ := Prod.mk.inj (Option.some.inj hout')
    exact ⟨hnil, hempty⟩

theorem Driver.Bare.tidy {bound : Nat} {st : MemoryStorage} (h : s.Bare) (hst : s.log.storage.Tidied bound st) :
    (s.setStorage st).Bare := by
  obtain ⟨hents, hdummy⟩ := hst.blank h.log.stored
  refine ⟨⟨h.log.entries, h.log.snapshot, hents, ?_⟩, h.out⟩
  change st.dummy.index = 0 ∧ st.dummy.term = 0
  rw [hdummy]
  exact h.log.dummy

theorem Driver.Bare.advance {rd : Ready} (h : s.Bare) (hout : s.outstanding = some (rd, true)) :
    Driver.Bare { s with node := s.node.advance rd, outstanding := none } := by
  have hnone : ∀ snap, s.log.unstable.snapshot = some snap → snap.metadata.index ≠ 0 := by
    rw [h.log.snapshot]
    nofun
  obtain ⟨hnil, -⟩ := h.out rd true hout
  obtain ⟨hstorage, -, -, hsnap⟩ := advanceLog_leaves rd hnone
  have hunstable := advanceLog_unstable rd hnone
  rw [hnil, List.getLast?_nil, Option.elim_none] at hunstable
  refine ⟨⟨?_, ?_, ?_, ?_⟩, nofun⟩
  · change (RawNode.advanceLog s.log rd).unstable.entries = []
    rw [hunstable, (stableSnapTo_parts _ _).2]
    exact h.log.entries
  · change (RawNode.advanceLog s.log rd).unstable.snapshot = none
    cases hsome : (RawNode.advanceLog s.log rd).unstable.snapshot with
    | none => rfl
    | some snap =>
        have hold := (hsnap snap hsome).1
        rw [h.log.snapshot] at hold
        cases hold
  · change (RawNode.advanceLog s.log rd).storage.ents = []
    rw [hstorage]
    exact h.log.stored
  · change (RawNode.advanceLog s.log rd).storage.dummy.index = 0 ∧ (RawNode.advanceLog s.log rd).storage.dummy.term = 0
    rw [hstorage]
    exact h.log.dummy

/-- What a node without a term has in its log. -/
theorem Driver.Move.bare (hterm : s.node.raft.Termless) (h : s.node.raft.term = 0 → s.Bare) (hs : Driver.Move s s')
    (hzero : s'.node.raft.term = 0) : s'.Bare := by
  cases hs with
  | @call a n ha hrun =>
      have hgrow := call_grows ha hrun
      obtain ⟨hbefore, hunstable⟩ := call_untouched ha hterm hrun hzero
      have hbare := h hbefore
      have hstorage : n.raft.raftLog.storage = s.log.storage := hgrow.storage
      refine ⟨⟨?_, ?_, ?_, ?_⟩, hbare.out⟩
      · exact (congrArg Unstable.entries hunstable).trans hbare.log.entries
      · exact (congrArg Unstable.snapshot hunstable).trans hbare.log.snapshot
      · exact (congrArg MemoryStorage.ents hstorage).trans hbare.log.stored
      · change n.raft.raftLog.storage.dummy.index = 0 ∧ n.raft.raftLog.storage.dummy.term = 0
        rw [hstorage]
        exact hbare.log.dummy
  | ready hout hrd => exact (h ((ready_keeps hrd).term.symm.trans hzero)).ready hrd
  | persist hout hst => exact (h hzero).persist hout hst
  | tidy hst => exact (h hzero).tidy hst
  | @advance rd st hout hmay hst => exact ((h hzero).tidy hst).advance hout

theorem new_term {c : Config} (h : Raft.new c = .ok r) : r.term = c.storage.hardState.term := by
  obtain ⟨⟨peers, learners⟩, -, h⟩ := bind_ok h
  obtain ⟨r₁, h₁, h⟩ := bind_ok h
  obtain ⟨r₂, h₂, h⟩ := bind_ok h
  obtain ⟨lprs, lr, hr₁, -⟩ := addLearners_spec _ h₁
  have hr₂ : r₂.term = c.storage.hardState.term := by
    split at h₂
    · unfold Raft.loadState at h₂
      split at h₂
      · cases h₂
      · rw [← Except.ok.inj h₂]
    · rename_i hempty
      have hzero : c.storage.hardState = {} := HardState.eq_of_isEmptyState (by simpa using hempty)
      rw [hzero, ← Except.ok.inj h₂, hr₁]
  rw [← Except.ok.inj h]
  refine (Raft.reset_term _ _).trans ?_
  split
  · exact hr₂
  · exact hr₂

/-- A storage that has seen no term holds no log. -/
def MemoryStorage.Termed (st : MemoryStorage) : Prop :=
  st.hardState.term = 0 → st.ents = [] ∧ st.dummy.index = 0 ∧ st.dummy.term = 0

theorem started_blank {c : Config} {n : RawNode} (hc : c.storage.Termed)
    (hn : RawNode.restartNode c = .ok n ∨ ∃ serialize peers, RawNode.startNode serialize c peers = .ok n) :
    n.raft.term = 0 → n.raft.raftLog.Blank := by
  refine started_holds (P := fun r => r.term = 0 → r.raftLog.Blank) hn (fun r hr hzero => ?_)
    (fun r es log hr _ _ _ hzero => ?_) fun r r' id hr hadd hzero => ?_
  · obtain ⟨hstorage, hunstable, -⟩ := new_log hr
    obtain ⟨hents, hdummy⟩ := hc ((new_term hr).symm.trans hzero)
    exact ⟨by rw [hunstable], by rw [hunstable], by rw [hstorage, hents], by rw [hstorage]; exact hdummy⟩
  · rw [show ({ r.becomeFollower 1 0 with raftLog := { log with committed := es.length } } : Raft).term = 1 from
      Raft.reset_term r 1] at hzero
    cases hzero
  · obtain ⟨prs, lprs, l, rfl⟩ := addNodeOrLearner_frame hadd
    exact hr hzero

/-- In every run the log has a last term, and a node without a term has an empty log. -/
theorem Driver.Moves.lastTerm {c : Config} {n : RawNode} (hc : c.Sound) (hterm : c.storage.Termed)
    (hn : RawNode.restartNode c = .ok n ∨ ∃ serialize peers, RawNode.startNode serialize c peers = .ok n)
    (h : Driver.Moves { node := n } s) :
    ∃ t, s.log.lastTerm = .ok t ∧ (s.node.raft.term ≠ 0 ∨ t = 0 ∧ s.log.lastIndex = 0) := by
  have hinv : (∃ d, s.Grounded d) ∧ (s.node.raft.term = 0 → s.Bare) := by
    induction h with
    | refl => exact ⟨Driver.started_grounded hc hn, fun hzero => ⟨started_blank hterm hn hzero, nofun⟩⟩
    | tail _ hmove ih =>
        obtain ⟨⟨d, hgrounded⟩, hbare⟩ := ih
        exact ⟨hgrounded.move hmove, hmove.bare hgrounded.termless hbare⟩
  obtain ⟨⟨d, hgrounded⟩, hbare⟩ := hinv
  by_cases hzero : s.node.raft.term = 0
  · have hblank := (hbare hzero).log
    exact ⟨0, hblank.lastTerm, Or.inr ⟨rfl, hblank.lastIndex⟩⟩
  · obtain ⟨t, ht⟩ := hgrounded.anchored.tail.term_ok s.log.lastIndex
    exact ⟨t, by rw [RaftLog.lastTerm, ht], Or.inl hzero⟩

/-- A request for a preliminary vote adds one message to the outbox at most, and leaves everything else as
it is, whatever the node is; if the message grants, the log of the candidate is at least as up to date as
that of the node. In every run of a node from a storage that holds a log only with a term, the request is
dealt with. -/
theorem preVote_changes_outbox_only (hty : msg.type = .msgPreVote) (hterm : msg.term ≠ 0) :
    (∀ (r r' : Raft) (st : Status), r.step msg = .ok (r', st) → r' = r ∨
      ∃ m : Message, m.type = .msgPreVoteResp ∧ r' = { r with msgs := r.msgs ++ [m] } ∧
        (m.reject = false → r.raftLog.Behind msg.index msg.logTerm)) ∧
    ∀ (c : Config) (n : RawNode) (s : Driver), c.Sound → c.storage.Termed →
      (RawNode.restartNode c = .ok n ∨ ∃ serialize peers, RawNode.startNode serialize c peers = .ok n) →
      Driver.Moves { node := n } s → ∃ r' st, s.node.raft.step msg = .ok (r', st) := by
  refine ⟨fun r r' st h => ?_, fun c n s hc hstored hn h => ?_⟩
  · cases step_preVote hty h with
    | silent same => exact Or.inl same
    | answers m type posted granted => exact Or.inr ⟨m, type, posted, granted⟩
  · obtain ⟨t, ht, hset⟩ := h.lastTerm hc hstored hn
    exact step_preVote_ok hty hterm ht hset

/-- A voter of three with an empty log grants the request of another one, and keeps its term. -/
theorem preVote_changes_outbox_only_granted : ∃ (n : RawNode) (r' : Raft) (st : Status) (m : Message),
    firstVoter = .ok n ∧ n.raft.step { type := .msgPreVote, from_ := 2, to_ := 1, term := 1 } = .ok (r', st) ∧
      r' = { n.raft with msgs := n.raft.msgs ++ [m] } ∧ m.reject = false ∧ n.raft.raftLog.Behind 0 0 := by
  obtain ⟨n, hn, heval⟩ : ∃ n, firstVoter = .ok n ∧
      decide ((n.raft.step { type := .msgPreVote, from_ := 2, to_ := 1, term := 1 }).toOption.any
        fun p => p.1.msgs.length == n.raft.msgs.length + 1 && (p.1.msgs.getLast?.map Message.reject) == some false) = true :=
    exists_ok_of_any (by decide +kernel)
  obtain ⟨hframe, hok⟩ :=
    @preVote_changes_outbox_only { type := .msgPreVote, from_ := 2, to_ := 1, term := 1 } rfl (by decide)
  obtain ⟨r', st, hstep⟩ := hok ((trio false).config 1 {} 0 fun _ => 0) n { node := n }
    ⟨.nil _, by decide, by decide, by decide⟩ (fun _ => ⟨rfl, rfl, rfl⟩) (Or.inl hn) .refl
  have heval := of_decide_eq_true heval
  rw [hstep, Except.toOption, Option.any_some, Bool.and_eq_true, beq_iff_eq, beq_iff_eq] at heval
  rcases hframe n.raft r' st hstep with same | ⟨m, -, posted, granted⟩
  · have hlen : r'.msgs.length = n.raft.msgs.length + 1 := heval.1
    rw [same] at hlen
    omega
  · have hgrant : m.reject = false := by
      have hlast := heval.2
      rw [posted, List.getLast?_concat] at hlast
      exact Option.some.inj hlast
    exact ⟨n, r', st, m, hn, hstep, posted, hgrant, granted hgrant⟩

end Bare

end RaftEtcd
