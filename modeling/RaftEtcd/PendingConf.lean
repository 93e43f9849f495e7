import RaftEtcd.Delivery
import RaftEtcd.Leading

/-! One change of the configuration at a time. A leader remembers where the last change in its log
can be, and takes a new one only when it has applied everything up to there. The log it counts on is
what it can read, so a `Ready` from before its election, which is stored and reported late, must not
bring back an entry that has been replaced since. -/
namespace RaftEtcd
variable {r r' r'' : Raft} {msg : Message}

/-! ### Entries that come in -/

section Incoming
variable {l l' : RaftLog} {i : Nat} {es : List Entry}

/-- An unstable entry was there before, below the new ones, or is one of them. -/
theorem RaftLog.Spliced.mem {u u' : Unstable} (h : Spliced u u' i es) {e : Entry} (he : e ∈ u'.entries) :
    (∃ k : Nat, u.entries[k]? = some e ∧ u.offset + k < i) ∨ e ∈ es := by
  obtain ⟨k, hk⟩ := List.mem_iff_getElem?.mp he
  by_cases hlt : u'.offset + k < i
  · have hbelow := h.below (u'.offset + k) (Nat.le_add_right _ _) hlt
    rw [Nat.add_sub_cancel_left, hk] at hbelow
    rcases h.offset with ⟨hoff, -⟩ | ⟨hoff, -⟩
    · rw [hoff, Nat.add_sub_cancel_left] at hbelow
      exact Or.inl ⟨k, hbelow.symm, by omega⟩
    · omega
  · have habove := h.above (u'.offset + k) (by omega)
    rw [Nat.add_sub_cancel_left, hk] at habove
    exact Or.inr (List.mem_of_getElem? habove.symm)

theorem append_cases (h : l.append es = .ok l') :
    es = [] ∧ l' = l ∨ ∃ e rest u, es = e :: rest ∧ RaftLog.Spliced l.unstable u e.index es ∧
      l' = { l with unstable := u } := by
  cases es with
  | nil => exact Or.inl ⟨rfl, (Except.ok.inj h).symm⟩
  | cons e rest =>
      unfold RaftLog.append at h
      simp only at h
      split at h
      · cases h
      · obtain ⟨u, hu, h⟩ := bind_ok h
        exact Or.inr ⟨e, rest, u, rfl, RaftLog.truncateAndAppend_spliced rfl hu, (Except.ok.inj h).symm⟩

theorem append_mem (h : l.append es = .ok l') {e : Entry} (he : e ∈ l'.unstable.entries) :
    e ∈ l.unstable.entries ∨ e ∈ es := by
  rcases append_cases h with ⟨-, rfl⟩ | ⟨e', rest, u, -, hs, rfl⟩
  · exact Or.inl he
  · exact (hs.mem he).imp_left fun ⟨k, hk, _⟩ => List.mem_of_getElem? hk

theorem maybeAppend_mem {index logTerm committed : Nat} {ok : Option Nat}
    (h : l.maybeAppend index logTerm committed es = .ok (l', ok)) {e : Entry} (he : e ∈ l'.unstable.entries) :
    e ∈ l.unstable.entries ∨ e ∈ es := by
  unfold RaftLog.maybeAppend at h
  split at h
  · -- the end of each branch: the commit index follows
    have hend : ∀ {l₁ : RaftLog} {c : Nat},
        (do let l₂ ← l₁.commitTo c; Except.ok (l₂, some (index + es.length)) : Result _) = .ok (l', ok) →
        e ∈ l₁.unstable.entries := by
      intro l₁ c h
      obtain ⟨l₂, h₂, h⟩ := bind_ok h
      obtain ⟨c', rfl⟩ := commitTo_frame h₂
      rwa [← (Prod.mk.inj (Except.ok.inj h)).1] at he
    simp only at h
    split at h
    · exact Or.inl (hend h)
    split at h
    · cases h
    · obtain ⟨l₁, h₁, h⟩ := bind_ok h
      exact (append_mem h₁ (hend h)).imp_right List.mem_of_mem_drop
  · rw [← (Prod.mk.inj (Except.ok.inj h)).1] at he
    exact Or.inl he

/-- An entry of the log is stored below the unstable ones or one of these. -/
theorem mem_log_iff (hst : IndexedFrom (l.storage.dummy.index + 1) l.storage.ents) {e : Entry} :
    e ∈ l.log ↔ e ∈ l.storage.ents ∧ e.index < l.unstable.offset ∨ e ∈ l.unstable.entries := by
  rw [RaftLog.log, List.mem_append, MemoryStorage.firstIndex]
  refine or_congr_left ⟨fun he => ?_, ?_⟩
  · obtain ⟨k, hk⟩ := List.mem_iff_getElem?.mp he
    obtain ⟨hlen, -⟩ := List.getElem?_eq_some_iff.mp hk
    rw [List.length_take] at hlen
    have hidx := hst.take _ k e hk
    exact ⟨List.mem_of_mem_take he, by omega⟩
  · rintro ⟨he, hlt⟩
    obtain ⟨k, hk⟩ := List.mem_iff_getElem?.mp he
    have hidx := hst k e hk
    refine List.mem_iff_getElem?.mpr ⟨k, ?_⟩
    rw [List.getElem?_take_of_lt (by omega)]
    exact hk

/-- The log behind an append: what it had below the new entries, and these. It is read from the
storage no further than before, nor than the first of them. -/
theorem append_log_mem (hst : IndexedFrom (l.storage.dummy.index + 1) l.storage.ents)
    (hun : IndexedFrom l.unstable.offset l.unstable.entries) (hne : es ≠ []) (hes : IndexedFrom i es)
    (h : l.append es = .ok l') :
    l'.unstable.offset ≤ l.unstable.offset ∧ l'.unstable.offset ≤ i ∧
      ∀ e ∈ l'.log, e ∈ l.log ∧ e.index < i ∨ e ∈ es := by
  rcases append_cases h with ⟨hnil, -⟩ | ⟨e', rest, u, rfl, hs, rfl⟩
  · exact absurd hnil hne
  rw [hes.cons.1] at hs
  have hoff : u.offset ≤ l.unstable.offset ∧ u.offset ≤ i := by
    rcases hs.offset with ⟨heq, hle⟩ | ⟨heq, hle⟩ <;> omega
  refine ⟨hoff.1, hoff.2, fun e he => ?_⟩
  rcases (mem_log_iff (l := { l with unstable := u }) hst).mp he with ⟨he, hlt⟩ | he
  · have hlt : e.index < u.offset := hlt
    exact Or.inl ⟨(mem_log_iff hst).mpr (Or.inl ⟨he, by omega⟩), by omega⟩
  · rcases hs.mem he with ⟨k, hk, hlt⟩ | hnew
    · have hidx := hun k e hk
      exact Or.inl ⟨(mem_log_iff hst).mpr (Or.inr (List.mem_of_getElem? hk)), by omega⟩
    · exact Or.inr hnew

end Incoming

/-! ### A node that does not lead -/

/-- What a step leaves of a node that it does not make a leader: an unstable entry was there before
or came from the leader, a candidate stands in a term of its own, and a leader goes on as it was. -/
structure Carries (msg : Message) (r r' : Raft) : Prop where
  term : r.term ≤ r'.term
  entries : ∀ e ∈ r'.raftLog.unstable.entries, e ∈ r.raftLog.unstable.entries ∨
    msg.type = .msgApp ∧ e ∈ msg.entries ∧ msg.term ≤ r'.term ∧ r'.state = .follower
  candidate : r'.state = .candidate → r.term < r'.term ∨ r.state = .candidate
  leader : r'.state = .leader → r.state = .leader ∧ r'.term = r.term ∧ r'.raftLog = r.raftLog ∧
    r'.pendingConfIndex = r.pendingConfIndex ∧ r'.uncommittedSize = r.uncommittedSize

/-- And one that it may make a leader: a candidate with the same log wins. -/
inductive Succeeds (msg : Message) (r r' : Raft) : Prop
  | carries (h : Carries msg r r')
  | elected (c l : Raft) (carries : Carries msg r c) (log : c.raftLog = r.raftLog) (role : c.state = .candidate)
      (lead : c.becomeLeader = .ok l) (posts : Posts l r')

section Succession

namespace Carries

theorem of_same (hstate : r'.state = r.state) (hterm : r'.term = r.term) (hlog : r'.raftLog = r.raftLog)
    (hpending : r'.pendingConfIndex = r.pendingConfIndex) (hsize : r'.uncommittedSize = r.uncommittedSize) :
    Carries msg r r' where
  term := hterm.ge
  entries e he := by
    rw [hlog] at he
    exact Or.inl he
  candidate hc := Or.inr (hstate ▸ hc)
  leader hl := ⟨hstate ▸ hl, hterm, hlog, hpending, hsize⟩

theorem refl (r : Raft) : Carries msg r r := .of_same rfl rfl rfl rfl rfl

theorem follower (hstate : r'.state = .follower) (hterm : r.term ≤ r'.term)
    (hentries : ∀ e ∈ r'.raftLog.unstable.entries, e ∈ r.raftLog.unstable.entries ∨
      msg.type = .msgApp ∧ e ∈ msg.entries ∧ msg.term ≤ r'.term) : Carries msg r r' where
  term := hterm
  entries e he := (hentries e he).imp_right fun ⟨hty, hmem, hle⟩ => ⟨hty, hmem, hle, hstate⟩
  candidate hc := by
    rw [hstate] at hc
    cases hc
  leader hl := by
    rw [hstate] at hl
    cases hl

theorem send {m : Message} (h : r.send m = .ok r') : Carries msg r r' := by
  obtain ⟨t, rfl, -, -⟩ := send_spec h
  exact .of_same rfl rfl rfl rfl rfl

/-- A node that follows first, in its own term or a later one. -/
theorem after_follow {t lead : Nat} (ht : r.term ≤ t) (h : Carries msg (r.becomeFollower t lead) r') :
    Carries msg r r' where
  term := by
    have := h.term
    rw [Raft.becomeFollower, Raft.reset_term] at this
    omega
  entries e he := by
    have := h.entries e he
    rwa [Raft.becomeFollower, Raft.reset_raftLog] at this
  candidate hc := by
    rcases h.candidate hc with hlt | hstate
    · rw [Raft.becomeFollower, Raft.reset_term] at hlt
      exact Or.inl (by omega)
    · cases hstate
  leader hl := by cases (h.leader hl).1

end Carries

theorem Succeeds.after_follow {t lead : Nat} (ht : r.term ≤ t) (h : Succeeds msg (r.becomeFollower t lead) r') :
    Succeeds msg r r' := by
  cases h with
  | carries h => exact .carries (h.after_follow ht)
  | elected c l carries log role lead posts =>
      rw [Raft.becomeFollower, Raft.reset_raftLog] at log
      exact .elected c l (carries.after_follow ht) log role lead posts

theorem campaignElection_succeeds (hr : r.state ≠ .leader) (h : r.campaignElection = .ok r') : Succeeds msg r r' := by
  rw [campaignElection_eq hr] at h
  have hstanding : Carries msg r r.standing := by
    refine ⟨by simp [Raft.standing], fun e he => Or.inl ?_, fun _ => Or.inl (by simp [Raft.standing]),
      fun hl => by cases hl⟩
    rwa [Raft.standing, Raft.reset_raftLog] at he
  split at h
  · exact .elected _ _ hstanding (Raft.reset_raftLog r _) rfl h (.refl r')
  · obtain ⟨ms, rfl, -⟩ := sendVoteRequests_spec h
    exact .carries ⟨hstanding.term, hstanding.entries, hstanding.candidate, fun hl => by cases hl⟩

theorem campaign_succeeds {ty : CampaignType} (hr : r.state ≠ .leader) (h : r.campaign ty = .ok r') :
    Succeeds msg r r' := by
  rw [campaign_eq hr] at h
  split at h
  · split at h
    · -- to ask for the votes first takes nothing from what is carried
      have hasked : ∀ {g : Raft}, Carries msg r.asking g → Carries msg r g := by
        intro g h
        refine ⟨h.term, h.entries, fun hc => Or.inl ((h.candidate hc).resolve_right ?_), fun hl => ?_⟩
        · simp [Raft.asking]
        · cases (h.leader hl).1
      have hstood : Succeeds msg r.asking r' := campaignElection_succeeds (by simp [Raft.asking]) h
      cases hstood with
      | carries h => exact .carries (hasked h)
      | elected c l carries log role lead posts => exact .elected c l (hasked carries) log role lead posts
    · obtain ⟨ms, rfl, -⟩ := sendVoteRequests_spec h
      exact .carries ⟨le_rfl, fun e he => Or.inl he, fun hc => (by cases hc), fun hl => by cases hl⟩
  · exact campaignElection_succeeds hr h

/-- A message of the leader that reaches a node in its term, which follows. -/
theorem handleAppendEntries_carries (hty : msg.type = .msgApp) (hf : r.state = .follower) (ht : msg.term ≤ r.term)
    (h : r.handleAppendEntries msg = .ok r') : Carries msg r r' := by
  obtain ⟨log, m, -, hlog, hsent⟩ := handleAppendEntries_cases h
  obtain ⟨t, rfl, -, -⟩ := send_spec hsent
  rcases hlog with rfl | ⟨ok, hlog⟩
  · exact .follower hf le_rfl fun e he => Or.inl he
  · exact .follower hf le_rfl fun e he => (maybeAppend_mem hlog he).imp_right fun hmem => ⟨hty, hmem, ht⟩

theorem handleHeartbeat_carries (hf : r.state = .follower) (h : r.handleHeartbeat msg = .ok r') : Carries msg r r' := by
  obtain ⟨log, hlog, h⟩ := bind_ok h
  obtain ⟨c, rfl⟩ := commitTo_frame hlog
  obtain ⟨t, rfl, -, -⟩ := send_spec h
  exact .follower hf le_rfl fun e he => Or.inl he

theorem handleSnapshot_carries (hf : r.state = .follower) (h : r.handleSnapshot msg = .ok r') : Carries msg r r' := by
  obtain ⟨⟨r₁, b⟩, h₁, h⟩ := bind_ok h
  obtain ⟨t, rfl, -, -⟩ := send_spec h
  rcases restore_spec h₁ with rfl | ⟨log, hlog, rfl⟩ | ⟨-, prs, lprs, l, rfl⟩
  · exact .follower hf le_rfl fun e he => Or.inl he
  · obtain ⟨c, rfl⟩ := commitTo_frame hlog
    exact .follower hf le_rfl fun e he => Or.inl he
  · exact .follower hf le_rfl fun e he => nomatch he

theorem stepHup_succeeds (h : r.stepHup = .ok r') : Succeeds msg r r' := by
  rcases stepHup_cases h with rfl | ⟨hr, hcampaign⟩
  · exact .carries (.refl r')
  · exact campaign_succeeds hr hcampaign

theorem stepVote_carries (h : r.stepVote msg = .ok r') : Carries msg r r' := by
  obtain ⟨ms, elapsed, vote, rfl⟩ := stepVote_frame h
  exact .of_same rfl rfl rfl rfl rfl

theorem stepFollower_succeeds (hf : r.state = .follower) (ht : msg.type = .msgApp → msg.term ≤ r.term) {st : Status}
    (h : r.stepFollower msg = .ok (r', st)) : Succeeds msg r r' := by
  have hheard : ∀ {g : Raft}, Carries msg { r with electionElapsed := 0, lead := msg.from_ } g → Succeeds msg r g :=
    fun hg => .carries ⟨hg.term, hg.entries, hg.candidate, hg.leader⟩
  cases stepFollower_step h with
  | keeps unread same =>
      rw [same]
      exact .carries (.refl r)
  | forwards type sent => exact .carries (.send sent)
  | appends type handled => exact hheard (handleAppendEntries_carries type hf (ht type) handled)
  | beats type handled => exact hheard (handleHeartbeat_carries hf handled)
  | restores type handled => exact hheard (handleSnapshot_carries hf handled)
  | stands type promotable campaign => exact campaign_succeeds (by simp [hf]) campaign
  | reads type e one noted =>
      rw [noted]
      exact .carries (.of_same rfl rfl rfl rfl rfl)

theorem stepCandidate_succeeds (ht : msg.type.isFromLeader = true → r.term ≤ msg.term) {st : Status}
    (h : r.stepCandidate msg = .ok (r', st)) : Succeeds msg r r' := by
  -- a message of the leader makes a follower of the node before it is handled
  have hfollow : ∀ {g : Raft}, msg.type.isFromLeader = true → Carries msg (r.becomeFollower msg.term msg.from_) g →
      Succeeds msg r g := fun hty hg => .carries (hg.after_follow (ht hty))
  cases stepCandidate_step h with
  | keeps same =>
      rw [same]
      exact .carries (.refl r)
  | appends type handled =>
      refine hfollow (by rw [type]; rfl) (handleAppendEntries_carries type rfl ?_ handled)
      simp [Raft.becomeFollower]
  | beats type handled => exact hfollow (by rw [type]; rfl) (handleHeartbeat_carries rfl handled)
  | restores type handled => exact hfollow (by rw [type]; rfl) (handleSnapshot_carries rfl handled)
  | counts type c polled votes frame tally =>
      have hpolled : ∀ {g : Raft}, Carries msg c g → Carries msg r g := by
        subst frame
        exact fun hg => ⟨hg.term, hg.entries, hg.candidate, hg.leader⟩
      cases tally with
      | stands quorum role campaign =>
          have hstood : Succeeds msg c r' := campaign_succeeds (by simp [role]) campaign
          cases hstood with
          | carries h => exact .carries (hpolled h)
          | elected c' l carries log role lead posts =>
              exact .elected c' l (hpolled carries) (log.trans (by rw [frame])) role lead posts
      | wins quorum role l lead cast =>
          exact .elected c l (hpolled (.refl c)) (by rw [frame]) role lead (bcastAppend_posts cast)
      | loses follows =>
          rw [follows]
          exact .carries (hpolled (.after_follow le_rfl (.refl _)))
      | waits same =>
          rw [same]
          exact .carries (hpolled (.refl c))

theorem stepBody_succeeds (ht : msg.type.isFromLeader = true → r.term = msg.term) {st : Status}
    (h : r.stepBody msg = .ok (r', st)) :
    Succeeds msg r r' ∨ r.state = .leader ∧ r.stepLeader msg = .ok (r', st) := by
  unfold Raft.stepBody at h
  split at h
  · exact Or.inl (stepHup_succeeds (withOk_ok h))
  · exact Or.inl (.carries (stepVote_carries (withOk_ok h)))
  · exact Or.inl (.carries (stepVote_carries (withOk_ok h)))
  · split at h
    · rename_i hs
      exact Or.inl (stepFollower_succeeds hs (fun hty => (ht (by rw [hty]; rfl)).ge) h)
    · exact Or.inl (stepCandidate_succeeds (fun hty => (ht hty).le) h)
    · exact Or.inl (stepCandidate_succeeds (fun hty => (ht hty).le) h)
    · rename_i hs
      exact Or.inr ⟨hs, h⟩

/-- A step carries the log on, elects the node, or is the work of a leader. -/
theorem step_succeeds (hterm : msg.type.isFromLeader = true → msg.term ≠ 0) {st : Status}
    (h : r.step msg = .ok (r', st)) : Succeeds msg r r' ∨ r.state = .leader ∧ r.stepLeader msg = .ok (r', st) := by
  cases step_way h with
  | stays term body =>
      refine stepBody_succeeds (fun hty => ?_) body
      have hset := hterm hty
      rcases term with hnone | hsame | ⟨-, -, hvote | hvote⟩
      · exact absurd hnone hset
      · exact hsame.symm
      · rw [hvote] at hty
        cases hty
      · rw [hvote] at hty
        cases hty
  | follows later lead heard body =>
      rcases stepBody_succeeds (fun _ => by simp [Raft.becomeFollower]) body with hs | ⟨hl, -⟩
      · exact Or.inl (hs.after_follow later.le)
      · cases hl
  | leased later type same =>
      rw [same]
      exact Or.inl (.carries (.refl r))
  | stale sent earlier lower =>
      rcases lowerTerm_cases lower with rfl | ⟨m, -, hsent⟩
      · exact Or.inl (.carries (.refl r'))
      · exact Or.inl (.carries (.send hsent))

end Succession

/-! ### The fence -/

/-- No change of the configuration in the log of a leader is behind this index. What is applied is
settled anyway. -/
def Raft.fence (r : Raft) : Nat := max r.raftLog.applied r.pendingConfIndex

/-- The entries that may still be reported stable: those handed out and those that are unstable. -/
def recent (out : Option (Ready × Bool)) (l : RaftLog) : List Entry :=
  (out.elim [] fun p => p.1.entries) ++ l.unstable.entries

/-- A `Ready` that the leader made itself. Once it is stored, the storage can be read up to its last
entry. -/
structure Fresh (r : Raft) (rd : Ready) (stored : Bool) : Prop where
  handed : ∀ e ∈ rd.entries, e.type = entryConfChange → e.index ≤ r.fence
  below : stored = false → ∀ first, rd.entries.head? = some first → ∀ e ∈ r.raftLog.storage.ents,
    e.type = entryConfChange → e.index < first.index → e.index ≤ r.fence
  above : stored = true → ∀ last, rd.entries.getLast? = some last → ∀ e ∈ r.raftLog.storage.ents,
    e.type = entryConfChange → e.index ≤ last.index → e.index ≤ r.fence

/-- A `Ready` from before the election: the entries that the leader has appended are none of it. -/
structure Stale (r : Raft) (rd : Ready) : Prop where
  earlier : ∀ e ∈ rd.entries, e.term < r.term
  offset_le : r.raftLog.unstable.offset ≤ r.fence + 1

/-- The fence of a leader holds, whatever is reported stable next. -/
structure Fenced (out : Option (Ready × Bool)) (r : Raft) : Prop where
  logged : ∀ e ∈ r.raftLog.log, e.type = entryConfChange → e.index ≤ r.fence
  own : ∀ e ∈ r.raftLog.unstable.entries, r.fence < e.index → e.term = r.term
  out : ∀ rd stored, out = some (rd, stored) → Stale r rd ∨ Fresh r rd stored

/-- What leads to it: no entry is of a later term than the node, nor of the term in which it stands
for election. -/
structure Watched (out : Option (Ready × Bool)) (r : Raft) : Prop where
  stored : IndexedFrom (r.raftLog.storage.dummy.index + 1) r.raftLog.storage.ents
  unstable : IndexedFrom r.raftLog.unstable.offset r.raftLog.unstable.entries
  dated : ∀ e ∈ recent out r.raftLog, e.term ≤ r.term
  candidate : r.state = .candidate → ∀ e ∈ recent out r.raftLog, e.term < r.term
  leader : r.state = .leader → Fenced out r

section Fence
variable {out : Option (Ready × Bool)}

theorem Fresh.mono {rd : Ready} {stored : Bool} (h : Fresh r rd stored) (hle : r.fence ≤ r'.fence)
    (hstorage : ∀ e ∈ r'.raftLog.storage.ents, e ∈ r.raftLog.storage.ents) : Fresh r' rd stored where
  handed e he hty := (h.handed e he hty).trans hle
  below hst first hfirst e he hty hlt := (h.below hst first hfirst e (hstorage e he) hty hlt).trans hle
  above hst last hlast e he hty hlt := (h.above hst last hlast e (hstorage e he) hty hlt).trans hle

/-- The leader goes on: what is new in its log is its own, and no change behind the fence. -/
theorem Fenced.mono (h : Fenced out r) (hterm : r'.term = r.term) (hle : r.fence ≤ r'.fence)
    (hstorage : r'.raftLog.storage = r.raftLog.storage)
    (hoff : r'.raftLog.unstable.offset ≤ r.raftLog.unstable.offset)
    (hlog : ∀ e ∈ r'.raftLog.log, e ∈ r.raftLog.log ∨ (e.type = entryConfChange → e.index ≤ r'.fence))
    (hown : ∀ e ∈ r'.raftLog.unstable.entries, e ∈ r.raftLog.unstable.entries ∨ e.term = r.term) :
    Fenced out r' where
  logged e he hty := by
    rcases hlog e he with hold | hnew
    · exact (h.logged e hold hty).trans hle
    · exact hnew hty
  own e he hlt := by
    rw [hterm]
    rcases hown e he with hold | hnew
    · exact h.own e hold (by omega)
    · exact hnew
  out rd stored hout := by
    rcases h.out rd stored hout with ⟨hearlier, hoffset⟩ | hfresh
    · exact Or.inl ⟨fun e he => (hearlier e he).trans_le hterm.ge, by omega⟩
    · exact Or.inr (hfresh.mono hle fun e he => by rwa [hstorage] at he)

/-- Nothing but the commit index of the log has changed. -/
theorem Fenced.congr (h : Fenced out r) (hlog : ∃ c, r'.raftLog = { r.raftLog with committed := c })
    (hterm : r'.term = r.term) (hpending : r'.pendingConfIndex = r.pendingConfIndex) : Fenced out r' := by
  obtain ⟨c, hlog⟩ := hlog
  refine h.mono hterm ?_ ?_ ?_ (fun e he => Or.inl ?_) fun e he => Or.inl ?_
  · rw [Raft.fence, Raft.fence, hlog, hpending]
  · rw [hlog]
  · rw [hlog]
  · rwa [hlog] at he
  · rwa [hlog] at he

theorem Watched.congr (h : Watched out r) (hlog : ∃ c, r'.raftLog = { r.raftLog with committed := c })
    (hstate : r'.state = r.state) (hterm : r'.term = r.term)
    (hpending : r'.pendingConfIndex = r.pendingConfIndex) : Watched out r' := by
  have hfence := fun hl => (h.leader (hstate ▸ hl)).congr hlog hterm hpending
  obtain ⟨c, hlog⟩ := hlog
  have hrecent : recent out r'.raftLog = recent out r.raftLog := by rw [recent, recent, hlog]
  refine ⟨?_, ?_, ?_, fun hc => ?_, hfence⟩
  · rw [hlog]
    exact h.stored
  · rw [hlog]
    exact h.unstable
  · rw [hrecent, hterm]
    exact h.dated
  · rw [hrecent, hterm]
    exact h.candidate (hstate ▸ hc)

theorem Watched.timed (h : Watched out r) (ht : Timed r r') : Watched out r' := by
  obtain ⟨_, _, _, rfl⟩ := ht
  exact h.congr ⟨_, rfl⟩ rfl rfl rfl

theorem Watched.posts (h : Watched out r) (hp : Posts r r') : Watched out r' := by
  obtain ⟨_, _, _, rfl⟩ := hp.rest
  exact h.congr ⟨_, rfl⟩ rfl rfl rfl

theorem mem_recent {l : RaftLog} {e : Entry} :
    e ∈ recent out l ↔ (∃ rd stored, out = some (rd, stored) ∧ e ∈ rd.entries) ∨ e ∈ l.unstable.entries := by
  rw [recent, List.mem_append]
  refine or_congr_left ⟨fun he => ?_, fun ⟨rd, stored, hout, he⟩ => ?_⟩
  · cases out with
    | none => cases he
    | some p => exact ⟨p.1, p.2, rfl, he⟩
  · rw [hout]
    exact he

/-- A leader sends entries of its log, and none of them is of a later term than its own. -/
def Message.Dated (msg : Message) : Prop := msg.type = .msgApp → ∀ e ∈ msg.entries, e.term ≤ msg.term

theorem Watched.carries (h : Watched out r) (hc : Carries msg r r') (hd : msg.Dated)
    (hstored : IndexedFrom (r'.raftLog.storage.dummy.index + 1) r'.raftLog.storage.ents)
    (hunstable : IndexedFrom r'.raftLog.unstable.offset r'.raftLog.unstable.entries) : Watched out r' where
  stored := hstored
  unstable := hunstable
  dated e he := by
    have hle := hc.term
    rcases mem_recent.mp he with hhanded | he
    · exact (h.dated e (mem_recent.mpr (Or.inl hhanded))).trans hle
    · rcases hc.entries e he with hold | ⟨hty, hmem, hmsg, -⟩
      · exact (h.dated e (mem_recent.mpr (Or.inr hold))).trans hle
      · exact (hd hty e hmem).trans hmsg
  candidate hrole e he := by
    have hle := hc.term
    have hold : e ∈ recent out r.raftLog := by
      rcases mem_recent.mp he with hhanded | he
      · exact mem_recent.mpr (Or.inl hhanded)
      · rcases hc.entries e he with hold | ⟨-, -, -, hf⟩
        · exact mem_recent.mpr (Or.inr hold)
        · cases hrole.symm.trans hf
    rcases hc.candidate hrole with hlt | hstood
    · exact (h.dated e hold).trans_lt hlt
    · exact (h.candidate hstood e hold).trans_le hle
  leader hl := by
    obtain ⟨hl', hterm, hlog, hpending, -⟩ := hc.leader hl
    exact (h.leader hl').congr ⟨_, hlog⟩ hterm hpending

/-- A candidate that wins puts its fence at the end of its log, and an entry of its own behind it. -/
theorem Watched.elected (h : Watched out r) (hc : r.state = .candidate) (hlead : r.becomeLeader = .ok r') :
    Watched out r' := by
  have hnew := becomeLeader_new hlead
  obtain ⟨log, c, happend, hlog⟩ := hnew.log
  have hnum : IndexedFrom (r.raftLog.lastIndex + 1) (Raft.stampEntries r.term (r.raftLog.lastIndex + 1) [{}]) :=
    stampEntries_indexed _ _ _
  have hgrow := RaftLog.append_grows (W := True) (fun _ => ⟨_, by omega, hnum⟩) happend
  obtain ⟨-, hoff, hmem⟩ := append_log_mem h.stored h.unstable (by simp [Raft.stampEntries]) hnum happend
  have hfence : r.raftLog.lastIndex ≤ r'.fence := by
    rw [Raft.fence, hnew.pending]
    exact le_max_right _ _
  have hstored : IndexedFrom (log.storage.dummy.index + 1) log.storage.ents := by
    rw [hgrow.storage]
    exact h.stored
  have hunstable := hgrow.indexed trivial h.unstable
  refine ⟨by rw [hlog]; exact hstored, by rw [hlog]; exact hunstable, fun e he => ?_, fun hrole => ?_, fun _ =>
    ⟨fun e he hty => ?_, fun e he hlt => ?_, fun rd stored hout => Or.inl ⟨fun e he => ?_, ?_⟩⟩⟩
  · rw [hnew.term]
    rcases mem_recent.mp he with hhanded | he
    · exact h.dated e (mem_recent.mpr (Or.inl hhanded))
    · rw [hlog] at he
      rcases append_mem happend he with hold | hown
      · exact h.dated e (mem_recent.mpr (Or.inr hold))
      · exact (stampEntries_term _ _ _ e hown).le
  · cases hrole.symm.trans hnew.state
  · rw [hlog] at he
    rcases hmem e he with ⟨-, hlt⟩ | hown
    · omega
    · rw [List.mem_singleton.mp hown] at hty
      cases hty
  · rw [hlog] at he
    rw [hnew.term]
    rcases hmem e ((mem_log_iff hstored).mpr (Or.inr he)) with ⟨-, hle⟩ | hown
    · omega
    · exact stampEntries_term _ _ _ e hown
  · rw [hnew.term]
    exact h.candidate hc e (mem_recent.mpr (Or.inl ⟨rd, stored, hout, he⟩))
  · rw [hlog]
    exact hoff.trans (by omega)

end Fence

/-! ### Proposals -/

/-- What is left of the proposed changes, with `i` entries before them: one is taken only when all
before it are applied, and the last one that is taken is where the pending index points. -/
structure Filtered (r : Raft) (i : Nat) (p : Raft × List Entry) : Prop where
  fence_le : r.fence ≤ p.1.fence
  taken : ∀ k e, p.2[k]? = some e → e.type = entryConfChange →
    r.pendingConfIndex ≤ r.raftLog.applied ∧ r.raftLog.lastIndex + i + 1 + k ≤ p.1.fence
  settled : ∀ j k e e', j < k → p.2[j]? = some e → p.2[k]? = some e' → e.type = entryConfChange →
    e'.type = entryConfChange → r.raftLog.lastIndex + i + 1 + j ≤ r.raftLog.applied

theorem filterConfChanges_filtered (r : Raft) (i : Nat) (es : List Entry) :
    Filtered r i (r.filterConfChanges i es) := by
  -- an entry that is no change, or no longer one, goes before the rest
  have hskip : ∀ {r : Raft} {i : Nat} {e : Entry} {p : Raft × List Entry}, e.type ≠ entryConfChange →
      Filtered r (i + 1) p → Filtered r i (p.1, e :: p.2) := by
    intro r i e p hne hp
    refine ⟨hp.fence_le, fun k e' hk hty => ?_, fun j k e₁ e₂ hjk hj hk hty₁ hty₂ => ?_⟩
    · cases k with
      | zero =>
          obtain rfl := Option.some.inj hk
          exact absurd hty hne
      | succ k =>
          obtain ⟨hpend, hle⟩ := hp.taken k e' hk hty
          exact ⟨hpend, by simp only; omega⟩
    · cases j with
      | zero =>
          obtain rfl := Option.some.inj hj
          exact absurd hty₁ hne
      | succ j =>
          obtain ⟨k, rfl⟩ : ∃ k', k = k' + 1 := ⟨k - 1, by omega⟩
          have := hp.settled j k e₁ e₂ (by omega) hj hk hty₁ hty₂
          omega
  induction es generalizing r i with
  | nil => exact ⟨le_rfl, nofun, nofun⟩
  | cons e es ih =>
      unfold Raft.filterConfChanges
      split
      · split
        · exact hskip (by decide) (ih r (i + 1))
        · rename_i happlied
          have hrest := ih { r with pendingConfIndex := r.raftLog.lastIndex + i + 1 } (i + 1)
          have hhere : max r.raftLog.applied (r.raftLog.lastIndex + i + 1) ≤
              ({ r with pendingConfIndex := r.raftLog.lastIndex + i + 1 }.filterConfChanges (i + 1) es).1.fence :=
            hrest.fence_le
          refine ⟨?_, fun k e' hk hty => ?_, fun j k e₁ e₂ hjk hj hk hty₁ hty₂ => ?_⟩
          · rw [Raft.fence]
            simp only
            omega
          · cases k with
            | zero => exact ⟨by omega, by simp only; omega⟩
            | succ k =>
                have hle := (hrest.taken k e' hk hty).2
                simp only at hle ⊢
                exact ⟨by omega, by omega⟩
          · obtain ⟨k, rfl⟩ : ∃ k', k = k' + 1 := ⟨k - 1, by omega⟩
            cases j with
            | zero => exact (hrest.taken k e₂ hk hty₂).1
            | succ j =>
                have := hrest.settled j k e₁ e₂ (by omega) hj hk hty₁ hty₂
                simp only at this
                omega
      · rename_i hne
        exact hskip hne (ih r (i + 1))

section Proposals
variable {out : Option (Ready × Bool)}

theorem stampEntries_get (t i : Nat) (es : List Entry) {k : Nat} {e : Entry}
    (h : (Raft.stampEntries t i es)[k]? = some e) : e.index = i + k ∧ ∃ e', es[k]? = some e' ∧ e'.type = e.type := by
  refine ⟨stampEntries_indexed t i es k e h, ?_⟩
  induction es generalizing i k with
  | nil => cases h
  | cons e' es ih =>
      cases k with
      | zero =>
          obtain rfl := Option.some.inj h
          exact ⟨e', rfl, rfl⟩
      | succ k => exact ih (i + 1) h

/-- What a proposal leaves of the log: an entry was there below the new ones, or is one of those that
are left of the proposed ones. -/
theorem appendEntry_log {es : List Entry} (hst : IndexedFrom (r.raftLog.storage.dummy.index + 1) r.raftLog.storage.ents)
    (hun : IndexedFrom r.raftLog.unstable.offset r.raftLog.unstable.entries) (h : r.appendEntry es = .ok (r', true)) :
    r'.raftLog.unstable.offset ≤ r.raftLog.unstable.offset ∧
      ∀ e ∈ r'.raftLog.log, e ∈ r.raftLog.log ∧ (es ≠ [] → e.index ≤ r.raftLog.lastIndex) ∨
        e.term = r.term ∧ ∃ k e', es[k]? = some e' ∧ e'.type = e.type ∧ e.index = r.raftLog.lastIndex + 1 + k := by
  obtain ⟨hb, -⟩ | ⟨-, -, log, c, prs, lprs, u, happend, -, -, rfl⟩ := appendEntry_frame h
  · cases hb
  by_cases hnil : es = []
  · subst hnil
    obtain rfl := Except.ok.inj happend
    exact ⟨le_rfl, fun e he => Or.inl ⟨he, fun hne => absurd rfl hne⟩⟩
  · have hne : Raft.stampEntries r.term (r.raftLog.lastIndex + 1) es ≠ [] := by
      rw [ne_eq, ← List.length_eq_zero_iff, stampEntries_length, List.length_eq_zero_iff]
      exact hnil
    obtain ⟨hoff, -, hmem⟩ := append_log_mem hst hun hne (stampEntries_indexed _ _ _) happend
    refine ⟨hoff, fun e he => ?_⟩
    rcases hmem e he with ⟨hold, hlt⟩ | hnew
    · exact Or.inl ⟨hold, fun _ => by omega⟩
    · obtain ⟨k, hk⟩ := List.mem_iff_getElem?.mp hnew
      obtain ⟨hidx, e', he', hty⟩ := stampEntries_get _ _ _ hk
      exact Or.inr ⟨stampEntries_term _ _ _ e hnew, k, e', he', hty, hidx⟩

theorem Watched.proposes (h : Watched out r) (hl : r.state = .leader) {es : List Entry} {taken : Bool}
    (happend : (r.filterConfChanges 0 es).1.appendEntry (r.filterConfChanges 0 es).2 = .ok (r', taken)) :
    Watched out r' := by
  have hfiltered := filterConfChanges_filtered r 0 es
  obtain ⟨p, hframe⟩ := filterConfChanges_frame r 0 es
  generalize (r.filterConfChanges 0 es) = q at *
  obtain ⟨r₁, es₁⟩ := q
  simp only at hframe happend hfiltered
  subst hframe
  have hfence := h.leader hl
  -- the pending index has moved, whether or not the entries are taken
  have hmoved : Watched out { r with pendingConfIndex := p } :=
    ⟨h.stored, h.unstable, h.dated, h.candidate, fun _ => hfence.mono rfl hfiltered.fence_le rfl le_rfl
      (fun e he => Or.inl he) fun e he => Or.inl he⟩
  cases taken with
  | false =>
      obtain ⟨-, rfl⟩ | ⟨hb, -⟩ := appendEntry_frame happend
      · exact hmoved
      · cases hb
  | true =>
      obtain ⟨hoff, hlog⟩ := appendEntry_log hmoved.stored hmoved.unstable happend
      obtain ⟨hb, -⟩ | ⟨-, -, log, c, prs, lprs, u, hlog', -, -, heq⟩ := appendEntry_frame happend
      · cases hb
      have hgrow := RaftLog.append_grows (W := True) (fun _ => ⟨_, by omega, stampEntries_indexed _ _ _⟩) hlog'
      have happlied : r'.fence = Raft.fence { r with pendingConfIndex := p } := by
        rw [heq, Raft.fence, Raft.fence]
        simp only [hgrow.applied]
      subst heq
      refine ⟨?_, hgrow.indexed trivial h.unstable, fun e he => ?_, fun hc => ?_, fun _ =>
        (hmoved.leader hl).mono rfl happlied.ge hgrow.storage hoff (fun e he => ?_) fun e he => ?_⟩
      · simp only [hgrow.storage]
        exact h.stored
      · rcases mem_recent.mp he with hhanded | he
        · exact h.dated e (mem_recent.mpr (Or.inl hhanded))
        · rcases append_mem hlog' he with hold | hown
          · exact h.dated e (mem_recent.mpr (Or.inr hold))
          · exact (stampEntries_term _ _ _ e hown).le
      · cases hl.symm.trans hc
      · rcases hlog e he with ⟨hold, -⟩ | ⟨-, k, e', hk, hty, hidx⟩
        · exact Or.inl hold
        · refine Or.inr fun hconf => ?_
          have := (hfiltered.taken k e' hk (hty.trans hconf)).2
          rw [happlied, hidx]
          simp only at this ⊢
          omega
      · exact (append_mem hlog' he).imp_right (stampEntries_term _ _ _ e)

theorem Watched.leads (h : Watched out r) (hl : r.state = .leader) (hs : Leads msg r r') : Watched out r' := by
  cases hs with
  | works hw =>
      obtain ⟨_, _, _, _, _, _, _, _, rfl⟩ := hw.rest
      exact h.congr ⟨_, rfl⟩ rfl rfl rfl
  | proposes type r₁ taken append posts => exact (h.proposes hl append).posts posts
  | stepsDown type lost follows =>
      subst follows
      have hfollow : Carries msg r (r.becomeFollower r.term 0) := .after_follow le_rfl (.refl _)
      refine h.carries hfollow (fun hty => ?_) ?_ ?_
      · cases type.symm.trans hty
      · rw [Raft.becomeFollower, Raft.reset_raftLog]
        exact h.stored
      · rw [Raft.becomeFollower, Raft.reset_raftLog]
        exact h.unstable

end Proposals

/-! ### Every call -/

section Calls
variable {out : Option (Ready × Bool)} {n n' : RawNode}

theorem Watched.step (h : Watched out r) (hterm : msg.type.isFromLeader = true → msg.term ≠ 0) (hnum : msg.Numbered)
    (hd : msg.Dated) {st : Status} (hs : r.step msg = .ok (r', st)) : Watched out r' := by
  rcases step_succeeds hterm hs with hsucc | ⟨hl, hs⟩
  · cases hsucc with
    | carries hc =>
        have hgrow := (step_handles hterm hs).log
        refine h.carries hc hd ?_ (hgrow.indexed hnum h.unstable)
        rw [hgrow.storage]
        exact h.stored
    | elected c l carries log role lead posts =>
        have hc : Watched out c := h.carries carries hd (by rw [log]; exact h.stored) (by rw [log]; exact h.unstable)
        exact (hc.elected role lead).posts posts
  · exact h.leads hl (stepLeader_leads hs)

/-- A message of the node's own. -/
theorem Watched.step_own (h : Watched out r) (hty : msg.type.isFromLeader = false) {st : Status}
    (hs : r.step msg = .ok (r', st)) : Watched out r' := by
  have hne : msg.type ≠ .msgApp := by
    intro heq
    rw [heq] at hty
    cases hty
  exact h.step (fun hleader => by rw [hleader] at hty; cases hty) (fun heq => absurd heq hne)
    (fun heq => absurd heq hne) hs

theorem Watched.tick (h : Watched out r) (ht : r.tick = .ok r') : Watched out r' := by
  cases tick_ticks ht with
  | waits timed => exact h.timed timed
  | stands r₁ timed role promotable st step => exact (h.timed timed).step_own rfl step
  | beats r₁ r₂ r₃ role timed check timed' beat =>
      have h₂ : Watched out r₂ := by
        rcases check with rfl | ⟨st, hcheck⟩
        · exact h.timed timed
        · exact (h.timed timed).step_own rfl hcheck
      rcases beat with rfl | ⟨-, st, hbeat⟩
      · exact h₂.timed timed'
      · exact (h₂.timed timed').step_own rfl hbeat

theorem Watched.configures (h : Watched out r) {cc : ConfChange} (hc : Configures cc r r') : Watched out r' := by
  obtain ⟨_, _, _, c, _, _, _, _, rfl⟩ := hc.frame
  exact h.congr ⟨c, rfl⟩ rfl rfl rfl

/-- The message of a call, if it takes one from a peer, is dated. -/
def NodeAction.Dated : NodeAction → Prop
  | .step msg => msg.Dated
  | _ => True

theorem Watched.call (h : Watched out n.raft) {a : NodeAction} (ha : a.IsCall) (hd : a.Dated)
    (hrun : n.run a = .ok n') : Watched out n'.raft := by
  cases call_called ha hrun with
  | refuses same =>
      rw [same]
      exact h
  | steps msg message led numbered r' st step node =>
      rw [node]
      rcases message_own message with rfl | hown
      · exact h.step led numbered hd step
      · exact h.step_own hown step
  | ticks r' tick node =>
      rw [node]
      exact h.tick tick
  | configures cc cs apply => exact h.configures (applyConfChange_configures apply).1

end Calls

/-! ### The application -/

section Application
variable {n n' : RawNode} {rd : Ready}

theorem Watched.ready (h : Watched none n.raft) (hrd : n.ready = .ok (rd, n')) :
    Watched (some (rd, false)) n'.raft := by
  obtain ⟨-, hents, -, hlog⟩ := ready_spec hrd
  have hsame : Watched none n'.raft := by
    rw [ready_frame hrd]
    exact h.congr ⟨_, rfl⟩ rfl rfl rfl
  rw [← hlog] at hents
  have hrecent : ∀ e ∈ recent (some (rd, false)) n'.raft.raftLog, e ∈ recent none n'.raft.raftLog := by
    intro e he
    rcases mem_recent.mp he with ⟨rd', stored, hout, he⟩ | he
    · obtain ⟨rfl, -⟩ := Prod.mk.inj (Option.some.inj hout)
      rw [hents] at he
      exact mem_recent.mpr (Or.inr he)
    · exact mem_recent.mpr (Or.inr he)
  refine ⟨hsame.stored, hsame.unstable, fun e he => hsame.dated e (hrecent e he),
    fun hc e he => hsame.candidate hc e (hrecent e he), fun hl => ?_⟩
  have hfence := hsame.leader hl
  refine ⟨hfence.logged, hfence.own, fun rd' stored hout => Or.inr ?_⟩
  obtain ⟨rfl, rfl⟩ := Prod.mk.inj (Option.some.inj hout)
  refine ⟨fun e he => hfence.logged e ?_, fun _ first hfirst e he hty hlt => hfence.logged e ?_ hty, nofun⟩
  · rw [hents] at he
    exact (mem_log_iff hsame.stored).mpr (Or.inr he)
  · -- the unstable entries start where the storage is no longer read
    rw [hents, List.head?_eq_getElem?] at hfirst
    have := hsame.unstable 0 first hfirst
    exact (mem_log_iff hsame.stored).mpr (Or.inl ⟨he, by omega⟩)

/-- Where a stored entry comes from: it was given, or was stored before the first that was given, or
all that was given is compacted already. -/
theorem storageAppend_mem {st st' : MemoryStorage} {i : Nat} {es : List Entry}
    (hst : IndexedFrom (st.dummy.index + 1) st.ents) (hes : IndexedFrom i es) (h : st.append es = .ok st') {e : Entry}
    (he : e ∈ st'.ents) : e ∈ es ∨ e ∈ st.ents ∧ (e.index < i ∨ i + es.length ≤ e.index) := by
  rcases MemoryStorage.append_cases hes h with ⟨hlow, rfl⟩ | ⟨-, -, rfl⟩
  · obtain ⟨k, hk⟩ := List.mem_iff_getElem?.mp he
    have hidx := hst k e hk
    refine Or.inr ⟨he, ?_⟩
    rcases hlow with rfl | hlow
    · rw [List.length_nil]
      omega
    · omega
  · rcases List.mem_append.mp he with he | he
    · obtain ⟨k, hk⟩ := List.mem_iff_getElem?.mp he
      obtain ⟨hlen, -⟩ := List.getElem?_eq_some_iff.mp hk
      rw [List.length_take] at hlen
      have hidx := hst.take _ k e hk
      exact Or.inr ⟨List.mem_of_mem_take he, by omega⟩
    · exact Or.inl (List.mem_of_mem_drop he)

theorem persist_mem {st st' : MemoryStorage} {i : Nat} (hst : IndexedFrom (st.dummy.index + 1) st.ents)
    (hes : IndexedFrom i rd.entries) (h : persist st rd = .ok st') {e : Entry} (he : e ∈ st'.ents) :
    e ∈ rd.entries ∨ e ∈ st.ents ∧ (e.index < i ∨ i + rd.entries.length ≤ e.index) := by
  obtain ⟨st₁, -, hdummy, hents, happend⟩ := persist_appends h
  -- a snapshot leaves all entries or none
  have hkept : IndexedFrom (st₁.dummy.index + 1) st₁.ents ∧ ∀ e ∈ st₁.ents, e ∈ st.ents := by
    rw [hdummy, hents]
    rcases withSnapshot_cases st rd.snapshot with ⟨-, hsame⟩ | ⟨-, ⟨-, hsame⟩ | ⟨-, -, -, hnil⟩⟩
    · rw [hsame]
      exact ⟨hst, fun e he => he⟩
    · rw [hsame]
      exact ⟨hst, fun e he => he⟩
    · rw [hnil]
      exact ⟨.nil _, nofun⟩
  exact (storageAppend_mem hkept.1 hes happend he).imp_right fun ⟨hmem, hidx⟩ => ⟨hkept.2 e hmem, hidx⟩

variable {i : Nat}

theorem Watched.persist (h : Watched (some (rd, false)) r) (hes : IndexedFrom i rd.entries) {st : MemoryStorage}
    (hst : persist r.raftLog.storage rd = .ok st) :
    Watched (some (rd, true)) { r with raftLog := { r.raftLog with storage := st } } := by
  have hnum := (persist_numbered h.stored hes hst).1
  refine ⟨hnum, h.unstable, h.dated, h.candidate, fun hl => ?_⟩
  have hfence := h.leader hl
  have hout := hfence.out rd false rfl
  refine ⟨fun e he hty => ?_, hfence.own, fun rd' stored hsome => ?_⟩
  · rcases (mem_log_iff (l := { r.raftLog with storage := st }) hnum).mp he with ⟨he, hlt⟩ | he
    · rcases persist_mem h.stored hes hst he with hgiven | ⟨hold, -⟩
      · rcases hout with hstale | hfresh
        · have := hstale.offset_le
          change e.index ≤ r.fence
          change e.index < r.raftLog.unstable.offset at hlt
          omega
        · exact hfresh.handed e hgiven hty
      · exact hfence.logged e ((mem_log_iff h.stored).mpr (Or.inl ⟨hold, hlt⟩)) hty
    · exact hfence.logged e ((mem_log_iff h.stored).mpr (Or.inr he)) hty
  · obtain ⟨rfl, rfl⟩ := Prod.mk.inj (Option.some.inj hsome)
    refine hout.imp (fun hstale => ⟨hstale.earlier, hstale.offset_le⟩) fun hfresh =>
      ⟨hfresh.handed, nofun, fun _ last hlast e he hty hle => ?_⟩
    rcases persist_mem h.stored hes hst he with hgiven | ⟨hold, hidx⟩
    · exact hfresh.handed e hgiven hty
    · rw [List.getLast?_eq_getElem?] at hlast
      obtain ⟨hlen, -⟩ := List.getElem?_eq_some_iff.mp hlast
      have hend := hes _ last hlast
      have hzero : rd.entries[0]? = some rd.entries[0] := List.getElem?_eq_getElem (by omega)
      have hstart := hes 0 _ hzero
      exact hfresh.below rfl _ (by rw [List.head?_eq_getElem?, hzero]) e hold hty (by omega)

/-- Reporting a `Ready` leaves the unstable entries, or takes those up to its last one. -/
theorem advanceLog_cases (l : RaftLog) (rd : Ready) :
    ((RawNode.advanceLog l rd).unstable.offset = l.unstable.offset ∧
        (RawNode.advanceLog l rd).unstable.entries = l.unstable.entries ∧
        ∀ last, rd.entries.getLast? = some last → ¬ l.Takes last.index last.term) ∨
      ∃ last, rd.entries.getLast? = some last ∧ l.Takes last.index last.term ∧
        (RawNode.advanceLog l rd).unstable.offset = last.index + 1 ∧
        (RawNode.advanceLog l rd).unstable.entries =
          l.unstable.entries.drop (last.index + 1 - l.unstable.offset) := by
  have hsnap : ∀ (u : Unstable) (j : Nat), (u.stableSnapTo j).offset = u.offset ∧ (u.stableSnapTo j).entries = u.entries := by
    intro u j
    rw [Unstable.stableSnapTo]
    split
    · exact ⟨rfl, rfl⟩
    · split <;> exact ⟨rfl, rfl⟩
  have happlied : (if rd.appliedCursor > 0 then l.appliedTo rd.appliedCursor else l).unstable = l.unstable := by
    unfold RaftLog.appliedTo
    split <;> [split; skip] <;> rfl
  unfold RawNode.advanceLog
  cases hlast : rd.entries.getLast? with
  | none =>
      simp only [RaftLog.stableSnapTo]
      split
      · exact Or.inl (by rw [(hsnap _ _).1, (hsnap _ _).2, happlied]; exact ⟨rfl, rfl, fun _ h => by cases h⟩)
      · exact Or.inl (by rw [happlied]; exact ⟨rfl, rfl, fun _ h => by cases h⟩)
  | some last =>
      simp only [RaftLog.stableSnapTo, RaftLog.stableTo, happlied, RaftLog.stableTo_eq]
      by_cases htakes : l.Takes last.index last.term
      · have hcond := htakes
        rw [RaftLog.Takes] at hcond
        refine Or.inr ⟨last, rfl, htakes, ?_⟩
        split
        · rw [(hsnap _ _).1, (hsnap _ _).2]
          exact ⟨rfl, rfl⟩
        · exact ⟨rfl, rfl⟩
      · have hcond := htakes
        rw [RaftLog.Takes] at hcond
        have hnone : ∀ last', some last = some last' → ¬ l.Takes last'.index last'.term := by
          intro last' heq
          rwa [← Option.some.inj heq]
        refine Or.inl ?_
        split
        · rw [(hsnap _ _).1, (hsnap _ _).2]
          exact ⟨rfl, rfl, hnone⟩
        · exact ⟨rfl, rfl, hnone⟩

theorem Watched.advance (h : Watched (some (rd, true)) n.raft)
    (hs : ∀ snap, n.raft.raftLog.unstable.snapshot = some snap → snap.metadata.index ≠ 0)
    (happlied : rd.appliedCursor = 0 ∨ n.raft.raftLog.applied ≤ rd.appliedCursor) :
    Watched none (n.advance rd).raft := by
  obtain ⟨hstorage, happ, hindexed, -⟩ := advanceLog_leaves rd hs
  have hfence_le : n.raft.fence ≤ (n.advance rd).raft.fence := by
    have happlied' : n.raft.raftLog.applied ≤ (RawNode.advanceLog n.raft.raftLog rd).applied := by
      rw [happ]
      split <;> omega
    exact max_le_max_right _ happlied'
  have hcases := advanceLog_cases n.raft.raftLog rd
  have hsub : ∀ e ∈ (RawNode.advanceLog n.raft.raftLog rd).unstable.entries, e ∈ n.raft.raftLog.unstable.entries := by
    intro e he
    rcases hcases with ⟨-, hsame, -⟩ | ⟨last, -, -, -, hdrop⟩
    · rwa [hsame] at he
    · rw [hdrop] at he
      exact List.mem_of_mem_drop he
  have hrecent : ∀ e ∈ recent none (RawNode.advanceLog n.raft.raftLog rd), e ∈ recent (some (rd, true)) n.raft.raftLog :=
    fun e he => mem_recent.mpr (Or.inr (hsub e he))
  have hstored : IndexedFrom ((RawNode.advanceLog n.raft.raftLog rd).storage.dummy.index + 1)
      (RawNode.advanceLog n.raft.raftLog rd).storage.ents := by
    rw [hstorage]
    exact h.stored
  refine ⟨hstored, hindexed h.unstable, fun e he => h.dated e (hrecent e he),
    fun hc e he => h.candidate hc e (hrecent e he), fun hl => ?_⟩
  have hfence := h.leader hl
  refine ⟨fun e he hty => le_trans ?_ hfence_le, fun e he hlt => hfence.own e (hsub e he) (by omega), nofun⟩
  rcases (mem_log_iff hstored).mp he with ⟨he, hlt⟩ | he
  · rw [hstorage] at he
    rcases hcases with ⟨hsame, -⟩ | ⟨last, hlast, htakes, hoff, -⟩
    · rw [hsame] at hlt
      exact hfence.logged e ((mem_log_iff h.stored).mpr (Or.inl ⟨he, hlt⟩)) hty
    · rw [hoff] at hlt
      rcases hfence.out rd true rfl with hstale | hfresh
      · -- an entry of an earlier term is reported, so it is none of the leader's own
        obtain ⟨e', he', hterm⟩ := Option.map_eq_some_iff.mp htakes.2
        have hidx := h.unstable _ e' he'
        have hge := htakes.1
        have hearlier := hstale.earlier last (List.mem_of_getLast? hlast)
        by_contra hbehind
        have hown := hfence.own e' (List.mem_of_getElem? he') (by omega)
        omega
      · exact hfresh.above rfl last hlast e he hty (by omega)
  · exact hfence.logged e ((mem_log_iff h.stored).mpr (Or.inr (hsub e he))) hty

/-- The storage loses entries, and none is moved. -/
theorem Watched.shrink {out : Option (Ready × Bool)} (h : Watched out r) {st : MemoryStorage}
    (hst : IndexedFrom (st.dummy.index + 1) st.ents) (hsub : ∀ e ∈ st.ents, e ∈ r.raftLog.storage.ents) :
    Watched out { r with raftLog := { r.raftLog with storage := st } } := by
  refine ⟨hst, h.unstable, h.dated, h.candidate, fun hl => ?_⟩
  have hfence := h.leader hl
  refine ⟨fun e he => hfence.logged e ?_, hfence.own, fun rd stored hout =>
    (hfence.out rd stored hout).imp (fun hstale => ⟨hstale.earlier, hstale.offset_le⟩) fun hfresh =>
      hfresh.mono le_rfl hsub⟩
  exact (mem_log_iff h.stored).mpr
    (((mem_log_iff (l := { r.raftLog with storage := st }) hst).mp he).imp_left fun ⟨hmem, hlt⟩ => ⟨hsub e hmem, hlt⟩)

end Application

/-! ### Every run -/

/-- The steps of a node and its application, with calls that meet a condition. The application takes,
stores and reports a `Ready`, and tends to the storage. -/
inductive Driver.StepWith (P : NodeAction → Prop) : Driver → Driver → Prop
  | call {s : Driver} {a : NodeAction} {n : RawNode} :
      a.IsCall → P a → s.node.run a = .ok n → StepWith P s { s with node := n }
  | tends {s s' : Driver} :
      Driver.Step s s' → (s'.outstanding ≠ s.outstanding ∨ ∃ st, s' = s.setStorage st) → StepWith P s s'

def Driver.RunsWith (P : NodeAction → Prop) : Driver → Driver → Prop := Relation.ReflTransGen (Driver.StepWith P)

section Runs
variable {s s' : Driver} {d₀ : Nat}

theorem Driver.StepWith.step {P : NodeAction → Prop} (h : Driver.StepWith P s s') : Driver.Step s s' := by
  cases h with
  | call ha _ hrun => exact .call ha hrun
  | tends h _ => exact h

/-- A call that leaves the outstanding `Ready` and changes nothing but the storage changes nothing. -/
theorem Driver.tends_same {a : NodeAction} {n : RawNode} (ha : a.IsCall) (hrun : s.node.run a = .ok n)
    (hown : s.outstanding ≠ s.outstanding ∨ ∃ st, { s with node := n } = s.setStorage st) : n.raft = s.node.raft := by
  obtain ⟨st, hst⟩ := hown.resolve_left fun hne => hne rfl
  have hnode : n = (s.setStorage st).node := congrArg Driver.node hst
  have hstorage : st = s.log.storage := by
    have hgrow := (call_grows ha hrun).storage
    rw [hnode] at hgrow
    exact hgrow
  rw [hnode, hstorage]
  rfl

theorem Watched.driven (h : Watched s.outstanding s.node.raft) (hd : Delivery d₀ s)
    (hstep : Driver.StepWith NodeAction.Dated s s') : Watched s'.outstanding s'.node.raft := by
  have hdel := hd.delivered
  cases hstep with
  | call ha hdated hrun => exact h.call ha hdated hrun
  | tends hstep hown =>
      cases hstep with
      | @call a n ha hrun =>
          have hsame := Driver.tends_same ha hrun hown
          change Watched s.outstanding n.raft
          rw [hsame]
          exact h
      | ready hout hrd =>
          rw [hout] at h
          exact h.ready hrd
      | @persist rd st hout hst =>
          rw [hout] at h
          obtain ⟨i, hents⟩ := (hdel.handing rd false hout).entries
          exact h.persist hents hst
      | @advance rd hout =>
          rw [hout] at h
          have hhanding := hdel.handing rd true hout
          refine h.advance (fun snap hs => ?_) ?_
          · have := (hhanding.pending snap hs).1
            omega
          · have := hdel.applied_le
            rcases Nat.eq_zero_or_pos rd.appliedCursor with hzero | hpos
            · exact Or.inl hzero
            · exact Or.inr ((hhanding.cursor hpos) ▸ this)
      | @compact j status st hle hst =>
          refine h.shrink ?_ ?_
          · exact (hdel.compact hle hst).stored
          · rcases RaftLog.compact_cases h.stored hst with ⟨-, rfl⟩ | ⟨e, hlt, -, rfl⟩
            · exact fun e he => he
            · exact fun e he => List.mem_of_mem_drop he
      | createSnapshot hst =>
          obtain ⟨hdummy, hents⟩ := MemoryStorage.createSnapshot_keeps hst
          refine h.shrink ?_ fun e he => ?_
          · rw [hdummy, hents]
            exact h.stored
          · rwa [hents] at he

theorem started_follower {c : Config} {n : RawNode}
    (hn : RawNode.restartNode c = .ok n ∨ ∃ serialize peers, RawNode.startNode serialize c peers = .ok n) :
    n.raft.state = .follower := by
  refine started_holds (P := fun r => r.state = .follower) hn (fun r hr => ?_) (fun _ _ _ _ _ _ _ => rfl)
    fun r r' id hr hadd => ?_
  · obtain ⟨⟨peers, learners⟩, -, hr⟩ := bind_ok hr
    obtain ⟨r₁, -, hr⟩ := bind_ok hr
    obtain ⟨r₂, -, hr⟩ := bind_ok hr
    rw [← Except.ok.inj hr]
    rfl
  · obtain ⟨prs, lprs, l, rfl⟩ := addNodeOrLearner_frame hadd
    exact hr

/-- A node starts as a follower whose unstable entries, if it has any, are of its first term. -/
theorem started_watched {c : Config} {n : RawNode}
    (hn : RawNode.restartNode c = .ok n ∨ ∃ serialize peers, RawNode.startNode serialize c peers = .ok n)
    (hd : Delivered { node := n } d₀) : Watched none n.raft := by
  have hstate := started_follower hn
  have hdated : ∀ e ∈ n.raft.raftLog.unstable.entries, e.term ≤ n.raft.term := by
    refine started_holds (P := fun r => ∀ e ∈ r.raftLog.unstable.entries, e.term ≤ r.term) hn
      (fun r hr e he => ?_) (fun r es log hr _ hterm happend e he => ?_) fun r r' id hr hadd => ?_
    · obtain ⟨-, hun, -⟩ := new_log hr
      rw [hun] at he
      cases he
    · obtain ⟨-, hun, -⟩ := new_log hr
      rcases append_mem happend he with hold | hnew
      · rw [hun] at hold
        cases hold
      · rw [hterm e hnew]
        exact (Raft.reset_term r 1).ge
    · obtain ⟨prs, lprs, l, rfl⟩ := addNodeOrLearner_frame hadd
      exact hr
  refine ⟨hd.stored, hd.unstable, hdated, fun hc => ?_, fun hl => ?_⟩
  · cases hstate.symm.trans hc
  · cases hstate.symm.trans hl

theorem Driver.RunsWith.watched {c : Config} {n : RawNode}
    (hst : IndexedFrom (c.storage.dummy.index + 1) c.storage.ents)
    (happ : c.applied ≤ max c.storage.hardState.commit c.storage.dummy.index)
    (hn : RawNode.restartNode c = .ok n ∨ ∃ serialize peers, RawNode.startNode serialize c peers = .ok n)
    (h : Driver.RunsWith NodeAction.Dated { node := n } s) : Watched s.outstanding s.node.raft := by
  have hinv : Delivery (max c.applied c.storage.dummy.index) s ∧ Watched s.outstanding s.node.raft := by
    induction h with
    | refl =>
        have hd := started_delivery hst happ hn
        exact ⟨hd, started_watched hn hd.delivered⟩
    | tail _ hstep ih => exact ⟨ih.1.step hstep.step, ih.2.driven ih.1 hstep⟩
  exact hinv.2

/-- A proposal that is not refused goes into the log. -/
theorem stepLeader_accepts (hty : msg.type = .msgProp) (h : r.stepLeader msg = .ok (r', .ok)) :
    msg.entries ≠ [] ∧ ∃ r₁, (r.filterConfChanges 0 msg.entries).1.appendEntry (r.filterConfChanges 0 msg.entries).2 =
      .ok (r₁, true) ∧ r'.raftLog = r₁.raftLog := by
  unfold Raft.stepLeader at h
  simp only [hty] at h
  cases leaderProp_proposes h with
  | refuses why status same => cases status
  | drops member settled append status => cases status
  | takes nonempty r₁ append cast status => exact ⟨nonempty, r₁, append, (bcastAppend_posts cast).raftLog⟩

/-- All changes of the configuration before one that a proposal brings are applied, those of the same
proposal among them. -/
theorem Fenced.accepts {out : Option (Ready × Bool)} (h : Fenced out r)
    (hst : IndexedFrom (r.raftLog.storage.dummy.index + 1) r.raftLog.storage.ents)
    (hun : IndexedFrom r.raftLog.unstable.offset r.raftLog.unstable.entries) (hty : msg.type = .msgProp)
    (hs : r.stepLeader msg = .ok (r', .ok)) {e e' : Entry} (he : e ∈ r'.raftLog.log) (he' : e' ∈ r'.raftLog.log)
    (hconf : e.type = entryConfChange) (hconf' : e'.type = entryConfChange) (hnew : r.raftLog.lastIndex < e'.index)
    (hlt : e.index < e'.index) : e.index ≤ r.raftLog.applied := by
  obtain ⟨hne, r₁, happend, hlog⟩ := stepLeader_accepts hty hs
  have hfiltered := filterConfChanges_filtered r 0 msg.entries
  have hlen := filterConfChanges_length r 0 msg.entries
  obtain ⟨p, hframe⟩ := filterConfChanges_frame r 0 msg.entries
  rw [hframe] at happend
  generalize (r.filterConfChanges 0 msg.entries) = q at *
  have hleft : q.2 ≠ [] := by
    intro hnil
    rw [hnil] at hlen
    exact hne (List.length_eq_zero_iff.mp hlen.symm)
  rw [hlog] at he he'
  have hmem := (appendEntry_log (r := { r with pendingConfIndex := p }) hst hun happend).2
  obtain ⟨-, k', e₀', hk', hty', hidx'⟩ : e'.term = r.term ∧ ∃ k e₀, q.2[k]? = some e₀ ∧ e₀.type = e'.type ∧
      e'.index = r.raftLog.lastIndex + 1 + k := by
    refine (hmem e' he').resolve_left fun hold => ?_
    have := hold.2 hleft
    simp only at this
    omega
  rcases hmem e he with ⟨hold, -⟩ | ⟨-, k, e₀, hk, hty₀, hidx⟩
  · have hfence := h.logged e hold hconf
    have hpending := (hfiltered.taken k' e₀' hk' (hty'.trans hconf')).1
    rw [Raft.fence] at hfence
    omega
  · have := hfiltered.settled k k' e₀ e₀' (by simp only at hidx; omega) hk hk' (hty₀.trans hconf) (hty'.trans hconf')
    simp only at hidx
    omega

/-- In every run, from any stored log, with messages whose entries are numbered and of no later term
than their sender's: the pending index of a leader is at or behind every change of the configuration
in its log that it has not applied, and when a proposal puts one into its log, whatever else the
proposal carries, none before it is left to be applied. -/
theorem one_pending_conf_change {c : Config} {n : RawNode}
    (hst : IndexedFrom (c.storage.dummy.index + 1) c.storage.ents)
    (happ : c.applied ≤ max c.storage.hardState.commit c.storage.dummy.index)
    (hn : RawNode.restartNode c = .ok n ∨ ∃ serialize peers, RawNode.startNode serialize c peers = .ok n)
    (h : Driver.RunsWith NodeAction.Dated { node := n } s) (hl : s.node.raft.state = .leader) :
    (∀ e ∈ s.log.logical.entries, e.type = entryConfChange → s.log.applied < e.index →
        e.index ≤ s.node.raft.pendingConfIndex) ∧
      ∀ msg r', msg.type = .msgProp → s.node.raft.stepLeader msg = .ok (r', .ok) →
        ∀ e' ∈ r'.raftLog.logical.entries, e'.type = entryConfChange → s.log.lastIndex < e'.index →
          ∀ e ∈ r'.raftLog.logical.entries, e.type = entryConfChange →
            ¬ (s.log.applied < e.index ∧ e.index < e'.index) := by
  have hwatched := h.watched hst happ hn
  have hfence := hwatched.leader hl
  have hread : ∀ {l : RaftLog} {e : Entry}, e ∈ l.logical.entries → e ∈ l.log := by
    intro l e he
    rw [RaftLog.logical_entries] at he
    exact List.mem_of_mem_filter he
  refine ⟨fun e he hconf hlt => ?_, fun msg r' hty hs e' he' hconf' hnew e he hconf hbetween => ?_⟩
  · have hle := hfence.logged e (hread he) hconf
    rw [Raft.fence] at hle
    change s.node.raft.raftLog.applied < e.index at hlt
    omega
  · have hle := hfence.accepts hwatched.stored hwatched.unstable hty hs (hread he) (hread he') hconf hconf' hnew
      hbetween.2
    exact absurd hbetween.1 (Nat.not_lt.mpr hle)

/-- Two changes of the configuration and an entry in one proposal. -/
def twoChanges : Message :=
  { type := .msgProp, from_ := 1, entries := [{ type := entryConfChange }, { type := entryConfChange }, {}] }

/-- A voter that is alone elects itself; it takes the first of two changes and makes the second an
empty entry. -/
theorem one_pending_conf_change_of_two : ∃ n s r', RawNode.restartNode loneVoter = .ok n ∧
    Driver.RunsWith NodeAction.Dated { node := n } s ∧ s.node.raft.state = .leader ∧
      s.node.raft.stepLeader twoChanges = .ok (r', .ok) ∧ r'.pendingConfIndex = 2 ∧
      r'.raftLog.logical.entries.map (fun e => (e.index, e.type)) = [(1, 0), (2, 1), (3, 0), (4, 0)] ∧
      ∀ e' ∈ r'.raftLog.logical.entries, e'.type = entryConfChange → s.log.lastIndex < e'.index →
        ∀ e ∈ r'.raftLog.logical.entries, e.type = entryConfChange →
          ¬ (s.log.applied < e.index ∧ e.index < e'.index) := by
  obtain ⟨⟨n', r', st⟩, hrun, heval⟩ : ∃ p : RawNode × Raft × Status, (do
      let n ← RawNode.restartNode loneVoter
      let n' ← n.run .campaign
      let p ← n'.raft.stepLeader twoChanges
      .ok (n', p) : Result _) = .ok p ∧
      decide (p.1.raft.state = .leader ∧ p.2.2 = .ok ∧ p.2.1.pendingConfIndex = 2 ∧
        p.2.1.raftLog.logical.entries.map (fun e => (e.index, e.type)) = [(1, 0), (2, 1), (3, 0), (4, 0)]) = true :=
    exists_ok_of_any (by decide +kernel)
  obtain ⟨n, hn, hrun⟩ := bind_ok hrun
  obtain ⟨n₁, hcampaign, hrun⟩ := bind_ok hrun
  obtain ⟨p, hstep, hrun⟩ := bind_ok hrun
  obtain ⟨rfl, rfl⟩ := Prod.mk.inj (Except.ok.inj hrun)
  obtain ⟨hl, rfl, hpending, hentries⟩ := of_decide_eq_true heval
  have hruns : Driver.RunsWith NodeAction.Dated { node := n } { node := n₁ } :=
    .single (.call (a := .campaign) trivial trivial hcampaign)
  obtain ⟨-, hsecond⟩ := one_pending_conf_change (c := loneVoter) (.nil _) (by decide) (Or.inl hn) hruns hl
  exact ⟨n, _, r', hn, hruns, hl, hstep, hpending, hentries, hsecond twoChanges r' rfl hstep⟩

end Runs

end RaftEtcd
