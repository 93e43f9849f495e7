import RaftEtcd.Posts

/-! The roles of a node: what a campaign is, how a node comes to lead, and what a step does to a
node that does not lead. -/
namespace RaftEtcd
variable {r r' r'' c : Raft} {msg : Message}

section Campaign

/-- The tally of a node that has only voted for itself. -/
def Raft.ownVote (r : Raft) : AssocMap Nat Bool := (∅ : AssocMap Nat Bool).insert r.id true

/-- The node as a candidate of the next term. -/
def Raft.standing (r : Raft) : Raft :=
  { r.reset (r.term + 1) with vote := r.id, state := .candidate, votes := r.ownVote }

/-- The node as a candidate that asks whether it would be elected. -/
def Raft.asking (r : Raft) : Raft := { r with votes := r.ownVote, lead := 0, state := .preCandidate }

@[simp] theorem Raft.standing_id (r : Raft) : r.standing.id = r.id := reset_id r _

@[simp] theorem Raft.standing_state (r : Raft) : r.standing.state = .candidate := rfl

@[simp] theorem Raft.standing_votes (r : Raft) : r.standing.votes = r.ownVote := rfl

@[simp] theorem Raft.standing_keys (r : Raft) : r.standing.prs.keys = r.prs.keys := reset_prs_keys r _

@[simp] theorem Raft.standing_msgs (r : Raft) : r.standing.msgs = r.msgs := reset_msgs r _

@[simp] theorem Raft.standing_raftLog (r : Raft) : r.standing.raftLog = r.raftLog := reset_raftLog r _

theorem Raft.quorum_congr (h : r'.prs.keys = r.prs.keys) : r'.quorum = r.quorum := by
  unfold Raft.quorum
  rw [h]

theorem campaignElection_eq (h : r.state ≠ .leader) :
    r.campaignElection = if r.quorum = 1 then r.standing.becomeLeader
      else r.standing.sendVoteRequests .msgVote (r.term + 1) := by
  have hquorum : r.standing.quorum = r.quorum := Raft.quorum_congr r.standing_keys
  have hpoll : Raft.poll { r.reset (r.term + 1) with vote := (r.reset (r.term + 1)).id, state := .candidate }
      (r.reset (r.term + 1)).id true = (r.standing, 1) := by
    simp [Raft.poll, Raft.standing, Raft.ownVote, AssocMap.values]
  simp only [Raft.campaignElection, Raft.becomeCandidate, h, if_false, bind, Except.bind, hpoll, hquorum]
  simp only [Raft.standing, Raft.reset_term]

theorem campaign_eq (h : r.state ≠ .leader) (ty : CampaignType) :
    r.campaign ty = if ty = .preElection then
        if r.quorum = 1 then r.asking.campaignElection else r.asking.sendVoteRequests .msgPreVote (r.term + 1)
      else r.campaignElection := by
  have hpoll : Raft.poll { r with votes := ∅, lead := 0, state := .preCandidate } r.id true = (r.asking, 1) := by
    simp [Raft.poll, Raft.asking, Raft.ownVote, AssocMap.values]
  cases ty with
  | preElection =>
      simp only [Raft.campaign, Raft.becomePreCandidate, h, if_false, bind, Except.bind, hpoll, if_true]
      rfl
  | election => rfl
  | transfer => rfl

/-- The same voters and learners with the same progress. -/
structure SamePeers (r r' : Raft) : Prop where
  prs : r'.prs = r.prs
  learnerPrs : r'.learnerPrs = r.learnerPrs

theorem SamePeers.trans (h : SamePeers r r') (h' : SamePeers r' r'') : SamePeers r r'' :=
  ⟨h'.prs.trans h.prs, h'.learnerPrs.trans h.learnerPrs⟩

/-- The same voters and learners, whatever is known about them. -/
structure SameMembers (r r' : Raft) : Prop where
  id : r'.id = r.id
  isLearner : r'.isLearner = r.isLearner
  voters : SameKind r.prs r'.prs
  learners : SameKind r.learnerPrs r'.learnerPrs

namespace SameMembers

theorem of_same (hid : r'.id = r.id) (hlearner : r'.isLearner = r.isLearner) (h : SamePeers r r') : SameMembers r r' where
  id := hid
  isLearner := hlearner
  voters := h.prs ▸ .refl _
  learners := h.learnerPrs ▸ .refl _

theorem refl (r : Raft) : SameMembers r r := .of_same rfl rfl ⟨rfl, rfl⟩

theorem trans (h : SameMembers r r') (h' : SameMembers r' r'') : SameMembers r r'' :=
  ⟨h'.id.trans h.id, h'.isLearner.trans h.isLearner, h.voters.trans h'.voters, h.learners.trans h'.learners⟩

theorem reset (r : Raft) (t : Nat) : SameMembers r (r.reset t) where
  id := Raft.reset_id r t
  isLearner := Raft.reset_isLearner r t
  voters := by
    rw [Raft.reset_prs]
    exact .mapVal fun _ _ => rfl
  learners := by
    rw [Raft.reset_learnerPrs]
    exact .mapVal fun _ _ => rfl

theorem of_posts (h : Posts r r') : SameMembers r r' := by
  obtain ⟨prs, lprs, msgs, heq⟩ := h.rest
  exact ⟨by rw [heq], by rw [heq], h.voters.sameKind, h.learners.sameKind⟩

end SameMembers

/-- The maps are disjoint, and every flag says which one holds the node. -/
structure Raft.Configured (r : Raft) : Prop where
  disjoint : ∀ id ∈ r.prs.keys, id ∉ r.learnerPrs.keys
  voters : ∀ id p, r.prs.lookup id = some p → p.isLearner = false
  learners : ∀ id p, r.learnerPrs.lookup id = some p → p.isLearner = true
  voter : r.id ∈ r.prs.keys → r.isLearner = false
  learner : r.id ∈ r.learnerPrs.keys → r.isLearner = true

namespace Raft.Configured

theorem congr (h : r.Configured) (hm : SameMembers r r') : r'.Configured where
  disjoint id hid := by
    rw [hm.voters.keys] at hid
    rw [hm.learners.keys]
    exact h.disjoint id hid
  voters id p hp := by
    obtain ⟨q, hq, heq⟩ := hm.voters.lookup hp
    rw [← heq]
    exact h.voters id q hq
  learners id p hp := by
    obtain ⟨q, hq, heq⟩ := hm.learners.lookup hp
    rw [← heq]
    exact h.learners id q hq
  voter hid := by
    rw [hm.id, hm.voters.keys] at hid
    rw [hm.isLearner]
    exact h.voter hid
  learner hid := by
    rw [hm.id, hm.learners.keys] at hid
    rw [hm.isLearner]
    exact h.learner hid

theorem of_empty (hprs : r.prs = ∅) (hlearners : r.learnerPrs = ∅) : r.Configured := by
  refine ⟨?_, ?_, ?_, ?_, ?_⟩
  · rw [hprs]
    exact nofun
  · rw [hprs]
    exact nofun
  · rw [hlearners]
    exact nofun
  · rw [hprs]
    exact nofun
  · rw [hlearners]
    exact nofun

/-- A node becomes a voter, whatever it was. -/
theorem insert_voter (h : r.Configured) {id : Nat} {p : Progress} (hp : p.isLearner = false) (hid : r'.id = r.id)
    (hprs : r'.prs = r.prs.insert id p) (hlearners : r'.learnerPrs = r.learnerPrs.erase id)
    (hself : r'.isLearner = if r.id = id then false else r.isLearner) : r'.Configured where
  disjoint k hk := by
    rw [hprs, AList.keys_insert, List.mem_cons] at hk
    rw [hlearners, AList.keys_erase]
    rcases hk with rfl | hk
    · exact fun hmem => (List.Nodup.mem_erase_iff (AList.keys_nodup _)).mp hmem |>.1 rfl
    · exact fun hmem => h.disjoint k (List.mem_of_mem_erase hk) (List.mem_of_mem_erase hmem)
  voters k q hq := by
    rw [hprs] at hq
    by_cases hk : k = id
    · subst hk
      rw [AList.lookup_insert] at hq
      rwa [← Option.some.inj hq]
    · rw [AList.lookup_insert_ne hk] at hq
      exact h.voters k q hq
  learners k q hq := by
    rw [hlearners] at hq
    by_cases hk : k = id
    · subst hk
      rw [AList.lookup_erase] at hq
      cases hq
    · rw [AList.lookup_erase_ne hk] at hq
      exact h.learners k q hq
  voter hmem := by
    rw [hid, hprs, AList.keys_insert, List.mem_cons] at hmem
    rw [hself]
    split
    · rfl
    · rename_i hne
      exact h.voter (List.mem_of_mem_erase (hmem.resolve_left hne))
  learner hmem := by
    rw [hid, hlearners, AList.keys_erase, List.Nodup.mem_erase_iff (AList.keys_nodup _)] at hmem
    rw [hself, if_neg hmem.1]
    exact h.learner hmem.2

/-- A node that is no voter becomes a learner. -/
theorem insert_learner (h : r.Configured) {id : Nat} {p : Progress} (hp : p.isLearner = true) (hnew : id ∉ r.prs.keys)
    (hid : r'.id = r.id) (hprs : r'.prs = r.prs) (hlearners : r'.learnerPrs = r.learnerPrs.insert id p)
    (hself : r'.isLearner = if r.id = id then true else r.isLearner) : r'.Configured where
  disjoint k hk := by
    rw [hprs] at hk
    rw [hlearners, AList.keys_insert, List.mem_cons]
    rintro (rfl | hmem)
    · exact hnew hk
    · exact h.disjoint k hk (List.mem_of_mem_erase hmem)
  voters k q hq := by
    rw [hprs] at hq
    exact h.voters k q hq
  learners k q hq := by
    rw [hlearners] at hq
    by_cases hk : k = id
    · subst hk
      rw [AList.lookup_insert] at hq
      rwa [← Option.some.inj hq]
    · rw [AList.lookup_insert_ne hk] at hq
      exact h.learners k q hq
  voter hmem := by
    rw [hid, hprs] at hmem
    have hne : r.id ≠ id := fun heq => hnew (heq ▸ hmem)
    rw [hself, if_neg hne]
    exact h.voter hmem
  learner hmem := by
    rw [hid, hlearners, AList.keys_insert, List.mem_cons] at hmem
    rw [hself]
    split
    · rfl
    · rename_i hne
      exact h.learner (List.mem_of_mem_erase (hmem.resolve_left hne))

end Raft.Configured

/-- A new leader has a progress of its own. It starts its term with an empty entry, counts every
entry before as a change of the configuration that may be pending, and tells nobody yet. -/
structure NewLeader (r r' : Raft) : Prop where
  member : r.id ∈ r.prs.keys
  id : r'.id = r.id
  term : r'.term = r.term
  state : r'.state = .leader
  msgs : r'.msgs = r.msgs
  members : SameMembers r r'
  pending : r'.pendingConfIndex = r.raftLog.lastIndex
  log : ∃ log committed, r.raftLog.append (Raft.stampEntries r.term (r.raftLog.lastIndex + 1) [{}]) = .ok log ∧
    r'.raftLog = { log with committed := committed }

theorem becomeLeader_new (h : r.becomeLeader = .ok r') : NewLeader r r' := by
  obtain ⟨pr, r₁, hpr, happ, rfl⟩ := becomeLeader_spec h
  have hmember : r.id ∈ r.prs.keys := by
    rw [Raft.reset_id] at hpr
    have hsome := (AssocMap.lookup_isSome_iff (r.reset r.term).prs r.id).mp (by rw [hpr]; rfl)
    rwa [Raft.reset_prs_keys] at hsome
  have hown : SameKind (r.reset r.term).prs
      (AssocMap.modify (r.reset r.term).id Progress.becomeReplicate (r.reset r.term).prs) :=
    .mapVal fun _ p => by split <;> rfl
  obtain ⟨hdropped, -⟩ | ⟨-, -, log, c, prs, lprs, u, hlog, hvoters, hlearners, rfl⟩ := appendEntry_frame happ
  · cases hdropped
  simp only [Raft.reset_raftLog, Raft.reset_term] at hlog
  have hreset := SameMembers.reset r r.term
  have hkinds := hreset.voters.trans (hown.trans hvoters.sameKind)
  have hlearnerKinds := hreset.learners.trans hlearners.sameKind
  rw [Raft.reduceUncommittedSize_eq]
  exact ⟨hmember, by simp, by simp, rfl, by simp, ⟨hreset.id, hreset.isLearner, hkinds, hlearnerKinds⟩, by simp, log,
    c, hlog, rfl⟩

/-- A request for a vote as `campaign` writes it: it says where the log of the node ends, and
nothing about a transfer. -/
structure Raft.Requests (r : Raft) (m : Message) : Prop where
  from_ : m.from_ = r.id
  index : m.index = r.raftLog.lastIndex
  logTerm : r.raftLog.lastTerm = .ok m.logTerm
  context : m.context = []

theorem sendVoteRequests_spec {ty : MessageType} {t : Nat} (h : r.sendVoteRequests ty t = .ok r') :
    ∃ ms, r' = { r with msgs := r.msgs ++ ms } ∧ ∀ m ∈ ms, m.type = ty ∧ r.Requests m := by
  unfold Raft.sendVoteRequests at h
  generalize r.prs.keys.filter (fun id => id ≠ r.id) = ids at h
  -- the rounds before have only added messages
  have hgen : ∀ (ids : List Nat) (sent : List Message), ids.foldlM (fun r id => do
        let logTerm ← r.raftLog.lastTerm
        r.send { term := t, to_ := id, type := ty, index := r.raftLog.lastIndex, logTerm := logTerm })
        { r with msgs := sent } = .ok r' →
      ∃ ms, r' = { r with msgs := sent ++ ms } ∧ ∀ m ∈ ms, m.type = ty ∧ r.Requests m := by
    intro ids
    induction ids with
    | nil =>
        intro sent hfold
        rw [List.foldlM_nil] at hfold
        refine ⟨[], ?_, nofun⟩
        rw [← Except.ok.inj hfold, List.append_nil]
    | cons id ids ih =>
        intro sent hfold
        rw [List.foldlM_cons] at hfold
        obtain ⟨g, hround, hfold⟩ := bind_ok hfold
        obtain ⟨lt, hlt, hsend⟩ := bind_ok hround
        obtain ⟨t', rfl, -, -⟩ := send_spec hsend
        obtain ⟨ms, hms, hall⟩ := ih _ hfold
        simp only [List.append_assoc, List.singleton_append] at hms
        refine ⟨_, hms, fun m hm => ?_⟩
        rcases List.mem_cons.mp hm with rfl | hm
        · exact ⟨rfl, rfl, rfl, hlt, rfl⟩
        · exact hall m hm
  exact hgen ids r.msgs h

/-- The node has sent nothing that only a leader sends. -/
structure Quiet (r r' : Raft) : Prop where
  id : r'.id = r.id
  msgs : ∃ ms, r'.msgs = r.msgs ++ ms ∧ ∀ m ∈ ms, m.type.isReplication = false

namespace Quiet

theorem of_same (hid : r'.id = r.id) (hmsgs : r'.msgs = r.msgs) : Quiet r r' :=
  ⟨hid, [], by rw [hmsgs, List.append_nil], nofun⟩

theorem refl (r : Raft) : Quiet r r := .of_same rfl rfl

theorem trans (h : Quiet r r') (h' : Quiet r' r'') : Quiet r r'' := by
  obtain ⟨ms, hms, hall⟩ := h.msgs
  obtain ⟨ms', hms', hall'⟩ := h'.msgs
  refine ⟨h'.id.trans h.id, ms ++ ms', by rw [hms', hms, List.append_assoc], fun m hm => ?_⟩
  rcases List.mem_append.mp hm with hm | hm
  · exact hall m hm
  · exact hall' m hm

theorem send {m : Message} (hm : m.type.isReplication = false) (h : r.send m = .ok r') : Quiet r r' := by
  obtain ⟨t, rfl, -, -⟩ := send_spec h
  refine ⟨rfl, [_], rfl, fun m' hm' => ?_⟩
  rw [List.mem_singleton.mp hm']
  exact hm

end Quiet

/-- The node knows of no entry that another one holds. -/
structure Raft.Unmatched (r : Raft) : Prop where
  voters : ∀ id p, id ≠ r.id → r.prs.lookup id = some p → p.matched = 0
  learners : ∀ id p, id ≠ r.id → r.learnerPrs.lookup id = some p → p.matched = 0

theorem Raft.Unmatched.congr (h : r.Unmatched) (hid : r'.id = r.id) (hpeers : SamePeers r r') : r'.Unmatched := by
  refine ⟨?_, ?_⟩
  · rw [hid, hpeers.prs]
    exact h.voters
  · rw [hid, hpeers.learnerPrs]
    exact h.learners

theorem reset_unmatched (r : Raft) (t : Nat) : (r.reset t).Unmatched := by
  have hfresh : ∀ (m : AssocMap Nat Progress) id p, id ≠ r.id → (AssocMap.mapVal r.resetProgress m).lookup id = some p →
      p.matched = 0 := by
    intro m id p hne hp
    rw [AssocMap.lookup_mapVal] at hp
    obtain ⟨q, -, rfl⟩ := Option.map_eq_some_iff.mp hp
    exact if_neg hne
  refine ⟨?_, ?_⟩
  · rw [Raft.reset_id, Raft.reset_prs]
    exact hfresh r.prs
  · rw [Raft.reset_id, Raft.reset_learnerPrs]
    exact hfresh r.learnerPrs

/-- What a campaign leaves: a leader, or a candidate that asks the others. -/
structure Campaigned (r r' : Raft) : Prop where
  quiet : Quiet r r'
  members : SameMembers r r'
  role : r'.state = .leader ∨ r'.state ≠ .follower ∧ r'.votes = r.ownVote
  peers : r'.state = .leader ∨ r.state ≠ .leader ∧ SamePeers r r' ∨ r'.Unmatched

theorem campaignElection_campaigned (hr : r.state ≠ .leader) (h : r.campaignElection = .ok r') : Campaigned r r' := by
  rw [campaignElection_eq hr] at h
  have hstanding : SameMembers r r.standing := (SameMembers.reset r (r.term + 1)).trans (.of_same rfl rfl ⟨rfl, rfl⟩)
  split at h
  · have hnew := becomeLeader_new h
    exact ⟨.of_same (by simp [hnew.id]) (by simp [hnew.msgs]), hstanding.trans hnew.members, Or.inl hnew.state,
      Or.inl hnew.state⟩
  · obtain ⟨ms, rfl, hall⟩ := sendVoteRequests_spec h
    have hunmatched : r.standing.Unmatched := (reset_unmatched r (r.term + 1)).congr rfl ⟨rfl, rfl⟩
    refine ⟨⟨by simp, ms, by simp, fun m hm => ?_⟩, hstanding.trans (.of_same rfl rfl ⟨rfl, rfl⟩),
      Or.inr ⟨by simp, rfl⟩, Or.inr (Or.inr (hunmatched.congr rfl ⟨rfl, rfl⟩))⟩
    rw [(hall m hm).1]
    rfl

theorem campaign_campaigned {ty : CampaignType} (hr : r.state ≠ .leader) (h : r.campaign ty = .ok r') :
    Campaigned r r' := by
  rw [campaign_eq hr] at h
  have hasking : SameMembers r r.asking := .of_same rfl rfl ⟨rfl, rfl⟩
  split at h
  · split at h
    · obtain ⟨hquiet, hmembers, hrole, hpeers⟩ := campaignElection_campaigned (by simp [Raft.asking]) h
      exact ⟨⟨hquiet.id, hquiet.msgs⟩, hasking.trans hmembers, hrole,
        hpeers.imp_right (Or.imp_left fun h => ⟨hr, h.2.prs, h.2.learnerPrs⟩)⟩
    · obtain ⟨ms, rfl, hall⟩ := sendVoteRequests_spec h
      refine ⟨⟨rfl, ms, rfl, fun m hm => ?_⟩, hasking.trans (.of_same rfl rfl ⟨rfl, rfl⟩),
        Or.inr ⟨by simp [Raft.asking], rfl⟩, Or.inr (Or.inl ⟨hr, rfl, rfl⟩)⟩
      rw [(hall m hm).1]
      rfl
  · exact campaignElection_campaigned hr h

end Campaign

section Handlers

/-- A handler that leaves the role alone, and either the peers as well or none that is matched. Only
a snapshot brings other members. -/
structure Serves (r r' : Raft) : Prop where
  quiet : Quiet r r'
  state : r'.state = r.state
  peers : SamePeers r r' ∨ r'.Unmatched
  members : SameMembers r r' ∨ r'.Configured

theorem send_serves {m : Message} (hm : m.type.isReplication = false) (h : r.send m = .ok r') : Serves r r' := by
  have hquiet := Quiet.send hm h
  obtain ⟨t, rfl, -, -⟩ := send_spec h
  exact ⟨hquiet, rfl, Or.inl ⟨rfl, rfl⟩, Or.inl (.of_same rfl rfl ⟨rfl, rfl⟩)⟩

theorem Serves.trans (h : Serves r r') (h' : Serves r' r'') : Serves r r'' where
  quiet := h.quiet.trans h'.quiet
  state := h'.state.trans h.state
  peers := by
    rcases h'.peers with hp' | hp'
    · exact h.peers.imp (·.trans hp') (·.congr h'.quiet.id hp')
    · exact Or.inr hp'
  members := by
    rcases h'.members with hm' | hm'
    · exact h.members.imp (·.trans hm') (·.congr hm')
    · exact Or.inr hm'

theorem handleAppendEntries_serves (h : r.handleAppendEntries msg = .ok r') : Serves r r' := by
  obtain ⟨log, m, hty, -, hsent⟩ := handleAppendEntries_cases h
  have hlog : Serves r { r with raftLog := log } :=
    ⟨.of_same rfl rfl, rfl, Or.inl ⟨rfl, rfl⟩, Or.inl (.of_same rfl rfl ⟨rfl, rfl⟩)⟩
  exact hlog.trans (send_serves (by rw [hty]; rfl) hsent)

theorem handleHeartbeat_serves (h : r.handleHeartbeat msg = .ok r') : Serves r r' := by
  obtain ⟨log, -, h⟩ := bind_ok h
  have hlog : Serves r { r with raftLog := log } :=
      ⟨.of_same rfl rfl, rfl, Or.inl ⟨rfl, rfl⟩, Or.inl (.of_same rfl rfl ⟨rfl, rfl⟩)⟩
  exact hlog.trans (send_serves rfl h)

theorem setProgress_unmatched {id matched next : Nat} {b : Bool} (hmatched : id ≠ r.id → matched = 0)
    (hu : r.Unmatched) (h : r.setProgress id matched next b = .ok r') : r'.Unmatched := by
  -- a map that gets one more progress
  have hinsert : ∀ (m : AssocMap Nat Progress) (q : Progress), q.matched = matched →
      (∀ k p, k ≠ r.id → m.lookup k = some p → p.matched = 0) →
      ∀ k p, k ≠ r.id → (m.insert id q).lookup k = some p → p.matched = 0 := by
    intro m q hq hm k p hne hp
    by_cases hk : k = id
    · subst hk
      rw [AList.lookup_insert] at hp
      rw [← Option.some.inj hp, hq]
      exact hmatched hne
    · rw [AList.lookup_insert_ne hk] at hp
      exact hm k p hne hp
  unfold Raft.setProgress at h
  simp only at h
  split at h
  · rw [← Except.ok.inj h]
    refine ⟨hinsert r.prs _ rfl hu.voters, fun k p hne hp => ?_⟩
    by_cases hk : k = id
    · subst hk
      simp only [AList.lookup_erase] at hp
      cases hp
    · simp only [AList.lookup_erase_ne hk] at hp
      exact hu.learners k p hne hp
  split at h
  · cases h
  · rw [← Except.ok.inj h]
    exact ⟨hu.voters, hinsert r.learnerPrs _ rfl hu.learners⟩

theorem restoreNode_unmatched {ids : List Nat} {b : Bool} (hu : r.Unmatched) (h : r.restoreNode ids b = .ok r') :
    r'.Unmatched := by
  unfold Raft.restoreNode at h
  induction ids generalizing r with
  | nil =>
      rw [← Except.ok.inj h]
      exact hu
  | cons id ids ih =>
      rw [List.foldlM_cons] at h
      obtain ⟨r₂, h₂, h⟩ := bind_ok h
      refine ih ?_ h
      obtain ⟨r₁, h₁, h₂⟩ := bind_ok h₂
      have hu₁ : r₁.Unmatched := by
        refine setProgress_unmatched ?_ ?_ h₁
        · intro hne
          split at hne
          · rename_i heq
            exact absurd heq hne
          · rename_i hne'
            exact if_neg hne'
        · split
          · exact hu.congr rfl ⟨rfl, rfl⟩
          · exact hu
      split at h₂
      · cases h₂
      · rwa [← Except.ok.inj h₂]

/-- The flag of the node itself is set when a round names it, the progress follows. -/
theorem setProgress_configured {g : Raft} {id matched next : Nat} {b : Bool} (hr : r.Configured)
    (hg : g = if id = r.id then { r with isLearner := b } else r) (h : g.setProgress id matched next b = .ok r') :
    r'.Configured := by
  have hself : g = { r with isLearner := if r.id = id then b else r.isLearner } := by
    rw [hg]
    by_cases hid : id = r.id
    · rw [if_pos hid, if_pos hid.symm]
    · rw [if_neg hid, if_neg (Ne.symm hid)]
  rw [hself] at h
  unfold Raft.setProgress at h
  simp only at h
  split at h
  · rename_i hb
    rw [← Except.ok.inj h]
    refine hr.insert_voter rfl rfl rfl rfl ?_
    simp only at hb ⊢
    rw [Bool.not_eq_true' b |>.mp hb]
  rename_i hb
  split at h
  · cases h
  · rename_i hnew
    rw [← Except.ok.inj h]
    refine hr.insert_learner rfl ?_ rfl rfl rfl ?_
    · rwa [AssocMap.lookup_isSome_iff] at hnew
    · simp only at hb ⊢
      rw [show b = true by simpa using hb]

theorem restoreNode_configured {ids : List Nat} {b : Bool} (hr : r.Configured) (h : r.restoreNode ids b = .ok r') :
    r'.Configured := by
  unfold Raft.restoreNode at h
  induction ids generalizing r with
  | nil =>
      rw [← Except.ok.inj h]
      exact hr
  | cons id ids ih =>
      rw [List.foldlM_cons] at h
      obtain ⟨r₂, h₂, h⟩ := bind_ok h
      refine ih ?_ h
      obtain ⟨r₁, h₁, h₂⟩ := bind_ok h₂
      split at h₂
      · cases h₂
      · rw [← Except.ok.inj h₂]
        exact setProgress_configured hr rfl h₁

theorem restore_serves {s : Snapshot} {b : Bool} (h : r.restore s = .ok (r', b)) : Serves r r' := by
  have hframe := restore_spec h
  suffices hpeers : SamePeers r r' ∧ SameMembers r r' ∨ r'.Unmatched ∧ r'.Configured by
    refine ⟨?_, ?_, hpeers.imp And.left And.left, hpeers.imp And.right And.right⟩
    · rcases hframe with rfl | ⟨log, -, rfl⟩ | ⟨-, prs, lprs, l, rfl⟩
      · exact .refl _
      · exact .of_same rfl rfl
      · exact .of_same rfl rfl
    · rcases hframe with rfl | ⟨log, -, rfl⟩ | ⟨-, prs, lprs, l, rfl⟩ <;> rfl
  have hsame : ∀ {g : Raft} {b' : Bool}, (Except.ok (g, b') : Result _) = .ok (r', b) → SamePeers r g →
      SameMembers r g → SamePeers r r' ∧ SameMembers r r' ∨ r'.Unmatched ∧ r'.Configured := by
    intro g b' h hpeers hmembers
    rw [← (Prod.mk.inj (Except.ok.inj h)).1]
    exact Or.inl ⟨hpeers, hmembers⟩
  unfold Raft.restore at h
  split at h
  · exact hsame h ⟨rfl, rfl⟩ (.refl r)
  split at h
  · obtain ⟨log, -, h⟩ := bind_ok h
    exact hsame h ⟨rfl, rfl⟩ (.of_same rfl rfl ⟨rfl, rfl⟩)
  split at h
  · exact hsame h ⟨rfl, rfl⟩ (.refl r)
  · obtain ⟨r₁, h₁, h⟩ := bind_ok h
    obtain ⟨r₂, h₂, h⟩ := bind_ok h
    rw [← (Prod.mk.inj (Except.ok.inj h)).1]
    have hempty : ∀ g : Raft, g.prs = ∅ → g.learnerPrs = ∅ → g.Unmatched := by
      intro g hprs hlearners
      refine ⟨fun id p _ hp => ?_, fun id p _ hp => ?_⟩
      · rw [hprs] at hp
        cases hp
      · rw [hlearners] at hp
        cases hp
    exact Or.inr ⟨restoreNode_unmatched (restoreNode_unmatched (hempty _ rfl rfl) h₁) h₂,
      restoreNode_configured (restoreNode_configured (.of_empty rfl rfl) h₁) h₂⟩

theorem handleSnapshot_serves (h : r.handleSnapshot msg = .ok r') : Serves r r' := by
  obtain ⟨⟨r₁, b⟩, h₁, h⟩ := bind_ok h
  exact (restore_serves h₁).trans (send_serves rfl h)

theorem becomeFollower_quiet (r : Raft) (t lead : Nat) : Quiet r (r.becomeFollower t lead) :=
  .of_same (by simp [Raft.becomeFollower]) (by simp [Raft.becomeFollower])

theorem becomeFollower_members (r : Raft) (t lead : Nat) : SameMembers r (r.becomeFollower t lead) :=
  (SameMembers.reset r t).trans (.of_same rfl rfl ⟨rfl, rfl⟩)

theorem becomeFollower_unmatched (r : Raft) (t lead : Nat) : (r.becomeFollower t lead).Unmatched :=
  (reset_unmatched r t).congr rfl ⟨rfl, rfl⟩

/-- A refused change of the configuration is replaced. -/
theorem filterConfChanges_length (r : Raft) (i : Nat) (es : List Entry) :
    (r.filterConfChanges i es).2.length = es.length := by
  induction es generalizing r i with
  | nil => rfl
  | cons e es ih =>
      unfold Raft.filterConfChanges
      split
      · split
        · exact congrArg (· + 1) (ih r (i + 1))
        · exact congrArg (· + 1) (ih _ (i + 1))
      · exact congrArg (· + 1) (ih r (i + 1))

end Handlers

/-- What a step does to a node that does not lead. -/
inductive Turns (msg : Message) (r r' : Raft) : Prop
  | follows (quiet : Quiet r r') (state : r'.state = .follower)
      (peers : r.state = .follower ∧ SamePeers r r' ∨ r'.Unmatched) (members : SameMembers r r' ∨ r'.Configured)
  | stays (quiet : Quiet r r') (state : r'.state = r.state) (votes : r'.votes = r.votes) (peers : SamePeers r r')
      (members : SameMembers r r')
  | tallies (role : r.state = .candidate ∨ r.state = .preCandidate)
      (type : msg.type = .msgVoteResp ∨ msg.type = .msgPreVoteResp) (tally : r' = (r.poll msg.from_ (!msg.reject)).1)
  | campaigns (guard : msg.type = .msgHup ∧ (r.state = .leader → msg.term ≠ 0) ∨
        msg.type = .msgTimeoutNow ∧ r.promotable = true ∨
        (msg.type = .msgVoteResp ∨ msg.type = .msgPreVoteResp) ∧ r.state = .preCandidate)
      (campaigned : Campaigned r r')
  | wins (role : r.state = .candidate) (type : msg.type = .msgVoteResp ∨ msg.type = .msgPreVoteResp) (l : Raft)
      (lead : (r.poll msg.from_ (!msg.reject)).1.becomeLeader = .ok l) (posts : Posts l r')

section Steps

theorem Turns.refl (msg : Message) (r : Raft) : Turns msg r r := .stays (.refl r) rfl rfl ⟨rfl, rfl⟩ (.refl r)

theorem send_turns {m : Message} (hm : m.type.isReplication = false) (h : r.send m = .ok r') : Turns msg r r' := by
  have hquiet := Quiet.send hm h
  obtain ⟨t, rfl, -, -⟩ := send_spec h
  exact .stays hquiet rfl rfl ⟨rfl, rfl⟩ (.of_same rfl rfl ⟨rfl, rfl⟩)

/-- A node that follows first turns as a follower does. -/
theorem Turns.after_follow {t lead : Nat} (hterm : msg.term ≠ 0) (h : Turns msg (r.becomeFollower t lead) r') : Turns msg r r' := by
  have hfollow := becomeFollower_quiet r t lead
  have hreset := becomeFollower_unmatched r t lead
  have hkept := becomeFollower_members r t lead
  cases h with
  | follows quiet state peers members =>
      refine .follows (hfollow.trans quiet) state (Or.inr ?_) (members.imp_left hkept.trans)
      rcases peers with ⟨-, hprs⟩ | hunmatched
      · exact hreset.congr quiet.id hprs
      · exact hunmatched
  | stays quiet state votes peers members =>
      exact .follows (hfollow.trans quiet) state (Or.inr (hreset.congr quiet.id peers)) (Or.inl (hkept.trans members))
  | tallies role type tally => rcases role with role | role <;> cases role
  | campaigns guard campaigned =>
      have hkeys : (r.becomeFollower t lead).prs.keys = r.prs.keys := Raft.reset_prs_keys r t
      refine .campaigns ?_ ⟨hfollow.trans campaigned.quiet, hkept.trans campaigned.members, ?_, ?_⟩
      · refine guard.imp (fun hg => ⟨hg.1, fun _ => hterm⟩) fun hg => Or.inl ?_
        rcases hg with ⟨hty, hg⟩ | ⟨-, hg⟩
        · refine ⟨hty, ?_⟩
          rw [Raft.promotable, AssocMap.lookup_isSome_iff] at hg ⊢
          rwa [hkeys, hfollow.id] at hg
        · cases hg
      · rw [Raft.ownVote, ← hfollow.id]
        exact campaigned.role
      · refine campaigned.peers.imp_right fun hpeers => Or.inr ?_
        rcases hpeers with ⟨-, hprs⟩ | hunmatched
        · exact hreset.congr campaigned.quiet.id hprs
        · exact hunmatched
  | wins role type l lead posts => cases role

theorem stepHup_turns (hty : msg.type = .msgHup) (h : r.stepHup = .ok r') : Turns msg r r' := by
  rcases stepHup_cases h with rfl | ⟨hr, hcampaign⟩
  · exact .refl msg r'
  · exact .campaigns (Or.inl ⟨hty, fun hl => absurd hl hr⟩) (campaign_campaigned hr hcampaign)

theorem voteRespMsgType_quiet {ty ty' : MessageType} (h : voteRespMsgType ty = .ok ty') : ty'.isReplication = false := by
  unfold voteRespMsgType at h
  split at h
  · obtain rfl := Except.ok.inj h
    rfl
  · obtain rfl := Except.ok.inj h
    rfl
  · cases h

theorem stepVote_turns (h : r.stepVote msg = .ok r') : Turns msg r r' := by
  cases stepVote_votes h with
  | learns learner same =>
      rw [same]
      exact .refl msg r
  | grants voter type answer free upToDate r₁ sent noted =>
      have hsent := Quiet.send (voteRespMsgType_quiet answer) sent
      obtain ⟨t, rfl, -, -⟩ := send_spec sent
      rw [noted]
      split
      · exact .stays ⟨hsent.id, hsent.msgs⟩ rfl rfl ⟨rfl, rfl⟩ (.of_same rfl rfl ⟨rfl, rfl⟩)
      · exact .stays hsent rfl rfl ⟨rfl, rfl⟩ (.of_same rfl rfl ⟨rfl, rfl⟩)
  | refuses type answer sent => exact send_turns (voteRespMsgType_quiet answer) sent

theorem stepFollower_turns (hf : r.state = .follower) {st : Status} (h : r.stepFollower msg = .ok (r', st)) :
    Turns msg r r' := by
  have hlead : Quiet r { r with electionElapsed := 0, lead := msg.from_ } := .of_same rfl rfl
  have hkept : SameMembers r { r with electionElapsed := 0, lead := msg.from_ } := .of_same rfl rfl ⟨rfl, rfl⟩
  -- a handler that leaves the role alone
  have hserve : ∀ {g : Raft}, Serves { r with electionElapsed := 0, lead := msg.from_ } g → Turns msg r g := fun hg =>
    .follows (hlead.trans hg.quiet) (hg.state.trans hf) (hg.peers.imp_left fun h => ⟨hf, h.prs, h.learnerPrs⟩)
      (hg.members.imp_left hkept.trans)
  cases stepFollower_step h with
  | keeps unread same =>
      rw [same]
      exact .refl msg r
  | forwards type sent =>
      refine send_turns ?_ sent
      rcases type with type | type | type <;> simp [type, MessageType.isReplication]
  | appends type handled => exact hserve (handleAppendEntries_serves handled)
  | beats type handled => exact hserve (handleHeartbeat_serves handled)
  | restores type handled => exact hserve (handleSnapshot_serves handled)
  | stands type promotable campaign =>
      exact .campaigns (Or.inr (Or.inl ⟨type, promotable⟩)) (campaign_campaigned (by simp [hf]) campaign)
  | reads type e one noted =>
      rw [noted]
      exact .stays (.of_same rfl rfl) rfl rfl ⟨rfl, rfl⟩ (.of_same rfl rfl ⟨rfl, rfl⟩)

/-- Only a snapshot brings other members to a node that does not lead. -/
theorem Turns.members (h : Turns msg r r') : SameMembers r r' ∨ r'.Configured := by
  have hpoll : SameMembers r (r.poll msg.from_ (!msg.reject)).1 := by
    obtain ⟨votes, hpoll⟩ := poll_frame r msg.from_ (!msg.reject)
    rw [hpoll]
    exact .of_same rfl rfl ⟨rfl, rfl⟩
  cases h with
  | follows quiet state peers members => exact members
  | stays quiet state votes peers members => exact Or.inl members
  | tallies role type tally =>
      rw [tally]
      exact Or.inl hpoll
  | campaigns guard campaigned => exact Or.inl campaigned.members
  | wins role type l lead posts => exact Or.inl (hpoll.trans ((becomeLeader_new lead).members.trans (.of_posts posts)))

theorem stepCandidate_turns (hc : r.state = .candidate ∨ r.state = .preCandidate) {st : Status}
    (h : r.stepCandidate msg = .ok (r', st)) : Turns msg r r' := by
  -- a message of the leader makes a follower of the node before it is handled
  have hserve : ∀ {g : Raft}, Serves (r.becomeFollower msg.term msg.from_) g → Turns msg r g := by
    intro g hg
    refine .follows ((becomeFollower_quiet r _ _).trans hg.quiet) hg.state (Or.inr ?_)
      (hg.members.imp_left (becomeFollower_members r _ _).trans)
    rcases hg.peers with hprs | hunmatched
    · exact (becomeFollower_unmatched r _ _).congr hg.quiet.id hprs
    · exact hunmatched
  cases stepCandidate_step h with
  | keeps same =>
      rw [same]
      exact .refl msg r
  | appends type handled => exact hserve (handleAppendEntries_serves handled)
  | beats type handled => exact hserve (handleHeartbeat_serves handled)
  | restores type handled => exact hserve (handleSnapshot_serves handled)
  | counts type c polled votes frame tally =>
      subst polled
      have hsame : Quiet r (r.poll msg.from_ (!msg.reject)).1 := by
        rw [frame]
        exact .of_same rfl rfl
      have hkept : SameMembers r (r.poll msg.from_ (!msg.reject)).1 := by
        rw [frame]
        exact .of_same rfl rfl ⟨rfl, rfl⟩
      cases tally with
      | stands quorum role campaign =>
          obtain ⟨hquiet, hmembers, hrole, hpeers⟩ := campaign_campaigned (by simp [role]) campaign
          refine .campaigns (Or.inr (Or.inr ⟨type, ?_⟩)) ⟨hsame.trans hquiet, hkept.trans hmembers, ?_, ?_⟩
          · rwa [frame] at role
          · rwa [frame] at hrole
          · rw [frame] at hpeers
            exact hpeers.imp_right (Or.imp_left fun h => ⟨h.1, h.2.prs, h.2.learnerPrs⟩)
      | wins quorum role l lead cast => exact .wins (by rwa [frame] at role) type l lead (bcastAppend_posts cast)
      | loses follows =>
          rw [follows]
          exact .follows (hsame.trans (becomeFollower_quiet _ _ _)) rfl (Or.inr (becomeFollower_unmatched _ _ _))
            (Or.inl (hkept.trans (becomeFollower_members _ _ _)))
      | waits same => exact .tallies hc type same

theorem stepBody_turns {st : Status} (h : r.stepBody msg = .ok (r', st)) :
    Turns msg r r' ∨ r.state = .leader ∧ r.stepLeader msg = .ok (r', st) := by
  unfold Raft.stepBody at h
  split at h
  · rename_i hty
    exact Or.inl (stepHup_turns hty (withOk_ok h))
  · exact Or.inl (stepVote_turns (withOk_ok h))
  · exact Or.inl (stepVote_turns (withOk_ok h))
  · split at h
    · rename_i hs
      exact Or.inl (stepFollower_turns hs h)
    · rename_i hs
      exact Or.inl (stepCandidate_turns (Or.inl hs) h)
    · rename_i hs
      exact Or.inl (stepCandidate_turns (Or.inr hs) h)
    · rename_i hs
      exact Or.inr ⟨hs, h⟩

/-- A step turns the role of the node as above, or is the work of a leader. -/
theorem step_turns {st : Status} (h : r.step msg = .ok (r', st)) :
    Turns msg r r' ∨ r.state = .leader ∧ r.stepLeader msg = .ok (r', st) := by
  cases step_way h with
  | stays term body => exact stepBody_turns body
  | follows later lead heard body =>
      rcases stepBody_turns body with hturn | ⟨hl, -⟩
      · exact Or.inl (hturn.after_follow (by omega))
      · cases hl
  | leased later type same =>
      rw [same]
      exact Or.inl (.refl msg r)
  | stale sent earlier lower =>
      rcases lowerTerm_cases lower with rfl | ⟨m, hm, hsent⟩
      · exact Or.inl (.refl msg r')
      · refine Or.inl (send_turns ?_ hsent)
        rcases hm with hm | hm <;> rw [hm] <;> rfl

end Steps

section Operations

/-- Time has passed: the timers moved, and a transfer may have been given up. -/
def Timed (r r' : Raft) : Prop :=
  ∃ heartbeat election transferee,
    r' = { r with heartbeatElapsed := heartbeat, electionElapsed := election, leadTransferee := transferee }

theorem Timed.quiet (h : Timed r r') : Quiet r r' := by
  obtain ⟨_, _, _, rfl⟩ := h
  exact .of_same rfl rfl

theorem Timed.trans (h : Timed r r') (h' : Timed r' r'') : Timed r r'' := by
  obtain ⟨_, _, _, rfl⟩ := h
  obtain ⟨_, _, _, rfl⟩ := h'
  exact ⟨_, _, _, rfl⟩

/-- What a tick is: a node that may stand for election does so, a leader looks after its quorum and
beats. -/
inductive Ticks (r r' : Raft) : Prop
  | waits (timed : Timed r r')
  | stands (r₁ : Raft) (timed : Timed r r₁) (role : r.state ≠ .leader) (promotable : r.promotable = true) (st : Status)
      (step : r₁.step { from_ := r.id, type := .msgHup } = .ok (r', st))
  | beats (r₁ r₂ r₃ : Raft) (role : r.state = .leader) (timed : Timed r r₁)
      (check : r₂ = r₁ ∨ ∃ st, r₁.step { from_ := r.id, type := .msgCheckQuorum } = .ok (r₂, st)) (timed' : Timed r₂ r₃)
      (beat : r' = r₃ ∨ r₃.state = .leader ∧ ∃ st, r₃.step { from_ := r₃.id, type := .msgBeat } = .ok (r', st))

theorem tickElection_ticks (hr : r.state ≠ .leader) (h : r.tickElection = .ok r') : Ticks r r' := by
  unfold Raft.tickElection at h
  simp only at h
  split at h
  · rename_i hcond
    obtain ⟨⟨r₁, st⟩, h₁, h⟩ := bind_ok h
    obtain rfl := Except.ok.inj h
    exact .stands _ ⟨_, _, _, rfl⟩ hr (Bool.and_eq_true_iff.mp hcond).1 st h₁
  · rw [← Except.ok.inj h]
    exact .waits ⟨_, _, _, rfl⟩

theorem tickCheckQuorum_checks (h : r.tickCheckQuorum = .ok r') : ∃ r₁ r₂, Timed r r₁ ∧
    (r₂ = r₁ ∨ ∃ st, r₁.step { from_ := r.id, type := .msgCheckQuorum } = .ok (r₂, st)) ∧ Timed r₂ r' := by
  unfold Raft.tickCheckQuorum at h
  obtain ⟨r₂, h₂, h⟩ := bind_ok h
  refine ⟨{ r with electionElapsed := 0 }, r₂, ⟨_, _, _, rfl⟩, ?_, ?_⟩
  · split at h₂
    · obtain ⟨st, h₂⟩ := map_fst_ok h₂
      exact Or.inr ⟨st, h₂⟩
    · exact Or.inl (Except.ok.inj h₂).symm
  · rw [← Except.ok.inj h]
    split
    · exact ⟨_, _, _, rfl⟩
    · exact ⟨_, _, _, rfl⟩

theorem tick_ticks (h : r.tick = .ok r') : Ticks r r' := by
  unfold Raft.tick at h
  split at h
  · rename_i hl
    unfold Raft.tickHeartbeat at h
    obtain ⟨r₃, h₃, h⟩ := bind_ok h
    have hcheck : ∃ r₁ r₂, Timed r r₁ ∧
        (r₂ = r₁ ∨ ∃ st, r₁.step { from_ := r.id, type := .msgCheckQuorum } = .ok (r₂, st)) ∧ Timed r₂ r₃ := by
      split at h₃
      · obtain ⟨r₁, r₂, ⟨_, _, _, rfl⟩, hstep, htimed⟩ := tickCheckQuorum_checks h₃
        exact ⟨_, r₂, ⟨_, _, _, rfl⟩, hstep, htimed⟩
      · rw [← Except.ok.inj h₃]
        exact ⟨_, _, ⟨_, _, _, rfl⟩, Or.inl rfl, ⟨_, _, _, rfl⟩⟩
    obtain ⟨r₁, r₂, htimed, hstep, htimed'⟩ := hcheck
    split at h
    · rw [← Except.ok.inj h]
      exact .beats r₁ r₂ r₃ hl htimed hstep htimed' (Or.inl rfl)
    rename_i hl₃
    split at h
    · obtain ⟨⟨r₄, st⟩, h₄, h⟩ := bind_ok h
      obtain rfl := Except.ok.inj h
      have hreset : Timed r₃ { r₃ with heartbeatElapsed := 0 } := ⟨_, _, _, rfl⟩
      exact .beats r₁ r₂ _ hl htimed hstep (htimed'.trans hreset) (Or.inr ⟨not_not.mp hl₃, st, h₄⟩)
    · rw [← Except.ok.inj h]
      exact .beats r₁ r₂ r₃ hl htimed hstep htimed' (Or.inl rfl)
  · rename_i hl
    exact tickElection_ticks hl h

/-- What a change of the configuration is. -/
inductive Configures (cc : ConfChange) (r r' : Raft) : Prop
  | ignores (change : cc.nodeId = 0 ∨ cc.confChangeType = confChangeUpdateNode) (same : r' = r)
  | adds (node : cc.nodeId ≠ 0) (type : cc.confChangeType = confChangeAddNode)
      (add : r.addNodeOrLearner cc.nodeId false = .ok r')
  | addsLearner (node : cc.nodeId ≠ 0) (type : cc.confChangeType = confChangeAddLearnerNode)
      (add : r.addNodeOrLearner cc.nodeId true = .ok r')
  | removes (node : cc.nodeId ≠ 0) (type : cc.confChangeType = confChangeRemoveNode)
      (remove : r.removeNode cc.nodeId = .ok r')

theorem applyConfChange_configures {n n' : RawNode} {cc : ConfChange} {cs : ConfState}
    (h : n.applyConfChange cc = .ok (n', cs)) : Configures cc n.raft n'.raft ∧ cs = n'.confState := by
  have hend : ∀ {r₁ : Raft}, (Except.ok ({ n with raft := r₁ }, RawNode.confState { n with raft := r₁ }) : Result _) =
      .ok (n', cs) → r₁ = n'.raft ∧ cs = n'.confState := by
    intro r₁ h
    obtain ⟨rfl, rfl⟩ := Prod.mk.inj (Except.ok.inj h)
    exact ⟨rfl, rfl⟩
  unfold RawNode.applyConfChange at h
  split at h
  · rename_i hnode
    obtain ⟨heq, hcs⟩ := hend h
    exact ⟨.ignores (Or.inl hnode) heq.symm, hcs⟩
  rename_i hnode
  split at h
  · rename_i hty
    obtain ⟨r₁, h₁, h⟩ := bind_ok h
    obtain ⟨rfl, hcs⟩ := hend h
    exact ⟨.adds hnode hty h₁, hcs⟩
  split at h
  · rename_i hty
    obtain ⟨r₁, h₁, h⟩ := bind_ok h
    obtain ⟨rfl, hcs⟩ := hend h
    exact ⟨.addsLearner hnode hty h₁, hcs⟩
  split at h
  · rename_i hty
    obtain ⟨r₁, h₁, h⟩ := bind_ok h
    obtain ⟨rfl, hcs⟩ := hend h
    exact ⟨.removes hnode hty h₁, hcs⟩
  split at h
  · rename_i hty
    obtain ⟨heq, hcs⟩ := hend h
    exact ⟨.ignores (Or.inr hty) heq.symm, hcs⟩
  · cases h

theorem markAdded_frame (r : Raft) (id : Nat) (b : Bool) : ∃ prs lprs l,
    r.markAdded id b = { r with prs := prs, learnerPrs := lprs, isLearner := l } := by
  unfold Raft.markAdded
  obtain ⟨prs, lprs, heq⟩ := Raft.modifyProgress_eq (if r.id = id then { r with isLearner := b } else r) id
    fun p => { p with recentActive := true }
  simp only [heq]
  split
  · exact ⟨_, _, _, rfl⟩
  · exact ⟨_, _, _, rfl⟩

/-- Adding a node touches the peers only. -/
theorem addNodeOrLearner_frame {id : Nat} {b : Bool} (h : r.addNodeOrLearner id b = .ok r') : ∃ prs lprs l,
    r' = { r with prs := prs, learnerPrs := lprs, isLearner := l } := by
  unfold Raft.addNodeOrLearner at h
  split at h
  · obtain ⟨r₁, h₁, h⟩ := bind_ok h
    obtain ⟨⟨prs, lprs, rfl⟩, -⟩ := setProgress_spec h₁
    obtain ⟨_, _, _, heq⟩ := markAdded_frame { r with prs := prs, learnerPrs := lprs } id b
    rw [← Except.ok.inj h, heq]
    exact ⟨_, _, _, rfl⟩
  rename_i pr hpr
  split at h
  · rw [← Except.ok.inj h]
    exact ⟨_, _, _, rfl⟩
  split at h
  · rw [← Except.ok.inj h]
    exact ⟨_, _, _, rfl⟩
  · obtain ⟨_, _, _, heq⟩ := markAdded_frame
      { r with learnerPrs := r.learnerPrs.erase id, prs := r.prs.insert id { pr with isLearner := false } } id b
    rw [← Except.ok.inj h, heq]
    exact ⟨_, _, _, rfl⟩

/-- Removing a node may commit entries, and tells the peers if it does. -/
theorem removeNode_cases {id : Nat} (h : r.removeNode id = .ok r') :
    r' = r.delProgress id ∨ ∃ r₁ changed r₂, (r.delProgress id).maybeCommit = .ok (r₁, changed) ∧
      (changed = false ∧ r₂ = r₁ ∨ changed = true ∧ r₁.bcastAppend = .ok r₂) ∧ Timed r₂ r' := by
  have habort : ∀ g : Raft, Timed g (if g.state = .leader ∧ g.leadTransferee = id then g.abortLeaderTransfer else g) := by
    intro g
    split
    · exact ⟨_, _, _, rfl⟩
    · exact ⟨_, _, _, rfl⟩
  unfold Raft.removeNode at h
  simp only at h
  split at h
  · exact Or.inl (Except.ok.inj h).symm
  obtain ⟨⟨r₁, changed⟩, h₁, h⟩ := bind_ok h
  simp only at h
  split at h
  · rename_i hchanged
    obtain ⟨r₂, h₂, h⟩ := bind_ok h
    rw [← Except.ok.inj h]
    exact Or.inr ⟨r₁, changed, r₂, h₁, Or.inr ⟨hchanged, h₂⟩, habort r₂⟩
  · rename_i hchanged
    rw [← Except.ok.inj h]
    exact Or.inr ⟨r₁, changed, r₁, h₁, Or.inl ⟨by simpa using hchanged, rfl⟩, habort r₁⟩

/-- A change of the configuration touches the peers and the timers, and may commit entries and tell the peers. -/
theorem Configures.frame {cc : ConfChange} (h : Configures cc r r') :
    ∃ prs lprs l c msgs heartbeat election transferee, r' = { r with
      prs := prs, learnerPrs := lprs, isLearner := l, raftLog := { r.raftLog with committed := c }, msgs := msgs,
      heartbeatElapsed := heartbeat, electionElapsed := election, leadTransferee := transferee } := by
  cases h with
  | ignores change same => exact ⟨_, _, _, r.raftLog.committed, _, _, _, _, same⟩
  | adds node type add =>
      obtain ⟨_, _, _, heq⟩ := addNodeOrLearner_frame add
      exact ⟨_, _, _, r.raftLog.committed, _, _, _, _, heq⟩
  | addsLearner node type add =>
      obtain ⟨_, _, _, heq⟩ := addNodeOrLearner_frame add
      exact ⟨_, _, _, r.raftLog.committed, _, _, _, _, heq⟩
  | removes node type remove =>
      rcases removeNode_cases remove with heq | ⟨r₁, changed, r₂, hcommit, hsent, ⟨_, _, _, heq⟩⟩
      · exact ⟨_, _, _, r.raftLog.committed, _, _, _, _, heq⟩
      obtain ⟨c, rfl⟩ := maybeCommit_frame hcommit
      rcases hsent with ⟨-, rfl⟩ | ⟨-, hbcast⟩
      · exact ⟨_, _, _, c, _, _, _, _, heq⟩
      · obtain ⟨_, _, _, rfl⟩ := (bcastAppend_posts hbcast).rest
        exact ⟨_, _, _, c, _, _, _, _, heq⟩

/-- A property of a new node that survives what `start_node` adds holds of every node that starts. -/
theorem started_holds {P : Raft → Prop} {c : Config} {n : RawNode}
    (h : RawNode.restartNode c = .ok n ∨ ∃ serialize peers, RawNode.startNode serialize c peers = .ok n)
    (hnew : ∀ r, Raft.new c = .ok r → P r)
    (hlog : ∀ (r : Raft) (es : List Entry) (log : RaftLog), Raft.new c = .ok r → c.storage.lastIndex = 0 →
      (∀ e ∈ es, e.term = 1) → r.raftLog.append es = .ok log →
      P { r.becomeFollower 1 0 with raftLog := { log with committed := es.length } })
    (hadd : ∀ (r r' : Raft) (id : Nat), P r → r.addNode id = .ok r' → P r') : P n.raft := by
  rcases h with h | ⟨serialize, peers, h⟩
  · obtain ⟨r, hr, h⟩ := bind_ok h
    rw [← Except.ok.inj h]
    exact hnew r hr
  · obtain ⟨r, hr, h⟩ := bind_ok h
    simp only at h
    split at h
    · rename_i hempty
      obtain ⟨log, happend, h⟩ := bind_ok h
      obtain ⟨r₁, hpeers, h⟩ := bind_ok h
      rw [← Except.ok.inj h]
      -- the peers are added one after the other
      have hfold : ∀ (ps : List (Nat × Bytes)) (g : Raft), P g →
          ps.foldlM (fun raft peer => raft.addNode peer.1) g = .ok r₁ → P r₁ := by
        intro ps
        induction ps with
        | nil =>
            intro g hg hfold
            rw [List.foldlM_nil] at hfold
            rwa [← Except.ok.inj hfold]
        | cons peer ps ih =>
            intro g hg hfold
            rw [List.foldlM_cons] at hfold
            obtain ⟨g', hg', hfold⟩ := bind_ok hfold
            exact ih g' (hadd g g' peer.1 hg hg') hfold
      refine hfold peers _ (hlog r _ log hr hempty (fun e he => ?_) ?_) hpeers
      · obtain ⟨i, hi, rfl⟩ := List.mem_mapIdx.mp he
        rfl
      · rwa [Raft.becomeFollower, Raft.reset_raftLog] at happend
    · rw [← Except.ok.inj h]
      exact hnew r hr

end Operations

end RaftEtcd
