import RaftEtcd.Conversation

/-! What a session has told its client: an invariant of every run of the thread of the store. A request is in the hand
of the session, of the store or of nobody, and it leaves that hand once. -/
namespace RaftEtcd
variable {rd : RedisReader RedisRequest} {mp : Msgpack}

/-! ### Right answers -/

/-- The change of the map that a request asks for. -/
inductive RedisRequest.Changes (req : RedisRequest) : RedisCommitData → Prop
  | set {key value : Bytes} (handled : Reply.onRedisReply ({} : RedisStore Nat) req = .ok (.set key value)) :
      Changes req (ClientNode.setData key value)
  | del {keys : List Bytes} (handled : Reply.onRedisReply ({} : RedisStore Nat) req = .ok (.del keys)) :
      Changes req (ClientNode.delData keys)

theorem RedisRequest.Changes.handled {req : RedisRequest} {data : RedisCommitData} (h : req.Changes data) :
    ∃ handled, Reply.onRedisReply ({} : RedisStore Nat) req = .ok handled ∧ ∀ call, handled ≠ .replies call := by
  cases h with
  | set handled => exact ⟨_, handled, nofun⟩
  | del handled => exact ⟨_, handled, nofun⟩

theorem RedisRequest.Changes.set_data {req : RedisRequest} {data : RedisCommitData} {key value : Bytes}
    (h : req.Changes data) (hset : Reply.onRedisReply ({} : RedisStore Nat) req = .ok (.set key value)) :
    data = ClientNode.setData key value := by
  cases h with
  | set handled =>
      obtain ⟨rfl, rfl⟩ := Handled.set.inj (Except.ok.inj (handled.symm.trans hset))
      rfl
  | del handled => cases handled.symm.trans hset

section Requests
variable {store : RedisStore Nat} {req : RedisRequest} {handled : Handled}

/-- Of the store a handler sees the map only. -/
theorem onRedisReply_map (store : RedisStore Nat) (req : RedisRequest) :
    Reply.onRedisReply store req = Reply.onRedisReply ({ keyValues := store.keyValues } : RedisStore Nat) req := rfl

theorem onRedisReply_command {name : Bytes} {cb : Command} (h : commandTable.lookup name = some cb)
    (elements : List RedisElement) :
    Reply.onRedisReply store (.array (.string name :: elements)) = Reply.run store (.string name :: elements) cb := by
  unfold Reply.onRedisReply
  dsimp only
  rw [h]

theorem getCommand_replies {elements : List RedisElement} (h : Reply.getCommand store elements = .ok handled) :
    ∃ call, handled = .replies call := by
  unfold Reply.getCommand at h
  split at h
  · cases h
  · split at h
    · exact ⟨_, (Except.ok.inj h).symm⟩
    split at h
    · cases h
    · exact ⟨_, (Except.ok.inj h).symm⟩
  · exact ⟨_, (Except.ok.inj h).symm⟩
  · exact ⟨_, (Except.ok.inj h).symm⟩

theorem keysCommand_replies {elements : List RedisElement} (h : Reply.keysCommand store elements = .ok handled) :
    ∃ call, handled = .replies call := by
  unfold Reply.keysCommand at h
  split at h
  · cases h
  · exact ⟨_, (Except.ok.inj h).symm⟩
  · exact ⟨_, (Except.ok.inj h).symm⟩
  · exact ⟨_, (Except.ok.inj h).symm⟩

/-- A change is asked of any store in the same way. -/
theorem onRedisReply_change (h : Reply.onRedisReply store req = .ok handled) (hchange : ∀ call, handled ≠ .replies call)
    (store' : RedisStore Nat) : Reply.onRedisReply store' req = .ok handled := by
  cases req with
  | other type => exact h
  | array elements =>
      cases elements with
      | nil => exact h
      | cons element elements =>
          cases element with
          | other type => exact h
          | string command =>
              unfold Reply.onRedisReply at h ⊢
              dsimp only at h ⊢
              split at h
              · exact h
              · rename_i cb _
                cases cb with
                | ping => exact h
                | set => exact h
                | del => exact h
                | get =>
                    obtain ⟨call, hcall⟩ := getCommand_replies h
                    exact absurd hcall (hchange call)
                | keys =>
                    obtain ⟨call, hcall⟩ := keysCommand_replies h
                    exact absurd hcall (hchange call)

end Requests

/-- What the store tells of the change with a number: what became of its proposal, if this is an error or the change is
a `del`, or that it is done, when a command of this server with this number has been applied. -/
inductive StoreThread.Tells (mp : Msgpack) (s : StoreThread) (seen r : Nat) (data : RedisCommitData) : Status → Prop
  | proposed {status : Status} (said : (r, status) ∈ s.statuses)
      (notSet : status.isOk = true → data.type = kCommitDel) : Tells mp s seen r data status
  | applied {bytes : Bytes} {commit : RaftCommit} (done : .command bytes ∈ s.history.take seen)
      (decodes : decodeCommit mp bytes = some commit) (mine : commit.nodeId = s.node.nodeId)
      (number : commit.commitId = r) : Tells mp s seen r data .ok

/-- What an answer says: how the map was after a first part of the changes, or what the store has told of the change
that the request asked for. -/
inductive Answer.Right (mp : Msgpack) (kv : KeyValues) (s : StoreThread) (i : Nat) (a : Answer) (req : RedisRequest) :
    Prop
  | read {map : KeyValues} {call : ReplyCall} (seen : kv.replay mp (s.history.take a.seen) = .ok map)
      (answers : Reply.onRedisReply ({ keyValues := map } : RedisStore Nat) req = .ok (.replies call))
      (bytes : a.bytes = call.sent)
  | change {r : Nat} {status : Status} {commit : RaftCommit} (asked : s.askers[r]? = some (i, a.request))
      (issued : s.node.issued[r]? = some commit) (changes : req.Changes commit.redisData)
      (tells : s.Tells mp a.seen r commit.redisData status) (bytes : a.bytes = (replyStatus status).sent)

/-- What is remembered only grows. -/
structure StoreThread.Grows (s s' : StoreThread) : Prop where
  nodeId : s'.node.nodeId = s.node.nodeId
  issued : s.node.issued <+: s'.node.issued
  askers : s.askers <+: s'.askers
  history : s.history <+: s'.history
  statuses : s.statuses <+: s'.statuses

theorem getElem?_kept {α : Type} {l l' : List α} {n : Nat} {a : α} (h : l <+: l') (hn : l[n]? = some a) :
    l'[n]? = some a := by
  obtain ⟨more, rfl⟩ := h
  rw [List.getElem?_append_left (List.getElem?_eq_some_iff.mp hn).1]
  exact hn

theorem take_kept {α : Type} {l l' : List α} {n : Nat} (h : l <+: l') (hn : n ≤ l.length) :
    l'.take n = l.take n := by
  obtain ⟨more, rfl⟩ := h
  exact List.take_append_of_le_length hn

/-- An answer stays right. -/
theorem Answer.Right.mono {kv : KeyValues} {s s' : StoreThread} {i : Nat} {a : Answer} {req : RedisRequest}
    (h : a.Right mp kv s i req) (hseen : a.seen ≤ s.history.length) (hg : s.Grows s') : a.Right mp kv s' i req := by
  have htake := take_kept hg.history hseen
  cases h with
  | read seen answers bytes =>
      refine .read ?_ answers bytes
      rw [htake]
      exact seen
  | change asked issued changes tells bytes =>
      refine .change (getElem?_kept hg.askers asked) (getElem?_kept hg.issued issued) changes ?_ bytes
      cases tells with
      | proposed said notSet => exact .proposed (hg.statuses.subset said) notSet
      | applied done decodes mine number => exact .applied (htake ▸ done) decodes (mine.trans hg.nodeId.symm) number

/-- A request is answered once at most, each answer is right, and the later ones have seen no less. A request that has
no answer waits for the store, but for one that is in hand. -/
structure Connection.Talks (mp : Msgpack) (kv : KeyValues) (s : StoreThread) (i : Nat) (inHand : Option Nat)
    (c : Connection rd) : Prop where
  writes : ∀ (r k : Nat), s.askers[r]? = some (i, k) → ∃ req commit, c.asked[k]? = some req ∧
    s.node.issued[r]? = some commit ∧ req.Changes commit.redisData
  unanswered : ∀ r k, s.node.store.pendingRequests.lookup r = some r → s.askers[r]? = some (i, k) →
    k ∉ c.replies.map Answer.request
  once : (c.replies.map Answer.request).Nodup
  right : ∀ a ∈ c.replies, ∃ req, c.asked[a.request]? = some req ∧ a.Right mp kv s i req
  ordered : (c.replies.map Answer.seen).Pairwise (· ≤ ·)
  past : ∀ a ∈ c.replies, a.seen ≤ s.history.length
  remembered : ∀ k < c.asked.length, inHand ≠ some k → k ∈ c.replies.map Answer.request ∨
    ∃ r : Nat, s.askers[r]? = some (i, k) ∧ s.node.store.pendingRequests.lookup r = some r
  clean : c.intact = true → ∃ front content, c.Clean front content

namespace StoreThread

/-- The number is that of a change, and of a `del` if it is marked so. -/
def Marks (s : StoreThread) (isDel : Bool) (id : Nat) : Prop :=
  ∃ commit, s.node.issued[id]? = some commit ∧ (isDel = true → commit.redisData.type = kCommitDel)

/-- The callbacks wait under the numbers of their requests, the map is what the changes make of the first one, and what
passes between the threads has the number of its request. -/
structure Keeps (mp : Msgpack) (kv : KeyValues) (s : StoreThread) : Prop where
  next : s.node.store.nextRequestId = s.node.issued.length % 2 ^ 32
  handed : s.askers.length = s.node.issued.length
  waits : ∀ id r, s.node.store.pendingRequests.lookup id = some r → id = r ∧ r < s.askers.length
  map : kv.replay mp s.history = .ok s.node.store.keyValues
  distinct : s.askers.Nodup
  proposals : ∀ p ∈ s.node.proposals, p.commitId = p.request ∧ s.Marks p.isDel p.request
  handlers : ∀ isDel id status, .proposed isDel id status ∈ s.node.handlers → (id, status) ∈ s.statuses ∧
    s.Marks isDel id

variable {kv : KeyValues} {s s' : StoreThread} {i k : Nat}

theorem Marks.mono {isDel : Bool} {id : Nat} (h : s.Marks isDel id) (hg : s.Grows s') : s'.Marks isDel id := by
  obtain ⟨commit, hcommit, hdel⟩ := h
  exact ⟨commit, getElem?_kept hg.issued hcommit, hdel⟩

theorem hand_grows (s : StoreThread) (i k : Nat) (isDel : Bool) (data : RedisCommitData) :
    s.Grows (s.hand i k isDel data) :=
  ⟨rfl, List.prefix_append _ _, List.prefix_append _ _, List.prefix_refl _, List.prefix_refl _⟩

/-- Only changes have been asked for. -/
structure Handed (s s' : StoreThread) : Prop where
  issued : s.node.issued.length ≤ s'.node.issued.length
  handlers : s'.node.handlers = s.node.handlers
  history : s'.history = s.history

theorem Handed.refl (s : StoreThread) : s.Handed s := ⟨le_rfl, rfl, rfl⟩

theorem Handed.trans {s'' : StoreThread} (h : s.Handed s') (h' : s'.Handed s'') : s.Handed s'' :=
  ⟨h.issued.trans h'.issued, h'.handlers.trans h.handlers, h'.history.trans h.history⟩

theorem hand_handed (s : StoreThread) (i k : Nat) (isDel : Bool) (data : RedisCommitData) :
    s.Handed (s.hand i k isDel data) :=
  ⟨(List.prefix_append _ _).length_le, rfl, rfl⟩

theorem Keeps.hand (h : s.Keeps mp kv) (hroom : s.node.issued.length < 2 ^ 32) (hp : (i, k) ∉ s.askers) {isDel : Bool}
    {data : RedisCommitData} (hdel : isDel = true → data.type = kCommitDel) : (s.hand i k isDel data).Keeps mp kv := by
  have hnext : s.node.store.nextRequestId = s.node.issued.length := by
    rw [h.next, Nat.mod_eq_of_lt hroom]
  have hhanded := h.handed
  have hg := hand_grows s i k isDel data
  refine ⟨?_, ?_, fun id r hr => ?_, h.map, ?_, fun p hmem => ?_, fun isDel' id status hmem => ?_⟩
  · change (s.node.store.nextRequestId + 1) % 2 ^ 32 = (s.node.issued ++ [_]).length % 2 ^ 32
    rw [hnext, List.length_append, List.length_singleton]
  · change (s.askers ++ [(i, k)]).length = (s.node.issued ++ [_]).length
    rw [List.length_append, List.length_append, hhanded]
    rfl
  · change (s.node.store.pendingRequests.insert s.node.store.nextRequestId s.node.issued.length).lookup id =
      some r at hr
    change id = r ∧ r < (s.askers ++ [(i, k)]).length
    rw [List.length_append, List.length_singleton]
    by_cases hid : id = s.node.store.nextRequestId
    · rw [hid, AList.lookup_insert] at hr
      obtain rfl := Option.some.inj hr
      exact ⟨hid.trans hnext, by omega⟩
    · rw [AList.lookup_insert_ne hid] at hr
      obtain ⟨heq, hlt⟩ := h.waits id r hr
      exact ⟨heq, by omega⟩
  · exact List.nodup_append.mpr ⟨h.distinct, List.nodup_singleton _, fun a ha b hb hab => by
      rw [List.mem_singleton.mp hb] at hab
      exact hp (hab ▸ ha)⟩
  · rcases List.mem_append.mp hmem with hmem | hmem
    · obtain ⟨hid, hmarks⟩ := h.proposals p hmem
      exact ⟨hid, hmarks.mono hg⟩
    · obtain rfl := List.mem_singleton.mp hmem
      exact ⟨hnext, s.node.store.commitOf s.node.nodeId data, List.getElem?_concat_length, hdel⟩
  · obtain ⟨hsaid, hmarks⟩ := h.handlers isDel' id status hmem
    exact ⟨hsaid, hmarks.mono hg⟩

theorem propose_frame (s : StoreThread) (status : Status) : (s.propose status).node.nodeId = s.node.nodeId ∧
    (s.propose status).node.store = s.node.store ∧ (s.propose status).node.issued = s.node.issued := by
  unfold StoreThread.propose ClientNode.propose
  dsimp only
  split <;> exact ⟨rfl, rfl, rfl⟩

theorem propose_grows (s : StoreThread) (status : Status) : s.Grows (s.propose status) := by
  obtain ⟨hid, -, hissued⟩ := propose_frame s status
  exact ⟨hid, hissued ▸ List.prefix_refl _, List.prefix_refl _, List.prefix_refl _, List.prefix_append _ _⟩

theorem Keeps.propose (h : s.Keeps mp kv) (status : Status) : (s.propose status).Keeps mp kv := by
  have hg := propose_grows s status
  obtain ⟨-, hstore, hissued⟩ := propose_frame s status
  refine ⟨?_, ?_, ?_, ?_, h.distinct, fun p hmem => ?_, fun isDel id status' hmem => ?_⟩
  · rw [hstore, hissued]
    exact h.next
  · rw [hissued]
    exact h.handed
  · rw [hstore]
    exact h.waits
  · rw [hstore]
    exact h.map
  · have hold : p ∈ s.node.proposals := by
      change p ∈ (s.node.propose status).proposals at hmem
      unfold ClientNode.propose at hmem
      split at hmem
      · exact hmem
      · rename_i hproposals
        rw [hproposals]
        exact List.mem_cons_of_mem _ hmem
    obtain ⟨hid, hmarks⟩ := h.proposals p hold
    exact ⟨hid, hmarks.mono hg⟩
  · have hcases : .proposed isDel id status' ∈ s.node.handlers ∨
        ∃ p ps, s.node.proposals = p :: ps ∧ isDel = p.isDel ∧ id = p.commitId ∧ status' = status := by
      change .proposed isDel id status' ∈ (s.node.propose status).handlers at hmem
      unfold ClientNode.propose at hmem
      split at hmem
      · exact Or.inl hmem
      · rename_i p ps hproposals
        rcases List.mem_append.mp hmem with hmem | hmem
        · exact Or.inl hmem
        · obtain ⟨hdel, hid, hstatus⟩ := Handler.proposed.inj (List.mem_singleton.mp hmem)
          exact Or.inr ⟨p, ps, hproposals, hdel, hid, hstatus⟩
    rcases hcases with hmem | ⟨p, ps, hproposals, rfl, rfl, rfl⟩
    · obtain ⟨hsaid, hmarks⟩ := h.handlers isDel id status' hmem
      exact ⟨hg.statuses.subset hsaid, hmarks.mono hg⟩
    · obtain ⟨hid, hmarks⟩ := h.proposals p (hproposals ▸ List.mem_cons_self)
      refine ⟨?_, hid ▸ hmarks.mono hg⟩
      change (p.commitId, status') ∈ s.statuses ++ _
      rw [hproposals, hid]
      exact List.mem_append_right _ List.mem_cons_self

theorem publish_grows (s : StoreThread) (data : Bytes) : s.Grows (s.publish data) :=
  ⟨rfl, List.prefix_refl _, List.prefix_refl _, List.prefix_refl _, List.prefix_refl _⟩

theorem Keeps.publish (h : s.Keeps mp kv) (data : Bytes) : (s.publish data).Keeps mp kv := by
  refine ⟨h.next, h.handed, h.waits, h.map, h.distinct, h.proposals, fun isDel id status hmem => ?_⟩
  rcases List.mem_append.mp hmem with hmem | hmem
  · exact h.handlers isDel id status hmem
  · cases List.mem_singleton.mp hmem

/-- A snapshot has taken the place of the map. -/
theorem recover_change {snap : Bytes} (hr : s.recover mp snap = .ok s') : ∃ map : KeyValues,
    s.node.store.keyValues.replay mp [.snapshot snap] = .ok map ∧
      s' = { s with
        node := { s.node with store := { s.node.store with keyValues := map } }
        history := s.history ++ [.snapshot snap] } := by
  obtain ⟨⟨store, status⟩, hstore, hr⟩ := bind_ok hr
  unfold RedisStore.recoverFromSnapshot at hstore
  split at hstore
  · cases hstore
  rename_i o hunpack
  split at hstore
  · obtain ⟨-, rfl⟩ := Prod.mk.inj (Except.ok.inj hstore)
    cases hr
  rename_i map hconvert
  obtain ⟨rfl, rfl⟩ := Prod.mk.inj (Except.ok.inj hstore)
  obtain rfl := Except.ok.inj hr
  refine ⟨map, ?_, rfl⟩
  change (KeyValues.applyChange mp s.node.store.keyValues (.snapshot snap) >>= fun kv => .ok kv) = _
  rw [KeyValues.applyChange, hunpack, Option.bind_some, hconvert]
  rfl

theorem Keeps.recover {snap : Bytes} (h : s.Keeps mp kv) (hr : s.recover mp snap = .ok s') :
    s'.Keeps mp kv ∧ s.Grows s' := by
  obtain ⟨map, hmap, rfl⟩ := recover_change hr
  refine ⟨⟨h.next, h.handed, h.waits, ?_, h.distinct, h.proposals, h.handlers⟩, rfl, List.prefix_refl _,
    List.prefix_refl _,
    List.prefix_append _ _, List.prefix_refl _⟩
  rw [KeyValues.replay_append h.map]
  exact hmap

section Handle
variable {commands : List LoggedCommand} {ack : Option (Nat × Status)}

theorem handle_history (hh : ClientNode.Handles mp s.node (s.node.handle mp) commands ack) :
    (s.handle mp).history = s.history ++ commands.map LoggedCommand.change := by
  change s.history ++ _ = _
  rw [hh.applied, List.drop_left]

theorem handle_grows (hh : ClientNode.Handles mp s.node (s.node.handle mp) commands ack) : s.Grows (s.handle mp) :=
  ⟨hh.nodeId, hh.issued ▸ List.prefix_refl _, List.prefix_refl _, List.prefix_append _ _, List.prefix_refl _⟩

theorem Keeps.handle (h : s.Keeps mp kv) (hh : ClientNode.Handles mp s.node (s.node.handle mp) commands ack) :
    (s.handle mp).Keeps mp kv := by
  have hg := handle_grows hh
  refine ⟨hh.next.trans (h.next.trans (by rw [← hh.issued]; rfl)), h.handed.trans (congrArg _ hh.issued.symm),
    fun id r hr => ?_, ?_, h.distinct, fun p hmem => ?_, fun isDel id status hmem => ?_⟩
  · change (s.node.handle mp).store.pendingRequests.lookup id = some r at hr
    rcases hh.calls with ⟨-, heq⟩ | ⟨id', r', status, -, -, heq, -⟩
    · exact h.waits id r (heq ▸ hr)
    · rw [heq] at hr
      by_cases hid : id = id'
      · rw [hid, AList.lookup_erase] at hr
        cases hr
      · rw [AList.lookup_erase_ne hid] at hr
        exact h.waits id r hr
  · rw [handle_history hh, KeyValues.replay_append h.map]
    exact hh.map
  · obtain ⟨hid, hmarks⟩ := h.proposals p (hh.proposals ▸ hmem)
    exact ⟨hid, hmarks.mono hg⟩
  · have hold : .proposed isDel id status ∈ s.node.handlers.tail := hh.handlers ▸ hmem
    obtain ⟨hsaid, hmarks⟩ := h.handlers isDel id status (List.mem_of_mem_tail hold)
    exact ⟨hsaid, hmarks.mono hg⟩

/-- The callback that is called waited for what it is told, and waits no more. -/
theorem Keeps.tells {r : Nat} {status : Status} {commit : RaftCommit} (h : s.Keeps mp kv)
    (hh : ClientNode.Handles mp s.node (s.node.handle mp) commands (some (r, status)))
    (hcommit : s.node.issued[r]? = some commit) : s.node.store.pendingRequests.lookup r = some r ∧
      (s.node.handle mp).store.pendingRequests = s.node.store.pendingRequests.erase r ∧
      (s.handle mp).Tells mp (s.handle mp).history.length r commit.redisData status := by
  rcases hh.calls with ⟨hnone, -⟩ | ⟨id, r', status', hsome, hlookup, heq, hreports⟩
  · cases hnone
  obtain ⟨rfl, rfl⟩ := Prod.mk.inj (Option.some.inj hsome)
  obtain rfl := (h.waits id r hlookup).1
  refine ⟨hlookup, heq, ?_⟩
  cases hreports with
  | proposed posted notSet =>
      obtain ⟨hsaid, commit', hcommit', hdel⟩ := h.handlers _ _ _ posted
      obtain rfl := Option.some.inj (hcommit.symm.trans hcommit')
      exact .proposed hsaid fun hok => hdel (notSet hok)
  | commit mem decodes mine number =>
      refine .applied ?_ decodes (mine.trans hh.nodeId.symm) number
      rw [List.take_length, handle_history hh]
      exact List.mem_append_right _ (List.mem_map_of_mem mem)

end Handle

end StoreThread

/-- What holds in every state. -/
structure FrontEnd.Sound (mp : Msgpack) (kv : KeyValues) (f : FrontEnd rd) : Prop where
  thread : f.thread.Keeps mp kv
  talks : ∀ i, (f.connections i).Talks mp kv f.thread i none

namespace Connection.Talks
variable {kv : KeyValues} {s s' : StoreThread} {i k : Nat} {inHand : Option Nat} {c c' : Connection rd}
  {req : RedisRequest}

/-- A request comes into hand. -/
theorem asks (h : c.Talks mp kv s i none) (req : RedisRequest) :
    Talks mp kv s i (some c.asked.length) { c with asked := c.asked ++ [req] } := by
  have hkept := List.prefix_append c.asked [req]
  refine ⟨fun r k hk => ?_, h.unanswered, h.once, fun a ha => ?_, h.ordered, h.past, fun k hk hne => ?_, fun hi => ?_⟩
  · obtain ⟨req', commit, hreq, hrest⟩ := h.writes r k hk
    exact ⟨req', commit, getElem?_kept hkept hreq, hrest⟩
  · obtain ⟨req', hreq, hright⟩ := h.right a ha
    exact ⟨req', getElem?_kept hkept hreq, hright⟩
  · rw [List.length_append, List.length_singleton] at hk
    have hne' : c.asked.length ≠ k := fun heq => hne (congrArg some heq)
    exact h.remembered k (by omega) nofun
  · obtain ⟨front, content, hclean⟩ := h.clean hi
    exact ⟨front, content, hclean.hears c.session (c.asked ++ [req])⟩

/-- The request in hand is answered. -/
theorem reply {call : ReplyCall} (h : c.Talks mp kv s i (some k)) (hreq : c.asked[k]? = some req)
    (hnew : k ∉ c.replies.map Answer.request)
    (hfree : ∀ r : Nat, s.node.store.pendingRequests.lookup r = some r → s.askers[r]? ≠ some (i, k))
    (hright : Answer.Right mp kv s i { request := k, seen := s.history.length, bytes := call.sent } req)
    (hreply : c.sendReply k s.history.length call = .ok c') : c'.Talks mp kv s i none := by
  obtain ⟨-, hasked, hreplies⟩ := sendReply_replied hreply
  have hrequests : c'.replies.map Answer.request = c.replies.map Answer.request ++ [k] := by
    rw [hreplies, List.map_append, List.map_singleton]
  refine ⟨?_, fun r k' hr hk' => ?_, ?_, fun a ha => ?_, ?_, fun a ha => ?_, fun k' hk' _ => ?_, fun hi => ?_⟩
  · rw [hasked]
    exact h.writes
  · rw [hrequests, List.mem_append, List.mem_singleton, not_or]
    exact ⟨h.unanswered r k' hr hk', fun heq => hfree r hr (heq ▸ hk')⟩
  · rw [hrequests]
    exact List.nodup_append.mpr ⟨h.once, List.nodup_singleton k, fun a ha b hb hab => by
      rw [List.mem_singleton.mp hb] at hab
      exact hnew (hab ▸ ha)⟩
  · rw [hreplies, List.mem_append, List.mem_singleton] at ha
    rw [hasked]
    rcases ha with ha | rfl
    · exact h.right a ha
    · exact ⟨req, hreq, hright⟩
  · rw [hreplies, List.map_append, List.map_singleton]
    refine List.pairwise_append.mpr ⟨h.ordered, List.pairwise_singleton _ _, fun a ha b hb => ?_⟩
    obtain ⟨a', ha', rfl⟩ := List.mem_map.mp ha
    rw [List.mem_singleton.mp hb]
    exact h.past a' ha'
  · rw [hreplies, List.mem_append, List.mem_singleton] at ha
    rcases ha with ha | rfl
    · exact h.past a ha
    · exact le_rfl
  · rw [hrequests]
    by_cases heq : k' = k
    · exact Or.inl (List.mem_append_right _ (List.mem_singleton.mpr heq))
    · exact (h.remembered k' (hasked ▸ hk') fun hk => heq (Option.some.inj hk).symm).imp_left (List.mem_append_left _)
  · obtain ⟨front, content, hclean⟩ := h.clean (sendReply_intact hreply hi)
    exact ⟨front, hclean.sendReply hreply hi⟩

/-- The request in hand, if it is one of this session, is handed to the store. -/
theorem hand {j : Nat} {data : RedisCommitData} (hn : s.Keeps mp kv) (hroom : s.node.issued.length < 2 ^ 32)
    (h : c.Talks mp kv s j inHand)
    (hmine : i = j → inHand = some k ∧ (∃ req, c.asked[k]? = some req ∧ req.Changes data) ∧
      k ∉ c.replies.map Answer.request)
    (hother : i ≠ j → inHand = none) (isDel : Bool) : c.Talks mp kv (s.hand i k isDel data) j none := by
  have hg := StoreThread.hand_grows s i k isDel data
  have hnew : (s.hand i k isDel data).askers[s.node.issued.length]? = some (i, k) := by
    rw [← hn.handed]
    exact List.getElem?_concat_length
  -- the numbers before are those of before
  have hold : ∀ {r : Nat} {p : Nat × Nat}, r ≠ s.node.issued.length →
      (s.hand i k isDel data).askers[r]? = some p → s.askers[r]? = some p := by
    intro r p hr hp
    change (s.askers ++ [(i, k)])[r]? = some p at hp
    have hlt := (List.getElem?_eq_some_iff.mp hp).1
    rw [List.length_append, List.length_singleton, hn.handed] at hlt
    rw [List.getElem?_append_left (by rw [hn.handed]; omega)] at hp
    exact hp
  have hlookup : ∀ r, (s.hand i k isDel data).node.store.pendingRequests.lookup r =
      if r = s.node.issued.length then some s.node.issued.length else s.node.store.pendingRequests.lookup r := by
    intro r
    change (s.node.store.pendingRequests.insert s.node.store.nextRequestId s.node.issued.length).lookup r = _
    rw [hn.next, Nat.mod_eq_of_lt hroom]
    split
    · rename_i heq
      rw [heq, AList.lookup_insert]
    · rename_i hne
      rw [AList.lookup_insert_ne hne]
  refine ⟨fun r k' hk' => ?_, fun r k' hr hk' => ?_, h.once, fun a ha => ?_, h.ordered, h.past, fun k' hk' _ => ?_,
    h.clean⟩
  · by_cases hr : r = s.node.issued.length
    · rw [hr, hnew] at hk'
      obtain ⟨rfl, rfl⟩ := Prod.mk.inj (Option.some.inj hk')
      obtain ⟨-, ⟨req, hreq, hchanges⟩, -⟩ := hmine rfl
      exact ⟨req, s.node.store.commitOf s.node.nodeId data, hreq, hr ▸ List.getElem?_concat_length, hchanges⟩
    · obtain ⟨req, commit, hreq, hcommit, hchanges⟩ := h.writes r k' (hold hr hk')
      exact ⟨req, commit, hreq, getElem?_kept hg.issued hcommit, hchanges⟩
  · rw [hlookup] at hr
    split at hr
    · rename_i heq
      rw [heq, hnew] at hk'
      obtain ⟨rfl, rfl⟩ := Prod.mk.inj (Option.some.inj hk')
      exact (hmine rfl).2.2
    · rename_i hne
      exact h.unanswered r k' hr (hold hne hk')
  · obtain ⟨req, hreq, hright⟩ := h.right a ha
    exact ⟨req, hreq, hright.mono (h.past a ha) hg⟩
  · by_cases heq : i = j ∧ k = k'
    · obtain ⟨rfl, rfl⟩ := heq
      exact Or.inr ⟨_, hnew, by rw [hlookup, if_pos rfl]⟩
    · have hne : inHand ≠ some k' := by
        intro hk
        by_cases hij : i = j
        · exact heq ⟨hij, Option.some.inj ((hmine hij).1.symm.trans hk)⟩
        · cases (hother hij).symm.trans hk
      rcases h.remembered k' hk' hne with hdone | ⟨r, hr, hwaits⟩
      · exact Or.inl hdone
      · have hlt := (hn.waits r r hwaits).2
        rw [hn.handed] at hlt
        exact Or.inr ⟨r, getElem?_kept hg.askers hr, by rw [hlookup, if_neg hlt.ne]; exact hwaits⟩

/-- The store calls back; the request of this session that it is about, if any, comes into hand. -/
theorem handles {commands : List LoggedCommand} {ack : Option (Nat × Status)} {held : Option Nat} (hn : s.Keeps mp kv)
    (h : c.Talks mp kv s i none) (hh : ClientNode.Handles mp s.node (s.node.handle mp) commands ack)
    (hheld : ∀ r status k, ack = some (r, status) → s.askers[r]? = some (i, k) → held = some k) :
    c.Talks mp kv (s.handle mp) i held := by
  have hg := StoreThread.handle_grows hh
  have hsub : ∀ r, (s.node.handle mp).store.pendingRequests.lookup r = some r →
      s.node.store.pendingRequests.lookup r = some r := by
    intro r hr
    rcases hh.calls with ⟨-, heq⟩ | ⟨id, r', status, -, -, heq, -⟩
    · exact heq ▸ hr
    · rw [heq] at hr
      by_cases hid : r = id
      · rw [hid, AList.lookup_erase] at hr
        cases hr
      · rwa [AList.lookup_erase_ne hid] at hr
  refine ⟨fun r k hk => ?_, fun r k hr hk => h.unanswered r k (hsub r hr) hk, h.once, fun a ha => ?_, h.ordered,
    fun a ha => (h.past a ha).trans hg.history.length_le, fun k hk hne => ?_, h.clean⟩
  · obtain ⟨req, commit, hreq, hcommit, hchanges⟩ := h.writes r k hk
    exact ⟨req, commit, hreq, getElem?_kept hg.issued hcommit, hchanges⟩
  · obtain ⟨req, hreq, hright⟩ := h.right a ha
    exact ⟨req, hreq, hright.mono (h.past a ha) hg⟩
  · rcases h.remembered k hk nofun with hdone | ⟨r, hr, hwaits⟩
    · exact Or.inl hdone
    · refine Or.inr ⟨r, hr, ?_⟩
      change (s.node.handle mp).store.pendingRequests.lookup r = some r
      rcases hh.calls with ⟨-, heq⟩ | ⟨id, r', status, hack, hlookup, heq, -⟩
      · rw [heq]
        exact hwaits
      · have hid := (hn.waits id r' hlookup).1
        by_cases hrr : r = r'
        · exact absurd (hheld r' status k hack (hrr ▸ hr)) hne
        · rw [heq, AList.lookup_erase_ne (fun h => hrr (h.trans hid))]
          exact hwaits

/-- Closures pass between the threads, or the map is another one. -/
theorem congr (h : c.Talks mp kv s i none) (hg : s.Grows s') (haskers : s'.askers = s.askers)
    (hpending : s'.node.store.pendingRequests = s.node.store.pendingRequests) : c.Talks mp kv s' i none := by
  refine ⟨fun r k hk => ?_, fun r k hr hk => h.unanswered r k (hpending ▸ hr) (haskers ▸ hk), h.once, fun a ha => ?_,
    h.ordered, fun a ha => (h.past a ha).trans hg.history.length_le, fun k hk hne => ?_, h.clean⟩
  · obtain ⟨req, commit, hreq, hcommit, hchanges⟩ := h.writes r k (haskers ▸ hk)
    exact ⟨req, commit, hreq, getElem?_kept hg.issued hcommit, hchanges⟩
  · obtain ⟨req, hreq, hright⟩ := h.right a ha
    exact ⟨req, hreq, hright.mono (h.past a ha) hg⟩
  · rw [hpending, haskers]
    exact h.remembered k hk hne

/-- The socket has moved, or the reader. -/
theorem moves (h : c.Talks mp kv s i none) (hasked : c'.asked = c.asked) (hreplies : c'.replies = c.replies)
    (hclean : c'.intact = true → ∃ front content, c'.Clean front content) : c'.Talks mp kv s i none := by
  refine ⟨?_, ?_, ?_, ?_, ?_, ?_, ?_, hclean⟩
  · rw [hasked]
    exact h.writes
  · rw [hreplies]
    exact h.unanswered
  · rw [hreplies]
    exact h.once
  · rw [hreplies, hasked]
    exact h.right
  · rw [hreplies]
    exact h.ordered
  · rw [hreplies]
    exact h.past
  · rw [hreplies, hasked]
    exact h.remembered

end Connection.Talks

/-! ### The steps -/

namespace FrontEnd
variable {kv : KeyValues} {f f' : FrontEnd rd} {i k : Nat} {req : RedisRequest}

/-- The request of the session is in hand: it has no answer, and nobody has it but the one who is to give one. -/
structure Holding (mp : Msgpack) (kv : KeyValues) (f : FrontEnd rd) (i k : Nat) (req : RedisRequest) : Prop where
  thread : f.thread.Keeps mp kv
  mine : (f.connections i).Talks mp kv f.thread i (some k)
  others : ∀ j, j ≠ i → (f.connections j).Talks mp kv f.thread j none
  asked : (f.connections i).asked[k]? = some req
  unanswered : k ∉ (f.connections i).replies.map Answer.request
  free : ∀ r : Nat, f.thread.node.store.pendingRequests.lookup r = some r → f.thread.askers[r]? ≠ some (i, k)

theorem setConnection_self (f : FrontEnd rd) (i : Nat) (c : Connection rd) : (f.setConnection i c).connections i = c :=
  Function.update_self ..

theorem setConnection_other (f : FrontEnd rd) {i j : Nat} (h : j ≠ i) (c : Connection rd) :
    (f.setConnection i c).connections j = f.connections j := Function.update_of_ne h ..

/-- It is answered. -/
theorem Holding.reply {call : ReplyCall} (h : f.Holding mp kv i k req)
    (hright : Answer.Right mp kv f.thread i
      { request := k, seen := f.thread.history.length, bytes := call.sent } req)
    (hr : f.reply i k call = .ok f') : f'.Sound mp kv := by
  obtain ⟨c, hc, hr⟩ := bind_ok hr
  obtain rfl := Except.ok.inj hr
  refine ⟨h.thread, fun j => ?_⟩
  by_cases hj : j = i
  · subst hj
    rw [setConnection_self]
    exact h.mine.reply h.asked h.unanswered h.free hright hc
  · rw [setConnection_other _ hj]
    exact h.others j hj

/-- It is handed to the store. -/
theorem Holding.hand {isDel : Bool} {data : RedisCommitData} (h : f.Holding mp kv i k req) (hchanges : req.Changes data)
    (hnew : (i, k) ∉ f.thread.askers) (hdel : isDel = true → data.type = kCommitDel)
    (hroom : (f.hand i k isDel data).Numbered) : (f.hand i k isDel data).Sound mp kv := by
  have hlen : f.thread.node.issued.length < 2 ^ 32 := by
    have hle : (f.thread.node.issued ++ [_]).length ≤ 2 ^ 32 := hroom
    rw [List.length_append, List.length_singleton] at hle
    omega
  refine ⟨h.thread.hand hlen hnew hdel, fun j => ?_⟩
  by_cases hj : j = i
  · subst hj
    exact h.mine.hand h.thread hlen (fun _ => ⟨rfl, ⟨req, h.asked, hchanges⟩, h.unanswered⟩)
      (fun hne => absurd rfl hne) isDel
  · exact (h.others j hj).hand h.thread hlen (fun heq => absurd heq.symm hj) (fun _ => rfl) isDel

/-- A new request comes into hand. -/
theorem Sound.asks (h : f.Sound mp kv) (i : Nat) (req : RedisRequest) :
    (f.setConnection i { f.connections i with asked := (f.connections i).asked ++ [req] }).Holding mp kv i
      (f.connections i).asked.length req ∧ (i, (f.connections i).asked.length) ∉ f.thread.askers := by
  have hfresh : (i, (f.connections i).asked.length) ∉ f.thread.askers := by
    intro hmem
    obtain ⟨r, hr⟩ := List.mem_iff_getElem?.mp hmem
    obtain ⟨req', -, hreq, -⟩ := (h.talks i).writes r _ hr
    exact absurd (List.getElem?_eq_some_iff.mp hreq).1 (lt_irrefl _)
  refine ⟨⟨h.thread, ?_, fun j hj => ?_, ?_, ?_, fun r _ hr => hfresh (List.mem_of_getElem? hr)⟩, hfresh⟩
  · rw [setConnection_self]
    exact (h.talks i).asks req
  · rw [setConnection_other _ hj]
    exact h.talks j
  · rw [setConnection_self, List.getElem?_concat_length]
  · rw [setConnection_self]
    intro hmem
    obtain ⟨a, ha, heq⟩ := List.mem_map.mp hmem
    obtain ⟨req', hreq, -⟩ := (h.talks i).right a ha
    rw [heq] at hreq
    exact absurd (List.getElem?_eq_some_iff.mp hreq).1 (lt_irrefl _)

/-- A request is answered at once, or handed to the store. -/
theorem Sound.request (h : f.Sound mp kv) (hr : f.request i req = .ok f') (hroom : f'.Numbered) : f'.Sound mp kv := by
  obtain ⟨hholding, hnew⟩ := h.asks i req
  obtain ⟨handled, hhandled, hr⟩ := bind_ok hr
  change Reply.onRedisReply f.thread.node.store req = .ok handled at hhandled
  cases handled with
  | replies call =>
      have hseen : kv.replay mp (f.thread.history.take f.thread.history.length) =
          .ok f.thread.node.store.keyValues := by
        rw [List.take_length]
        exact h.thread.map
      rw [onRedisReply_map] at hhandled
      exact hholding.reply (.read hseen hhandled rfl) hr
  | set key value =>
      obtain rfl := Except.ok.inj hr
      exact hholding.hand (.set (onRedisReply_change hhandled nofun _)) hnew nofun hroom
  | del keys =>
      obtain rfl := Except.ok.inj hr
      exact hholding.hand (.del (onRedisReply_change hhandled nofun _)) hnew (fun _ => rfl) hroom

theorem setConnection_stays {c : Connection rd} (h : (f.connections i).Stays c) (j : Nat) :
    (f.connections j).Stays ((f.setConnection i c).connections j) := by
  by_cases hj : j = i
  · subst hj
    rw [setConnection_self]
    exact h
  · rw [setConnection_other _ hj]
    exact .refl _

theorem reply_stays {call : ReplyCall} (hr : f.reply i k call = .ok f') :
    f'.thread = f.thread ∧ ∀ j, (f.connections j).Stays (f'.connections j) := by
  obtain ⟨c, hc, hr⟩ := bind_ok hr
  obtain rfl := Except.ok.inj hr
  exact ⟨rfl, setConnection_stays (Connection.sendReply_replied hc).stays⟩

/-- Some requests of one session have been read. -/
structure Asked (f f' : FrontEnd rd) (i : Nat) (reqs : List RedisRequest) : Prop where
  thread : f.thread.Handed f'.thread
  session : ∀ j, (f'.connections j).session = (f.connections j).session
  mine : (f'.connections i).asked = (f.connections i).asked ++ reqs
  others : ∀ j, j ≠ i → (f'.connections j).asked = (f.connections j).asked
  replies : ∀ j, (f.connections j).replies <+: (f'.connections j).replies

theorem Asked.stays {f'' : FrontEnd rd} {reqs : List RedisRequest} (h : f.Asked f' i reqs)
    (hthread : f'.thread.Handed f''.thread)
    (hstays : ∀ j, (f'.connections j).Stays (f''.connections j)) : f.Asked f'' i reqs :=
  ⟨h.thread.trans hthread, fun j => (hstays j).session.trans (h.session j), (hstays i).asked.trans h.mine,
    fun j hj => (hstays j).asked.trans (h.others j hj), fun j => (h.replies j).trans (hstays j).replies⟩

theorem asks_asked (f : FrontEnd rd) (i : Nat) (req : RedisRequest) :
    f.Asked (f.setConnection i { f.connections i with asked := (f.connections i).asked ++ [req] }) i [req] := by
  refine ⟨.refl _, fun j => ?_, by rw [setConnection_self], fun j hj => by rw [setConnection_other _ hj], fun j => ?_⟩
  all_goals
    by_cases hj : j = i
    · subst hj
      rw [setConnection_self]
    · rw [setConnection_other _ hj]

theorem request_asked (hr : f.request i req = .ok f') : f.Asked f' i [req] := by
  have hasks := asks_asked f i req
  obtain ⟨handled, -, hr⟩ := bind_ok hr
  cases handled with
  | replies call =>
      obtain ⟨hthread, hstays⟩ := reply_stays hr
      exact hasks.stays (hthread ▸ .refl _) hstays
  | set key value =>
      obtain rfl := Except.ok.inj hr
      exact hasks.stays (StoreThread.hand_handed ..) fun j => .refl _
  | del keys =>
      obtain rfl := Except.ok.inj hr
      exact hasks.stays (StoreThread.hand_handed ..) fun j => .refl _

/-- What a read holds is answered request by request. -/
theorem requests_asked {reqs : List RedisRequest} (hr : reqs.foldlM (fun f req => f.request i req) f = .ok f') :
    f.Asked f' i reqs := by
  induction reqs generalizing f with
  | nil =>
      obtain rfl := Except.ok.inj hr
      exact ⟨.refl _, fun _ => rfl, (List.append_nil _).symm, fun _ _ => rfl, fun _ => List.prefix_refl _⟩
  | cons req reqs ih =>
      rw [List.foldlM_cons] at hr
      obtain ⟨f₁, hr₁, hr⟩ := bind_ok hr
      have hrest := ih hr
      have hone := request_asked hr₁
      refine ⟨hone.thread.trans hrest.thread, fun j => (hrest.session j).trans (hone.session j), ?_,
        fun j hj => (hrest.others j hj).trans (hone.others j hj), fun j => (hone.replies j).trans (hrest.replies j)⟩
      rw [hrest.mine, hone.mine, List.append_assoc]
      rfl

theorem Sound.requests {reqs : List RedisRequest} (h : f.Sound mp kv)
    (hr : reqs.foldlM (fun f req => f.request i req) f = .ok f') (hroom : f'.Numbered) : f'.Sound mp kv := by
  induction reqs generalizing f with
  | nil =>
      obtain rfl := Except.ok.inj hr
      exact h
  | cons req reqs ih =>
      rw [List.foldlM_cons] at hr
      obtain ⟨f₁, hr₁, hr⟩ := bind_ok hr
      exact ih (h.request hr₁ ((requests_asked hr).thread.issued.trans hroom)) hr

theorem setConnection_sound (h : f.Sound mp kv) {c : Connection rd} (hasked : c.asked = (f.connections i).asked)
    (hreplies : c.replies = (f.connections i).replies)
    (hclean : c.intact = true → ∃ front content, c.Clean front content) : (f.setConnection i c).Sound mp kv := by
  refine ⟨h.thread, fun j => ?_⟩
  by_cases hj : j = i
  · subst hj
    rw [setConnection_self]
    exact (h.talks j).moves hasked hreplies hclean
  · rw [setConnection_other _ hj]
    exact h.talks j

theorem Sound.receive {bytes : Bytes} (h : f.Sound mp kv) (hr : f.receive i bytes = .ok f') (hroom : f'.Numbered) :
    f'.Sound mp kv := by
  have hread : (f.setConnection i { f.connections i with
      session := (f.connections i).session.receive bytes }).Sound mp kv := by
    refine setConnection_sound h rfl rfl fun hi => ?_
    obtain ⟨front, content, hclean⟩ := (h.talks i).clean hi
    exact ⟨front, content, hclean.hears ((f.connections i).session.receive bytes) (f.connections i).asked⟩
  exact hread.requests hr hroom

theorem handle_callbacks (hr : f.handle mp = .ok f') : ∃ commands ack,
    ClientNode.Handles mp f.thread.node (f.thread.node.handle mp) commands ack ∧
      ack.toList.foldlM callback { f with thread := f.thread.handle mp } = .ok f' := by
  unfold FrontEnd.handle at hr
  obtain ⟨commands, ack, hh⟩ : ∃ commands ack,
      ClientNode.Handles mp f.thread.node (f.thread.node.handle mp) commands ack := by
    refine ClientNode.handle_handles fun command hcommand => ?_
    rw [hcommand] at hr
    obtain ⟨res, hres, -⟩ := bind_ok hr
    exact ⟨res, hres⟩
  have hfold : (((f.thread.node.handle mp).acks.drop f.thread.node.acks.length).foldlM callback
      { f with thread := f.thread.handle mp } : Result (FrontEnd rd)) = .ok f' := by
    split at hr
    · obtain ⟨res, -, hr⟩ := bind_ok hr
      exact hr
    · exact hr
  rw [hh.acks, List.drop_left] at hfold
  exact ⟨commands, ack, hh, hfold⟩

theorem callback_reply {ack : Option (Nat × Status)} (hr : ack.toList.foldlM callback f = .ok f') :
    ack = none ∧ f' = f ∨ ∃ r status i k, ack = some (r, status) ∧ f.thread.askers[r]? = some (i, k) ∧
      f.reply i k (replyStatus status) = .ok f' := by
  cases ack with
  | none => exact Or.inl ⟨rfl, (Except.ok.inj hr).symm⟩
  | some ack =>
      rw [Option.toList_some, List.foldlM_cons] at hr
      obtain ⟨f₁, hf₁, hr⟩ := bind_ok hr
      obtain rfl := Except.ok.inj hr
      unfold callback at hf₁
      split at hf₁
      · cases hf₁
      · rename_i i k hasker
        exact Or.inr ⟨ack.1, ack.2, i, k, rfl, hasker, hf₁⟩

/-- A callback that the store has called answers its request. -/
theorem Sound.handle (h : f.Sound mp kv) (hr : f.handle mp = .ok f') : f'.Sound mp kv := by
  obtain ⟨commands, ack, hh, hfold⟩ := handle_callbacks hr
  have hthread := h.thread.handle hh
  rcases callback_reply hfold with ⟨rfl, rfl⟩ | ⟨r, status, i, k, rfl, hasker, hreply⟩
  · exact ⟨hthread, fun i => (h.talks i).handles h.thread hh nofun⟩
  change f.thread.askers[r]? = some (i, k) at hasker
  obtain ⟨req, commit, hreq, hcommit, hchanges⟩ := (h.talks i).writes r k hasker
  obtain ⟨hlookup, herase, htells⟩ := h.thread.tells hh hcommit
  have hholding : Holding mp kv { f with thread := f.thread.handle mp } i k req := by
    refine ⟨hthread, (h.talks i).handles h.thread hh fun r' status' k' hack hk' => ?_,
      fun j hj => (h.talks j).handles h.thread hh fun r' status' k' hack hk' => ?_, hreq,
      (h.talks i).unanswered r k hlookup hasker, fun r' hr' heq => ?_⟩
    · obtain ⟨rfl, -⟩ := Prod.mk.inj (Option.some.inj hack)
      exact congrArg (some ·.2) (Option.some.inj (hasker.symm.trans hk'))
    · obtain ⟨rfl, -⟩ := Prod.mk.inj (Option.some.inj hack)
      exact absurd (congrArg Prod.fst (Option.some.inj (hasker.symm.trans hk'))).symm hj
    · obtain rfl : r = r' := (List.getElem?_inj (List.getElem?_eq_some_iff.mp hasker).1 h.thread.distinct).mp
        (hasker.trans heq.symm)
      change (f.thread.node.handle mp).store.pendingRequests.lookup r = some r at hr'
      rw [herase, AList.lookup_erase] at hr'
      cases hr'
  have hissued : (f.thread.node.handle mp).issued[r]? = some commit := hh.issued ▸ hcommit
  exact hholding.reply (.change hasker hissued hchanges htells rfl) hreply

/-- The store is asked nothing, and calls nobody back. -/
theorem Sound.posts {s : StoreThread} (h : f.Sound mp kv) (hs : s.Keeps mp kv) (hg : f.thread.Grows s)
    (haskers : s.askers = f.thread.askers)
    (hpending : s.node.store.pendingRequests = f.thread.node.store.pendingRequests) :
    Sound mp kv { f with thread := s } :=
  ⟨hs, fun i => (h.talks i).congr hg haskers hpending⟩

theorem Sound.step {e : FrontEvent} (h : f.Sound mp kv) (ha : f.Allowed e) (hs : f.step mp e = .ok f')
    (hroom : f'.Numbered) : f'.Sound mp kv := by
  cases e with
  | receive i bytes => exact h.receive hs hroom
  | handle => exact h.handle hs
  | propose status =>
      obtain rfl := Except.ok.inj hs
      exact h.posts (h.thread.propose status) (f.thread.propose_grows status) rfl
        (congrArg RedisStore.pendingRequests (f.thread.propose_frame status).2.1)
  | publish data =>
      obtain rfl := Except.ok.inj hs
      exact h.posts (h.thread.publish data) (f.thread.publish_grows data) rfl rfl
  | recover snap =>
      obtain ⟨thread, hthread, hs⟩ := bind_ok hs
      obtain rfl := Except.ok.inj hs
      obtain ⟨hkeeps, hg⟩ := h.thread.recover hthread
      obtain ⟨map, -, rfl⟩ := StoreThread.recover_change hthread
      exact h.posts hkeeps hg rfl rfl
  | takes i bytes =>
      obtain rfl := Except.ok.inj hs
      obtain ⟨n, hn, hle, hbytes⟩ := ha
      refine setConnection_sound h rfl rfl fun hi => ?_
      obtain ⟨front, content, hclean⟩ := (h.talks i).clean hi
      exact ⟨front, content, hclean.takes hn hle (hbytes hi)⟩
  | written i =>
      obtain ⟨c, hc, hs⟩ := bind_ok hs
      obtain rfl := Except.ok.inj hs
      obtain ⟨buffer, -, hstart⟩ := bind_ok hc
      obtain ⟨-, hasked, hreplies, hintact⟩ := Connection.startSend_frame hstart
      refine setConnection_sound h hasked hreplies fun hi => ?_
      obtain ⟨front, content, hclean⟩ := (h.talks i).clean (hintact ▸ hi)
      obtain ⟨c', hc', hclean'⟩ := hclean.written ha
      obtain rfl := Except.ok.inj (hc.symm.trans hc')
      exact ⟨_, _, hclean'⟩
  | writeFails i =>
      obtain rfl := Except.ok.inj hs
      refine setConnection_sound h rfl rfl fun hi => ?_
      obtain ⟨front, content, hclean⟩ := (h.talks i).clean hi
      exact ⟨front, content, hclean.writeFails⟩

theorem started_sound (rd : RedisReader RedisRequest) (mp : Msgpack) (nodeId : Nat) (kv : KeyValues) :
    (started rd nodeId kv).Sound mp kv := by
  refine ⟨⟨rfl, rfl, nofun, rfl, List.nodup_nil, nofun, nofun⟩, fun i => ?_⟩
  exact ⟨nofun, nofun, List.nodup_nil, nofun, List.Pairwise.nil, nofun, nofun,
    fun _ => ⟨[], [], Connection.fresh_clean⟩⟩

theorem Runs.sound {P : FrontEnd rd → FrontEvent → FrontEnd rd → Prop} {nodeId : Nat}
    (h : Runs mp P (started rd nodeId kv) f) : f.Sound mp kv := by
  induction h with
  | refl => exact started_sound rd mp nodeId kv
  | tail _ hstep ih =>
      obtain ⟨e, ha, hs, hroom, -⟩ := hstep
      exact ih.step ha hs hroom

end FrontEnd

end RaftEtcd
