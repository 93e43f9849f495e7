import RaftEtcd.Answers

/-! What clients of a server can rely on: their answers are right, those of a client that waits come in the order of its
requests, and a session reads its own writes. -/
namespace RaftEtcd
variable {rd : RedisReader RedisRequest} {mp : Msgpack}

namespace FrontEnd
variable {kv : KeyValues} {f f' : FrontEnd rd} {i k : Nat} {req : RedisRequest}

/-! ### The requests -/

theorem readLoop_handled (fuel : Nat) (s : RedisSession rd) (bytes : Bytes) (replies : List RedisRequest) :
    (RedisSession.readLoop fuel s bytes replies).1.handled = s.handled := by
  induction fuel generalizing s bytes replies with
  | zero => rfl
  | succ fuel ih =>
      rw [RedisSession.readLoop]
      split
      · rfl
      split
      · rw [RedisSession.start]
        split <;> rfl
      split
      · rfl
      dsimp only
      split
      · rfl
      · rw [ih]

/-- A read adds requests to those that were handled. -/
theorem receive_handled (s : RedisSession rd) (bytes : Bytes) : s.handled <+: (s.receive bytes).handled := by
  unfold RedisSession.receive
  split
  · exact List.prefix_refl _
  dsimp only
  split
  · exact List.prefix_refl _
  have hloop := readLoop_handled bytes.length { s with reads := s.reads - 1 } bytes []
  unfold RedisSession.handleRead
  split
  · rename_i s₁ replies hread
    rw [hread] at hloop
    have hstart : ∀ g : RedisSession rd, g.start.handled = g.handled := by
      intro g
      rw [RedisSession.start]
      split <;> rfl
    rw [hstart]
    exact hloop ▸ List.prefix_append _ _
  · rename_i s₁ replies hread
    rw [hread] at hloop
    exact hloop ▸ List.prefix_refl _

/-- What is asked of the server is what the readers have found. -/
def Listens (f : FrontEnd rd) : Prop := ∀ i, (f.connections i).asked = (f.connections i).session.handled

theorem Listens.receive {bytes : Bytes} (h : f.Listens) (hr : f.receive i bytes = .ok f') : f'.Listens := by
  have hasked := requests_asked hr
  intro j
  rw [hasked.session]
  by_cases hj : j = i
  · subst hj
    rw [hasked.mine, setConnection_self]
    obtain ⟨more, hmore⟩ := receive_handled (f.connections j).session bytes
    change (f.connections j).asked ++ _ = _
    rw [← hmore, List.drop_left, h j]
  · rw [hasked.others j hj, setConnection_other _ hj]
    exact h j

/-- Only reads bring requests. -/
theorem step_stays {e : FrontEvent} (hs : f.step mp e = .ok f') (hne : ∀ i bytes, e ≠ .receive i bytes) (j : Nat) :
    (f.connections j).Stays (f'.connections j) := by
  cases e with
  | receive i bytes => exact absurd rfl (hne i bytes)
  | propose status =>
      obtain rfl := Except.ok.inj hs
      exact .refl _
  | publish data =>
      obtain rfl := Except.ok.inj hs
      exact .refl _
  | handle =>
      obtain ⟨commands, ack, -, hfold⟩ := handle_callbacks hs
      rcases callback_reply hfold with ⟨-, rfl⟩ | ⟨r, status, i, k, -, -, hreply⟩
      · exact .refl _
      · have hstays := (reply_stays hreply).2
        exact hstays j
  | recover snap =>
      obtain ⟨thread, -, hs⟩ := bind_ok hs
      obtain rfl := Except.ok.inj hs
      exact .refl _
  | takes i bytes =>
      obtain rfl := Except.ok.inj hs
      have hstays : (f.connections i).Stays ((f.connections i).takes bytes) := ⟨rfl, rfl, List.prefix_refl _⟩
      exact setConnection_stays hstays j
  | written i =>
      obtain ⟨c, hc, hs⟩ := bind_ok hs
      obtain rfl := Except.ok.inj hs
      obtain ⟨buffer, -, hstart⟩ := bind_ok hc
      obtain ⟨hsession, hasked, hreplies, -⟩ := Connection.startSend_frame hstart
      exact setConnection_stays ⟨hsession, hasked, hreplies ▸ List.prefix_refl _⟩ j
  | writeFails i =>
      obtain rfl := Except.ok.inj hs
      have hstays : (f.connections i).Stays (f.connections i).writeFails := ⟨rfl, rfl, List.prefix_refl _⟩
      exact setConnection_stays hstays j

theorem step_asked {e : FrontEvent} (hs : f.step mp e = .ok f') (hne : ∀ bytes, e ≠ .receive i bytes) :
    (f'.connections i).asked = (f.connections i).asked := by
  by_cases hread : ∀ j bytes, e ≠ .receive j bytes
  · exact (step_stays hs hread i).asked
  · push Not at hread
    obtain ⟨j, bytes, rfl⟩ := hread
    have hij : i ≠ j := fun h => hne bytes (h ▸ rfl)
    have hasked := requests_asked hs
    rw [hasked.others i hij, setConnection_other _ hij]

theorem Listens.step {e : FrontEvent} (h : f.Listens) (hs : f.step mp e = .ok f') : f'.Listens := by
  by_cases hne : ∀ i bytes, e ≠ .receive i bytes
  · intro j
    rw [(step_stays hs hne j).session, (step_stays hs hne j).asked]
    exact h j
  · push Not at hne
    obtain ⟨i, bytes, rfl⟩ := hne
    exact h.receive hs

theorem Runs.listens {P : FrontEnd rd → FrontEvent → FrontEnd rd → Prop} {nodeId : Nat}
    (h : Runs mp P (started rd nodeId kv) f) : f.Listens := by
  induction h with
  | refl =>
      intro i
      change [] = (RedisSession.opened rd).handled
      rfl
  | tail _ hstep ih =>
      obtain ⟨e, -, hs, -⟩ := hstep
      exact ih.step hs

/-! ### The replies -/

theorem step_replies {e : FrontEvent} (hs : f.step mp e = .ok f') (j : Nat) :
    (f.connections j).replies <+: (f'.connections j).replies := by
  by_cases hne : ∀ i bytes, e ≠ .receive i bytes
  · exact (step_stays hs hne j).replies
  · push Not at hne
    obtain ⟨i, bytes, rfl⟩ := hne
    have hadds := (requests_asked hs).replies j
    by_cases hj : j = i
    · subst hj
      rw [setConnection_self] at hadds
      exact hadds
    · rw [setConnection_other _ hj] at hadds
      exact hadds

/-- The client of the session waits: when a request of it is read, all those before have been replied to. -/
def Waits (i : Nat) (f : FrontEnd rd) (e : FrontEvent) (f' : FrontEnd rd) : Prop :=
  match e with
  | .receive j _ => j = i → (f'.connections i).asked.length ≤ (f.connections i).replies.length + 1
  | _ => True

/-- With one request on its way at most, the replies come in order. -/
structure InTurn (f : FrontEnd rd) (i : Nat) : Prop where
  few : (f.connections i).asked.length ≤ (f.connections i).replies.length + 1
  turns : (f.connections i).replies.map Answer.request = List.range (f.connections i).replies.length

/-- What is new can only be the answer that was waited for. -/
theorem InTurn.adds (h : f.InTurn i) (hs : f'.Sound mp kv)
    (hadds : (f.connections i).replies <+: (f'.connections i).replies)
    (hfew : (f'.connections i).asked.length ≤ (f.connections i).replies.length + 1) : f'.InTurn i := by
  obtain ⟨more, hmore⟩ := hadds
  have honce := (hs.talks i).once
  have hbound : ∀ a ∈ more, a.request < (f'.connections i).asked.length := by
    intro a ha
    obtain ⟨req, hreq, -⟩ := (hs.talks i).right a (hmore ▸ List.mem_append_right _ ha)
    exact (List.getElem?_eq_some_iff.mp hreq).1
  rw [← hmore, List.map_append, h.turns] at honce
  obtain ⟨-, hdistinct, hapart⟩ := List.nodup_append.mp honce
  have hnext : ∀ a ∈ more, a.request = (f.connections i).replies.length := by
    intro a ha
    have hlt := hbound a ha
    have hge : ¬ a.request < (f.connections i).replies.length := fun hlow =>
      hapart _ (List.mem_range.mpr hlow) _ (List.mem_map_of_mem ha) rfl
    omega
  have hlen : (f'.connections i).replies.length = (f.connections i).replies.length + more.length := by
    rw [← hmore, List.length_append]
  cases more with
  | nil =>
      refine ⟨by omega, ?_⟩
      rw [← hmore, List.append_nil]
      exact h.turns
  | cons a more =>
      cases more with
      | nil =>
          refine ⟨by omega, ?_⟩
          rw [hlen, ← hmore, List.map_append, h.turns, List.map_singleton, hnext a (List.mem_singleton_self a)]
          exact List.range_succ.symm
      | cons b more =>
          rw [List.map_cons, List.map_cons, hnext a (List.mem_cons_self ..),
            hnext b (List.mem_cons_of_mem _ (List.mem_cons_self ..))] at hdistinct
          exact absurd (List.mem_cons_self ..) (List.nodup_cons.mp hdistinct).1

theorem Runs.inTurn {nodeId : Nat} (h : Runs mp (Waits i) (started rd nodeId kv) f) : f.InTurn i := by
  induction h with
  | refl => exact ⟨Nat.zero_le _, rfl⟩
  | tail hruns hstep ih =>
      obtain ⟨e, ha, hs, hroom, hwaits⟩ := hstep
      have hsound : FrontEnd.Sound mp kv _ := (Runs.sound hruns).step ha hs hroom
      refine ih.adds hsound (step_replies hs i) ?_
      by_cases hread : ∃ bytes, e = .receive i bytes
      · obtain ⟨bytes, rfl⟩ := hread
        exact hwaits rfl
      · have hsame := step_asked hs fun bytes heq => hread ⟨bytes, heq⟩
        rw [hsame]
        exact ih.few

/-! ### Runs that can be computed -/

/-- The events, as far as they may happen. -/
def play (mp : Msgpack) (P : FrontEnd rd → FrontEvent → FrontEnd rd → Prop) [∀ f e f', Decidable (P f e f')]
    (f : FrontEnd rd) : List FrontEvent → Result (FrontEnd rd)
  | [] => .ok f
  | e :: events => do
      let f' ← f.step mp e
      if f.Allowed e ∧ f'.thread.node.issued.length ≤ 2 ^ 32 ∧ P f e f' then play mp P f' events
      else .error "this does not happen"

theorem play_runs {P : FrontEnd rd → FrontEvent → FrontEnd rd → Prop} [∀ f e f', Decidable (P f e f')]
    {events : List FrontEvent} (h : f.play mp P events = .ok f') : Runs mp P f f' := by
  induction events generalizing f with
  | nil =>
      obtain rfl := Except.ok.inj h
      exact .refl
  | cons e events ih =>
      obtain ⟨f₁, hstep, hrest⟩ := bind_ok h
      split at hrest
      · rename_i hmay
        exact .head ⟨e, hmay.1, hstep, hmay.2⟩ (ih hrest)
      · cases hrest

instance (i : Nat) (f : FrontEnd rd) (e : FrontEvent) (f' : FrontEnd rd) : Decidable (Waits i f e f') :=
  match e with
  | .receive _ _ => inferInstanceAs (Decidable (_ = _ → _ ≤ _))
  | .propose _ | .publish _ | .handle | .recover _ | .takes _ _ | .written _ | .writeFails _ => isTrue trivial

end FrontEnd

/-! ### What clients are told -/

/-- What hiredis makes of the arrays of strings that clients send. -/
def commandReader : RedisReader RedisRequest where
  State := Bytes
  init := []
  feed := requestReader.feed
  getReply buf := (requestReader.getReply buf).map fun q => (q.1.map fun strs => .array (strs.map .string), q.2)

/-- `set a 1` and `get a`. -/
def setLines : Bytes := text "*3\r\n$3\r\nset\r\n$1\r\na\r\n$1\r\n1\r\n"
def getLines : Bytes := text "*2\r\n$3\r\nget\r\n$1\r\na\r\n"

/-- What commits the first request. -/
def commitFirst : List FrontEvent :=
  [.propose .ok, .handle, .publish (firstCommand (ClientNode.setData [97] [49])).data, .handle]

/-- Both requests in one read: the second is answered while the first waits for the store. -/
def pipelinedGet : List FrontEvent :=
  .receive 0 (setLines ++ getLines) :: commitFirst ++ [.takes 0 Shared.null, .written 0, .takes 0 Shared.ok, .written 0]

/-- A client that waits for each answer gets the answers in the order of its requests: the `k`-th one is right for the
`k`-th request. -/
theorem waiting_client_in_turn {nodeId : Nat} {kv : KeyValues} {f : FrontEnd rd} {i : Nat}
    (h : FrontEnd.Runs mp (FrontEnd.Waits i) (FrontEnd.started rd nodeId kv) f) :
    (f.connections i).session.handled.length ≤ (f.connections i).replies.length + 1 ∧
      ∀ (k : Nat) (a : Answer), (f.connections i).replies[k]? = some a → a.request = k ∧
        ∃ req, (f.connections i).session.handled[k]? = some req ∧ a.Right mp kv f.thread i req := by
  have hsound : f.Sound mp kv := h.sound
  have hturn := h.inTurn
  have hasked := h.listens i
  rw [← hasked]
  refine ⟨hturn.few, fun k a hk => ?_⟩
  have hrequest : ((f.connections i).replies.map Answer.request)[k]? = some a.request := by
    rw [List.getElem?_map, hk, Option.map_some]
  rw [hturn.turns, List.getElem?_range (List.getElem?_eq_some_iff.mp hk).1] at hrequest
  obtain rfl := Option.some.inj hrequest
  exact ⟨rfl, (hsound.talks i).right a (List.mem_of_getElem? hk)⟩

/-- The second request is sent when the answer to the first one is there. -/
def waitingGet : List FrontEvent :=
  .receive 0 setLines :: commitFirst ++ [.takes 0 Shared.ok, .written 0, .receive 0 getLines]

theorem waiting_client_in_turn_get : ∃ f : FrontEnd commandReader,
    FrontEnd.Runs messagePack (FrontEnd.Waits 0) (FrontEnd.started commandReader 1 ∅) f ∧
      (f.connections 0).replies.length = 2 ∧
      ∀ (k : Nat) (a : Answer), (f.connections 0).replies[k]? = some a → a.request = k := by
  obtain ⟨f, hplay, hlength⟩ : ∃ f, (FrontEnd.started commandReader 1 ∅).play messagePack (FrontEnd.Waits 0)
      waitingGet = .ok f ∧ decide ((f.connections 0).replies.length = 2) = true :=
    exists_ok_of_any (by decide +kernel)
  have hruns := FrontEnd.play_runs hplay
  have hturn : _ ∧ ∀ (k : Nat) (a : Answer), (f.connections 0).replies[k]? = some a → a.request = k ∧
      ∃ req, (f.connections 0).session.handled[k]? = some req ∧ a.Right messagePack ∅ f.thread 0 req :=
    waiting_client_in_turn hruns
  exact ⟨f, hruns, of_decide_eq_true hlength, fun k a hk => (hturn.2 k a hk).1⟩

/-- The answers to a client that does not wait can overtake each other. -/
theorem pipelined_answers_overtake : ¬∀ f : FrontEnd commandReader,
    FrontEnd.Runs messagePack (fun _ _ _ => True) (FrontEnd.started commandReader 1 ∅) f →
      ∀ (k : Nat) (a : Answer), (f.connections 0).replies[k]? = some a → a.request = k := by
  intro hclaim
  obtain ⟨f, hplay, hfirst⟩ : ∃ f, (FrontEnd.started commandReader 1 ∅).play messagePack (fun _ _ _ => True)
      pipelinedGet = .ok f ∧ decide ((f.connections 0).replies.map Answer.request = [1, 0]) = true :=
    exists_ok_of_any (by decide +kernel)
  have hrequests : (f.connections 0).replies.map Answer.request = [1, 0] := of_decide_eq_true hfirst
  cases hreplies : (f.connections 0).replies with
  | nil =>
      rw [hreplies] at hrequests
      cases hrequests
  | cons a rest =>
      rw [hreplies] at hrequests
      have hone := (List.cons.inj hrequests).1
      have hzero := hclaim f (FrontEnd.play_runs hplay) 0 a (by rw [hreplies]; rfl)
      omega

/-! ### What a session reads of its own writes -/

deriving instance DecidableEq for RedisElement, RedisRequest

/-- `GET` of a key, and `SET`. -/
def RedisRequest.Gets (req : RedisRequest) (key : Bytes) : Prop :=
  ∃ name, commandTable.lookup name = some .get ∧ req = .array [.string name, .string key]

def RedisRequest.Sets (req : RedisRequest) (key value : Bytes) : Prop :=
  ∃ name, commandTable.lookup name = some .set ∧ req = .array [.string name, .string key, .string value]

/-- After this change the key may have another value. -/
inductive MapChange.Touches (mp : Msgpack) (key : Bytes) : MapChange → Prop
  | command {data : Bytes} {commit : RaftCommit} (decodes : decodeCommit mp data = some commit)
      (touches : commit.redisData.Touches key) : Touches mp key (.command data)
  | snapshot {snap : Bytes} : Touches mp key (.snapshot snap)

/-- The commands of this server that have been applied are the ones that it has issued: none of them is left over from
an earlier process. -/
def StoreThread.Own (mp : Msgpack) (s : StoreThread) : Prop :=
  ∀ bytes commit, .command bytes ∈ s.history → decodeCommit mp bytes = some commit → commit.nodeId = s.node.nodeId →
    s.node.issued[commit.commitId]? = some commit

namespace KeyValues
variable {kv kv' : KeyValues} {key value : Bytes}

theorem replay_lookup {changes : List MapChange} (h : kv.replay mp changes = .ok kv')
    (hkey : ∀ change ∈ changes, ¬ change.Touches mp key) : kv'.lookup key = kv.lookup key := by
  induction changes generalizing kv with
  | nil =>
      obtain rfl := Except.ok.inj h
      rfl
  | cons change changes ih =>
      obtain ⟨kv₁, happly, h⟩ := bind_ok h
      rw [ih h fun c hc => hkey c (List.mem_cons_of_mem _ hc)]
      have hchange := hkey change List.mem_cons_self
      cases change with
      | snapshot snap => exact absurd .snapshot hchange
      | command data =>
          unfold applyChange at happly
          dsimp only at happly
          cases hdecode : decodeCommit mp data with
          | none =>
              rw [hdecode] at happly
              rw [← Except.ok.inj happly]
          | some commit =>
              rw [hdecode] at happly
              exact applyData_lookup happly fun htouches => hchange (.command hdecode htouches)

/-- A value that was set is there as long as nothing touches its key. -/
theorem replay_set {before later : List MapChange} {data : Bytes} {commit : RaftCommit}
    (h : kv.replay mp (before ++ .command data :: later) = .ok kv') (hdecode : decodeCommit mp data = some commit)
    (hset : commit.redisData = ClientNode.setData key value) (hlater : ∀ change ∈ later, ¬ change.Touches mp key) :
    kv'.lookup key = some value := by
  unfold replay at h
  rw [List.foldlM_append] at h
  obtain ⟨kv₁, -, h⟩ := bind_ok h
  rw [List.foldlM_cons] at h
  obtain ⟨kv₂, happly, h⟩ := bind_ok h
  rw [replay_lookup h hlater]
  have hinsert : applyChange mp kv₁ (.command data) = .ok (kv₁.insert key value) := by
    unfold applyChange
    dsimp only
    rw [hdecode]
    dsimp only
    rw [hset]
    rfl
  obtain rfl := Except.ok.inj (happly.symm.trans hinsert)
  exact AList.lookup_insert kv₁

end KeyValues

theorem replyStatus_ok {status : Status} (h : (replyStatus status).sent = Shared.ok) : status.isOk = true := by
  cases hok : status.isOk with
  | true => rfl
  | false =>
      rw [replyStatus, hok, if_neg Bool.false_ne_true] at h
      have herror : ∀ rest : Bytes, (replyFormatted (45 :: rest)).sent ≠ Shared.ok := by
        intro rest heq
        have hhead : ∀ m : Nat, ((((45 : UInt8) :: rest).take 255).take m).head? ≠ some 43 := by
          intro m
          cases m with
          | zero => nofun
          | succ m => simp
        have hplus : Shared.ok.head? = some 43 := by decide +kernel
        exact hhead (replyFormatted (45 :: rest)).len ((congrArg List.head? heq).trans hplus)
      have hminus : ∃ rest, Shared.err status.toString = 45 :: rest := by
        have herr : text "-ERR " = [45, 69, 82, 82, 32] := by decide +kernel
        rw [Shared.err, herr]
        exact ⟨_, rfl⟩
      obtain ⟨rest, hrest⟩ := hminus
      rw [hrest] at h
      exact absurd h (herror rest)

namespace Answer.Right
variable {kv : KeyValues} {s : StoreThread} {i : Nat} {a : Answer} {req : RedisRequest} {key value : Bytes}

/-- A SET is told that it is done when a command of this server has been applied, which is its own unless it is one of
an earlier process. -/
theorem set_applied (h : a.Right mp kv s i req) (hset : req.Sets key value) (hok : a.bytes = Shared.ok) :
    ∃ bytes commit, .command bytes ∈ s.history.take a.seen ∧ decodeCommit mp bytes = some commit ∧
      commit.nodeId = s.node.nodeId ∧ (s.Own mp → commit.redisData = ClientNode.setData key value) := by
  obtain ⟨name, hname, rfl⟩ := hset
  have hhandled : ∀ store : RedisStore Nat, Reply.onRedisReply store
      (.array [.string name, .string key, .string value]) = .ok (.set key value) :=
      fun _ => onRedisReply_command hname _
  cases h with
  | read seen answers bytes => cases (hhandled _).symm.trans answers
  | change asked issued changes tells bytes =>
      have hstatus := replyStatus_ok (bytes.symm.trans hok)
      have hdata := changes.set_data (hhandled _)
      cases tells with
      | proposed said notSet =>
          have htype := notSet hstatus
          rw [hdata] at htype
          have htypes : kCommitSet ≠ kCommitDel := by decide
          exact absurd htype htypes
      | applied done decodes mine number =>
          refine ⟨_, _, done, decodes, mine, fun hown => ?_⟩
          have hissued := hown _ _ (List.mem_of_mem_take done) decodes mine
          rw [number, issued] at hissued
          obtain rfl := Option.some.inj hissued
          exact hdata

/-- A GET shows the value of the map that it has seen. -/
theorem get_value (h : a.Right mp kv s i req) (hget : req.Gets key)
    (hvalue : ∀ map : KeyValues, kv.replay mp (s.history.take a.seen) = .ok map → map.lookup key = some value)
    (hzero : 0 ∉ value) (hlength : (Resp.bulk value).length < 2 ^ 31) : a.bytes = Resp.bulk value := by
  obtain ⟨name, hname, rfl⟩ := hget
  have hrun : ∀ store : RedisStore Nat, Reply.onRedisReply store (.array [.string name, .string key]) =
      Reply.getCommand store [.string name, .string key] := fun _ => onRedisReply_command hname _
  cases h with
  | read seen answers bytes =>
      rename_i map call
      have hlookup : ({ keyValues := map } : RedisStore Nat).get key = some value := hvalue map seen
      have hsome : getCommand ({ keyValues := map } : RedisStore Nat) [.string name, .string key] =
          .ok (Resp.bulk value) := (getCommand_some hlookup).mpr ⟨hzero, hlength⟩
      rw [getCommand_sent, ← hrun, answers] at hsome
      exact bytes.trans (Except.ok.inj hsome)
  | change asked issued changes tells bytes =>
      obtain ⟨handled, hhandled, hwrites⟩ := changes.handled
      obtain ⟨call, rfl⟩ := getCommand_replies ((hrun _).symm.trans hhandled)
      exact absurd rfl (hwrites call)

end Answer.Right

/-- A session that was told of a SET that it is done has the write in the map that each later GET shows; and if no
change
since then touches the key, the GET sends this value. -/
theorem own_write_read {P : FrontEnd rd → FrontEvent → FrontEnd rd → Prop} {nodeId : Nat} {kv : KeyValues}
    {f : FrontEnd rd} (h : FrontEnd.Runs mp P (FrontEnd.started rd nodeId kv) f) (hown : f.thread.Own mp) {i p q : Nat}
    {a b : Answer} {write read : RedisRequest} {key value : Bytes} (hpq : p < q)
    (ha : (f.connections i).replies[p]? = some a) (hb : (f.connections i).replies[q]? = some b)
    (hsetAt : (f.connections i).session.handled[a.request]? = some write) (hset : write.Sets key value)
    (hok : a.bytes = Shared.ok) (hgetAt : (f.connections i).session.handled[b.request]? = some read)
    (hget : read.Gets key) :
    ∃ before bytes commit later, f.thread.history.take b.seen = before ++ .command bytes :: later ∧
      before.length < a.seen ∧ decodeCommit mp bytes = some commit ∧
      commit.redisData = ClientNode.setData key value ∧
      ((∀ change ∈ later, ¬ change.Touches mp key) → 0 ∉ value → (Resp.bulk value).length < 2 ^ 31 →
        b.bytes = Resp.bulk value) := by
  have hsound : f.Sound mp kv := h.sound
  have htalks := hsound.talks i
  have hright : ∀ (n : Nat) (c : Answer) (req : RedisRequest), (f.connections i).replies[n]? = some c →
      (f.connections i).session.handled[c.request]? = some req → c.Right mp kv f.thread i req := by
    intro n c req hc hreq
    obtain ⟨req', hreq', hright⟩ := htalks.right c (List.mem_of_getElem? hc)
    rw [h.listens i] at hreq'
    obtain rfl := Option.some.inj (hreq.symm.trans hreq')
    exact hright
  have hle : a.seen ≤ b.seen := by
    have hseen := List.pairwise_iff_getElem.mp htalks.ordered p q
      (by rw [List.length_map]; exact (List.getElem?_eq_some_iff.mp ha).1)
      (by rw [List.length_map]; exact (List.getElem?_eq_some_iff.mp hb).1) hpq
    rw [List.getElem_map, List.getElem_map, (List.getElem?_eq_some_iff.mp ha).2,
      (List.getElem?_eq_some_iff.mp hb).2] at hseen
    exact hseen
  obtain ⟨bytes, commit, hmem, hdecode, -, hmine⟩ := (hright p a write ha hsetAt).set_applied hset hok
  have hdata := hmine hown
  obtain ⟨before, rest, hsplit⟩ := List.append_of_mem hmem
  obtain ⟨more, hmore⟩ : f.thread.history.take a.seen <+: f.thread.history.take b.seen :=
    List.take_prefix_take_left hle
  have hhistory : f.thread.history.take b.seen = before ++ .command bytes :: (rest ++ more) := by
    rw [← hmore, hsplit, List.append_assoc, List.cons_append]
  refine ⟨before, bytes, commit, rest ++ more, hhistory, ?_, hdecode, hdata, fun hlater hzero hlength => ?_⟩
  · have hlen := congrArg List.length hsplit
    rw [List.length_append, List.length_cons] at hlen
    have hmin := List.length_take_le a.seen f.thread.history
    omega
  · refine (hright q b read hb hgetAt).get_value hget (fun map hmap => ?_) hzero hlength
    rw [hhistory] at hmap
    exact KeyValues.replay_set hmap hdecode hdata hlater

theorem own_write_read_set : ∃ f : FrontEnd commandReader,
    FrontEnd.Runs messagePack (FrontEnd.Waits 0) (FrontEnd.started commandReader 1 ∅) f ∧
      ∃ b, (f.connections 0).replies[1]? = some b ∧ b.bytes = Resp.bulk [49] := by
  obtain ⟨f, hplay, hstate⟩ : ∃ f, (FrontEnd.started commandReader 1 ∅).play messagePack (FrontEnd.Waits 0)
      waitingGet = .ok f ∧ decide ((f.connections 0).replies = [⟨0, 1, Shared.ok⟩, ⟨1, 1, Resp.bulk [49]⟩] ∧
        (f.connections 0).session.handled = [.array [.string (text "set"), .string [97], .string [49]],
          .array [.string (text "get"), .string [97]]] ∧
        f.thread.history = [.command (firstCommand (ClientNode.setData [97] [49])).data] ∧
        f.thread.node.issued = [{ nodeId := 1, redisData := ClientNode.setData [97] [49] }]) = true :=
    exists_ok_of_any (by decide +kernel)
  obtain ⟨hreplies, hhandled, hhistory, hissued⟩ := of_decide_eq_true hstate
  have hruns := FrontEnd.play_runs hplay
  have hown : f.thread.Own messagePack := by
    intro bytes commit hmem hdecode _
    rw [hhistory] at hmem
    obtain rfl := MapChange.command.inj (List.mem_singleton.mp hmem)
    have hfirst : decodeCommit messagePack (firstCommand (ClientNode.setData [97] [49])).data =
        some { nodeId := 1, redisData := ClientNode.setData [97] [49] } := by decide +kernel
    obtain rfl := Option.some.inj (hdecode.symm.trans hfirst)
    rw [hissued]
    rfl
  obtain ⟨before, bytes, commit, later, hsplit, -, -, -, hvalue⟩ := own_write_read hruns hown Nat.zero_lt_one
    (by rw [hreplies]; rfl) (by rw [hreplies]; rfl) (by rw [hhandled]; rfl) ⟨text "set", by decide +kernel, rfl⟩ rfl
    (by rw [hhandled]; rfl) ⟨text "get", by decide +kernel, rfl⟩
  have hlast : later = [] := by
    have hlen := congrArg List.length hsplit
    rw [hhistory, List.length_append, List.length_cons] at hlen
    have hmin := List.length_take_le 1 [MapChange.command (firstCommand (ClientNode.setData [97] [49])).data]
    exact List.eq_nil_of_length_eq_zero (by simp at hlen; omega)
  refine ⟨f, hruns, ⟨1, 1, Resp.bulk [49]⟩, by rw [hreplies]; rfl, hvalue ?_ (by decide) (by decide +kernel)⟩
  rw [hlast]
  exact fun _ h => absurd h List.not_mem_nil

end RaftEtcd
