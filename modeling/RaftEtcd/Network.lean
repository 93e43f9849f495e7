import Mathlib.Data.List.Flatten
import RaftEtcd.PeerStream

/-! `transport/transport.cpp` and the peers of `transport/peer.cpp`: batches of messages are dispatched on the thread of
the transport, each message to the session of its addressee. A session that fails is dropped with all that it holds, and
the next frame opens another one. -/
namespace RaftEtcd
variable {mp : Msgpack}

/-- An `uint32_t` in the memory of the machine. -/
def machineWord (n : Nat) : Bytes :=
  [UInt8.ofNat n, UInt8.ofNat (n / 2 ^ 8), UInt8.ofNat (n / 2 ^ 16), UInt8.ofNat (n / 2 ^ 24)]

/-- The `DebugMessage` that takes two ticks. -/
def debugFrame (tick : Nat) : Frame :=
  { type := transportTypeDebug, data := machineWord (tick % 2 ^ 32) ++ machineWord ((tick + 1) % 2 ^ 32) }

/-- The size goes through a `uint32_t`. -/
def messageFrame (mp : Msgpack) (m : Message) : Frame :=
  { type := transportTypeStream, data := (mp.pack m.toObj).take ((mp.pack m.toObj).length % 2 ^ 32) }

/-- What `on_receive_stream_message` gets out of a frame. -/
def Frame.message (mp : Msgpack) (f : Frame) : Option Message := decodeMessage mp f.type f.data

/-- What the other end of a connection steps of the bytes that have arrived. -/
def PeerStream.received (mp : Msgpack) (p : PeerStream) : List Message :=
  (serverReads mp p.taken.length p.taken).filterMap (Frame.message mp)

/-- `dropped` are the sessions before the open one, and `given` is all that `send` was called with. -/
structure PeerImpl where
  session : Option PeerStream := none
  dropped : List PeerStream := []
  given : List Message := []

namespace PeerImpl

def doSendData (p : PeerImpl) (f : Frame) : Result PeerImpl := do
  let s ← (p.session.getD {}).step (.send f)
  .ok { p with session := some s }

def send (mp : Msgpack) (p : PeerImpl) (m : Message) : Result PeerImpl := do
  let p ← p.doSendData (messageFrame mp m)
  .ok { p with given := p.given ++ [m] }

def closeSession (p : PeerImpl) : PeerImpl :=
  { p with session := none, dropped := p.dropped ++ p.session.toList }

/-- The connections to the peer, one after the other. -/
def sessions (p : PeerImpl) : List PeerStream := p.dropped ++ p.session.toList

def received (mp : Msgpack) (p : PeerImpl) : List Message := p.sessions.flatMap (PeerStream.received mp)

end PeerImpl

/-- `tick` is the static counter of `start_timer`; `posted` waits for the thread of the transport. Beside them stands what
`send` was called with and what the thread has dispatched. -/
structure TransportImpl where
  peers : AssocMap Nat PeerImpl := ∅
  tick : Nat := 0
  posted : List (List Message) := []
  sent : List Message := []
  dispatched : List Message := []

inductive TransportEvent where
  | addPeer (id : Nat)
  | send (msgs : List Message)
  | dispatch
  | timer (id : Nat)
  | session (id : Nat) (e : PeerEvent)
  | failed (id : Nat)

namespace TransportImpl

def setPeer (t : TransportImpl) (id : Nat) (p : PeerImpl) : TransportImpl := { t with peers := t.peers.insert id p }

/-- Two ticks are taken for each message, on the peer that is there or a new one. -/
def startTimer (t : TransportImpl) (id : Nat) (p : PeerImpl) : Result TransportImpl := do
  let p ← p.doSendData (debugFrame t.tick)
  .ok { t.setPeer id p with tick := (t.tick + 2) % 2 ^ 32 }

/-- One turn of the loop of the callback. -/
def dispatchOne (mp : Msgpack) (t : TransportImpl) (m : Message) : Result TransportImpl :=
  let t := { t with dispatched := t.dispatched ++ [m] }
  if m.to_ = 0 then .ok t
  else
    match t.peers.lookup m.to_ with
    | none => .ok t
    | some p => do
        let p ← p.send mp m
        .ok (t.setPeer m.to_ p)

def step (mp : Msgpack) (t : TransportImpl) : TransportEvent → Result TransportImpl
  | .addPeer id => if (t.peers.lookup id).isSome then .ok t else t.startTimer id {}
  | .send msgs => .ok { t with posted := t.posted ++ [msgs], sent := t.sent ++ msgs }
  | .dispatch =>
      match t.posted with
      | [] => .ok t
      | msgs :: posted => msgs.foldlM (dispatchOne mp) { t with posted := posted }
  | .timer id =>
      match t.peers.lookup id with
      | none => .ok t
      | some p => t.startTimer id p
  | .session id e =>
      match t.peers.lookup id with
      | none => .ok t
      | some p =>
          match p.session with
          | none => .ok t
          | some s => do
              let s ← s.step e
              .ok (t.setPeer id { p with session := some s })
  | .failed id =>
      match t.peers.lookup id with
      | none => .ok t
      | some p => .ok (t.setPeer id p.closeSession)

end TransportImpl

/-! ### What may happen -/

/-- The frame keeps the bytes that have passed since the buffer was empty below 4 GiB. -/
def PeerImpl.Fits (p : PeerImpl) (f : Frame) : Prop := (p.session.getD {}).passed + f.bytes.length < 2 ^ 32

namespace TransportImpl

/-- The messages fit, one after the other. -/
def AllFit (mp : Msgpack) (t : TransportImpl) : List Message → Prop
  | [] => True
  | m :: ms => (∀ p, t.peers.lookup m.to_ = some p → p.Fits (messageFrame mp m)) ∧
      ∀ t', t.dispatchOne mp m = .ok t' → AllFit mp t' ms

/-- What a session can be told by its socket. -/
def SocketEvent (s : PeerStream) : PeerEvent → Prop
  | .send _ => False
  | .connected => s.session.connected = false
  | .written bytes => 0 < bytes ∧ 0 < s.session.writes ∧ bytes ≤ s.session.buffer.slice.length

/-- The library can read what it has packed of each message, and what is sent is not too much. -/
def Allowed (mp : Msgpack) (t : TransportImpl) : TransportEvent → Prop
  | .addPeer id => t.peers.lookup id = none → ({} : PeerImpl).Fits (debugFrame t.tick)
  | .send msgs => ∀ m ∈ msgs, mp.Delimits m.toObj ∧ (mp.pack m.toObj).length < 2 ^ 32
  | .dispatch => ∀ msgs posted, t.posted = msgs :: posted → AllFit mp { t with posted := posted } msgs
  | .timer id => ∀ p, t.peers.lookup id = some p → p.Fits (debugFrame t.tick)
  | .session id e => ∀ p s, t.peers.lookup id = some p → p.session = some s → SocketEvent s e
  | .failed _ => True

/-- The runs of a transport from its creation. -/
inductive Runs (mp : Msgpack) : TransportImpl → Prop where
  | created : Runs mp {}
  | step {t t' : TransportImpl} {e : TransportEvent} (run : Runs mp t) (allowed : t.Allowed mp e)
      (step : t.step mp e = .ok t') : Runs mp t'

end TransportImpl

/-! ### The frames -/

section Frames
variable {m : Message}

theorem littleEndian_machineWord {n : Nat} (h : n < 2 ^ 32) : littleEndian (machineWord n) = n := by
  simp only [machineWord, littleEndian, List.foldr_cons, List.foldr_nil, UInt8.toNat_ofNat']
  omega

theorem debugFrame_goesOn (mp : Msgpack) (tick : Nat) : decodeGoesOn mp (debugFrame tick) = true := by
  have hlen : (debugFrame tick).data.length = 8 := rfl
  have hfirst : (debugFrame tick).data.take 4 = machineWord (tick % 2 ^ 32) := rfl
  have hsecond : (debugFrame tick).data.drop 4 = machineWord ((tick + 1) % 2 ^ 32) := rfl
  rw [decodeGoesOn, if_pos (show (debugFrame tick).type = transportTypeDebug from rfl), hfirst, hsecond,
    littleEndian_machineWord (Nat.mod_lt _ (by decide)), littleEndian_machineWord (Nat.mod_lt _ (by decide))]
  refine decide_eq_true ⟨hlen, ?_⟩
  omega

theorem debugFrame_message (mp : Msgpack) (tick : Nat) : (debugFrame tick).message mp = none := by
  have htype : (debugFrame tick).type = transportTypeDebug := rfl
  rw [Frame.message, decodeMessage, htype, if_neg (by decide)]

theorem messageFrame_data (h : (mp.pack m.toObj).length < 2 ^ 32) : (messageFrame mp m).data = mp.pack m.toObj := by
  rw [messageFrame, Nat.mod_eq_of_lt h, List.take_length]

/-- A message comes out of its frame without its snapshot. -/
theorem messageFrame_message (h : mp.Delimits m.toObj) (hlen : (mp.pack m.toObj).length < 2 ^ 32) :
    (messageFrame mp m).message mp = some { m with snapshot := {} } := by
  have htype : (messageFrame mp m).type = transportTypeStream := rfl
  rw [Frame.message, decodeMessage, if_pos htype, messageFrame_data hlen, h.restores, Option.bind_some,
    Message.convert_toObj]

theorem messageFrame_goesOn (h : mp.Delimits m.toObj) (hlen : (mp.pack m.toObj).length < 2 ^ 32) :
    decodeGoesOn mp (messageFrame mp m) = true := by
  have hmessage := messageFrame_message h hlen
  rw [Frame.message] at hmessage
  have htype : (messageFrame mp m).type = transportTypeStream := rfl
  rw [decodeGoesOn, hmessage, htype, if_neg (by decide), if_pos rfl]
  rfl

end Frames

/-! ### One peer -/

/-- What is left of a message on the wire. -/
def Message.unsnapped (m : Message) : Message := { m with snapshot := {} }

/-- All sessions to the peer are in order, and their frames are what `send` was called with, and of the timer. -/
structure PeerImpl.Sound (mp : Msgpack) (p : PeerImpl) : Prop where
  flows : ∀ s ∈ p.sessions, s.Flows
  opened : ∀ s ∈ p.session, s.closed = false
  goesOn : ∀ s ∈ p.sessions, ∀ f ∈ s.sent, decodeGoesOn mp f = true
  frames : (p.sessions.flatMap PeerStream.sent).filterMap (Frame.message mp) = p.given.map Message.unsnapped

namespace PeerImpl
variable {p p' : PeerImpl} {f : Frame} {s : PeerStream}

theorem Sound.fresh : ({} : PeerImpl).Sound mp := ⟨nofun, nofun, nofun, rfl⟩

/-- The session that is open, or a new one, goes on to `s`. -/
theorem Sound.goes (h : p.Sound mp) (fs : List Frame) (msgs : List Message) (hflows : s.Flows)
    (hclosed : s.closed = false) (hsent : s.sent = (p.session.getD {}).sent ++ fs) (hon : ∀ f ∈ fs, decodeGoesOn mp f = true)
    (hmsgs : fs.filterMap (Frame.message mp) = msgs.map Message.unsnapped) :
    Sound mp { p with session := some s, given := p.given ++ msgs } := by
  have hsessions : ∀ given, sessions { p with session := some s, given := given } = p.dropped ++ [s] := fun _ => rfl
  have hold : p.sessions.flatMap PeerStream.sent =
      p.dropped.flatMap PeerStream.sent ++ (p.session.getD {}).sent := by
    rw [sessions, List.flatMap_append]
    cases p.session with
    | none => rfl
    | some s => exact congrArg _ (List.append_nil _)
  have hwas : ∀ f ∈ (p.session.getD {}).sent, decodeGoesOn mp f = true := by
    intro f hf
    cases hs : p.session with
    | none =>
        rw [hs] at hf
        cases hf
    | some s₀ =>
        rw [hs] at hf
        refine h.goesOn s₀ ?_ f hf
        rw [sessions, hs]
        exact List.mem_append_right _ (List.mem_singleton_self s₀)
  constructor
  case flows =>
    intro s' hs'
    rw [hsessions] at hs'
    rcases List.mem_append.mp hs' with hs' | hs'
    · exact h.flows s' (List.mem_append_left _ hs')
    · exact List.mem_singleton.mp hs' ▸ hflows
  case opened =>
    intro s' hs'
    obtain rfl := Option.some.inj hs'
    exact hclosed
  case goesOn =>
    intro s' hs' f hf
    rw [hsessions] at hs'
    rcases List.mem_append.mp hs' with hs' | hs'
    · exact h.goesOn s' (List.mem_append_left _ hs') f hf
    · rw [List.mem_singleton.mp hs', hsent] at hf
      rcases List.mem_append.mp hf with hf | hf
      · exact hwas f hf
      · exact hon f hf
  case frames =>
    have hframes := h.frames
    rw [hold] at hframes
    rw [hsessions, List.flatMap_append, List.flatMap_singleton, hsent, ← List.append_assoc, List.filterMap_append,
      hframes, hmsgs, List.map_append]

/-- A frame that fits goes into the session that is open, or into a new one. -/
theorem Sound.doSendData (h : p.Sound mp) (hne : f.data ≠ []) (hfits : p.Fits f) :
    ∃ s, p.doSendData f = .ok { p with session := some s } ∧ s.Flows ∧ s.closed = false ∧
      s.sent = (p.session.getD {}).sent ++ [f] := by
  obtain ⟨hflows, hclosed⟩ : (p.session.getD {}).Flows ∧ (p.session.getD {}).closed = false := by
    cases hs : p.session with
    | none => exact ⟨PeerStream.opened_flows, rfl⟩
    | some s =>
        refine ⟨h.flows s ?_, h.opened s hs⟩
        rw [sessions, hs]
        exact List.mem_append_right _ (List.mem_singleton_self s)
  obtain ⟨s, hstep, hs⟩ := hflows.step (e := .send f) ⟨hclosed, hne, hfits⟩
  refine ⟨s, ?_, hs, ?_⟩
  · rw [PeerImpl.doSendData, hstep]
    rfl
  · obtain ⟨c, -, hc⟩ := bind_ok hstep
    rw [← Except.ok.inj hc]
    exact ⟨hclosed, rfl⟩

theorem Sound.send (h : p.Sound mp) {m : Message} (hm : mp.Delimits m.toObj) (hlen : (mp.pack m.toObj).length < 2 ^ 32)
    (hfits : p.Fits (messageFrame mp m)) :
    ∃ p', p.send mp m = .ok p' ∧ p'.Sound mp ∧ p'.given = p.given ++ [m] := by
  have hne : (messageFrame mp m).data ≠ [] := by
    rw [messageFrame_data hlen]
    exact hm.nonempty
  obtain ⟨s, hsend, hflows, hclosed, hsent⟩ := h.doSendData hne hfits
  refine ⟨{ p with session := some s, given := p.given ++ [m] }, ?_, ?_, rfl⟩
  · rw [PeerImpl.send, hsend]
    rfl
  · refine h.goes _ _ hflows hclosed hsent (fun f hf => ?_) ?_
    · rw [List.mem_singleton.mp hf]
      exact messageFrame_goesOn hm hlen
    · rw [List.filterMap_cons_some (messageFrame_message hm hlen)]
      rfl

/-- The timer sends nothing that is a message. -/
theorem Sound.debug (h : p.Sound mp) {tick : Nat} (hfits : p.Fits (debugFrame tick)) :
    ∃ p', p.doSendData (debugFrame tick) = .ok p' ∧ p'.Sound mp ∧ p'.given = p.given := by
  obtain ⟨s, hsend, hflows, hclosed, hsent⟩ := h.doSendData (List.cons_ne_nil _ _) hfits
  refine ⟨_, hsend, ?_, rfl⟩
  have hgoes := h.goes [debugFrame tick] [] hflows hclosed hsent (fun f hf => ?_) ?_
  · rwa [List.append_nil] at hgoes
  · rw [List.mem_singleton.mp hf]
    exact debugFrame_goesOn mp tick
  · rw [List.filterMap_cons_none (debugFrame_message mp tick)]
    rfl

theorem Sound.socket (h : p.Sound mp) (hs : p.session = some s) {e : PeerEvent} (he : TransportImpl.SocketEvent s e) :
    ∃ s', s.step e = .ok s' ∧ Sound mp { p with session := some s' } := by
  have hmem : s ∈ p.sessions := by
    rw [sessions, hs]
    exact List.mem_append_right _ (List.mem_singleton_self s)
  have hclosed := h.opened s hs
  have hallows : s.Allows e := by
    cases e with
    | send f => exact he.elim
    | connected => exact ⟨hclosed, he⟩
    | written bytes => exact ⟨hclosed, he.2⟩
  obtain ⟨s', hstep, hflows⟩ := (h.flows s hmem).step hallows
  refine ⟨s', hstep, ?_⟩
  have hkeeps : s'.closed = false ∧ s'.sent = s.sent := by
    cases e with
    | send f => exact he.elim
    | connected =>
        rw [← Except.ok.inj hstep]
        exact ⟨hclosed, rfl⟩
    | written bytes =>
        cases bytes with
        | zero => exact absurd he.1 (lt_irrefl 0)
        | succ bytes =>
            obtain ⟨c, -, hc⟩ := bind_ok hstep
            rw [← Except.ok.inj hc]
            exact ⟨hclosed, rfl⟩
  have hgoes := h.goes [] [] hflows hkeeps.1 (by rw [hkeeps.2, hs, List.append_nil]; rfl) nofun rfl
  rwa [List.append_nil] at hgoes

theorem Sound.closeSession (h : p.Sound mp) : p.closeSession.Sound mp := by
  have hsessions : p.closeSession.sessions = p.sessions := List.append_nil _
  exact ⟨hsessions ▸ h.flows, nofun, hsessions ▸ h.goesOn, hsessions ▸ h.frames⟩

end PeerImpl

/-! ### The transport -/

namespace TransportImpl
variable {t t' : TransportImpl} {e : TransportEvent} {pending : List Message}

/-- Every peer has got what was dispatched to it since it was added, and what is pending waits in its order. -/
structure Sound (mp : Msgpack) (t : TransportImpl) (pending : List Message) : Prop where
  peers : ∀ id p, t.peers.lookup id = some p →
    p.Sound mp ∧ (id ≠ 0 → p.given <:+ t.dispatched.filter fun m => m.to_ = id)
  order : t.dispatched ++ pending = t.sent
  packs : ∀ m ∈ pending, mp.Delimits m.toObj ∧ (mp.pack m.toObj).length < 2 ^ 32

/-- A peer that has got the same goes on. -/
theorem Sound.setPeer (h : t.Sound mp pending) {id : Nat} {p' : PeerImpl} (hp' : p'.Sound mp)
    (hgiven : id ≠ 0 → p'.given <:+ t.dispatched.filter fun m => m.to_ = id) : (t.setPeer id p').Sound mp pending := by
  refine ⟨fun id' p hp => ?_, h.order, h.packs⟩
  change (t.peers.insert id p').lookup id' = some p at hp
  by_cases hid : id' = id
  · subst hid
    rw [AList.lookup_insert] at hp
    obtain rfl := Option.some.inj hp
    exact ⟨hp', hgiven⟩
  · rw [AList.lookup_insert_ne hid] at hp
    exact h.peers id' p hp

theorem Sound.startTimer (h : t.Sound mp pending) (id : Nat) {p : PeerImpl} (hp : p.Sound mp)
    (hgiven : id ≠ 0 → p.given <:+ t.dispatched.filter fun m => m.to_ = id) (hfits : p.Fits (debugFrame t.tick)) :
    ∃ t', t.startTimer id p = .ok t' ∧ t'.Sound mp pending ∧ t'.posted = t.posted := by
  obtain ⟨p', hdebug, hp', hsame⟩ := hp.debug hfits
  have hset := h.setPeer hp' (hsame ▸ hgiven)
  refine ⟨{ t.setPeer id p' with tick := (t.tick + 2) % 2 ^ 32 }, ?_, ⟨hset.peers, hset.order, hset.packs⟩, rfl⟩
  rw [TransportImpl.startTimer, hdebug]
  rfl

/-- A message goes to its addressee, or nowhere. -/
theorem Sound.dispatchOne {m : Message} (h : t.Sound mp (m :: pending))
    (hfits : ∀ p, t.peers.lookup m.to_ = some p → p.Fits (messageFrame mp m)) :
    ∃ t', t.dispatchOne mp m = .ok t' ∧ t'.Sound mp pending ∧ t'.posted = t.posted := by
  obtain ⟨hm, hlen⟩ := h.packs m (List.mem_cons_self ..)
  have hdone : ∀ id, (t.dispatched ++ [m]).filter (fun m => m.to_ = id) =
      (t.dispatched.filter fun m => m.to_ = id) ++ if m.to_ = id then [m] else [] := by
    intro id
    rw [List.filter_append, List.filter_singleton]
    by_cases hid : m.to_ = id <;> simp [hid]
  have hthere : ∀ id p, id ≠ m.to_ ∨ id = 0 → t.peers.lookup id = some p →
      p.Sound mp ∧ (id ≠ 0 → p.given <:+ (t.dispatched ++ [m]).filter fun m => m.to_ = id) := by
    intro id p hother hp
    obtain ⟨hsound, hgiven⟩ := h.peers id p hp
    refine ⟨hsound, fun hne => ?_⟩
    rw [hdone, if_neg (Ne.symm (hother.resolve_right hne)), List.append_nil]
    exact hgiven hne
  have horder : (t.dispatched ++ [m]) ++ pending = t.sent := by
    rw [List.append_assoc, List.singleton_append]
    exact h.order
  have hpacks : ∀ m' ∈ pending, mp.Delimits m'.toObj ∧ (mp.pack m'.toObj).length < 2 ^ 32 :=
    fun m' hm' => h.packs m' (List.mem_cons_of_mem _ hm')
  unfold TransportImpl.dispatchOne
  simp only
  split
  · rename_i hzero
    refine ⟨_, rfl, ⟨fun id p hp => hthere id p ?_ hp, horder, hpacks⟩, rfl⟩
    rw [hzero]
    exact (em (id = 0)).symm
  rename_i hto
  split
  · rename_i hnone
    refine ⟨_, rfl, ⟨fun id p hp => hthere id p (Or.inl ?_) hp, horder, hpacks⟩, rfl⟩
    rintro rfl
    cases hnone.symm.trans hp
  · rename_i p hp
    obtain ⟨hsound, hgiven⟩ := h.peers m.to_ p hp
    obtain ⟨p', hsend, hp', hgot⟩ := hsound.send hm hlen (hfits p hp)
    rw [hsend]
    refine ⟨_, rfl, ⟨fun id q hq => ?_, horder, hpacks⟩, rfl⟩
    change (t.peers.insert m.to_ p').lookup id = some q at hq
    by_cases hid : id = m.to_
    · subst hid
      rw [AList.lookup_insert] at hq
      obtain rfl := Option.some.inj hq
      refine ⟨hp', fun hne => ?_⟩
      change p'.given <:+ (t.dispatched ++ [m]).filter _
      rw [hdone, if_pos rfl, hgot]
      obtain ⟨front, hfront⟩ := hgiven hne
      exact ⟨front, by rw [← hfront, List.append_assoc]⟩
    · rw [AList.lookup_insert_ne hid] at hq
      exact hthere id q (Or.inl hid) hq

theorem Sound.dispatchAll {msgs : List Message} (h : t.Sound mp (msgs ++ pending)) (hfit : t.AllFit mp msgs) :
    ∃ t', msgs.foldlM (TransportImpl.dispatchOne mp) t = .ok t' ∧ t'.Sound mp pending ∧ t'.posted = t.posted := by
  induction msgs generalizing t with
  | nil => exact ⟨t, rfl, h, rfl⟩
  | cons m msgs ih =>
      obtain ⟨t₁, hone, h₁, hposted⟩ := h.dispatchOne hfit.1
      obtain ⟨t₂, hrest, h₂, hposted'⟩ := ih h₁ (hfit.2 t₁ hone)
      refine ⟨t₂, ?_, h₂, hposted'.trans hposted⟩
      rw [List.foldlM_cons, hone]
      exact hrest

/-- Whatever may happen does, and no assertion fails. -/
theorem Sound.step (h : t.Sound mp t.posted.flatten) (ha : t.Allowed mp e) :
    ∃ t', t.step mp e = .ok t' ∧ t'.Sound mp t'.posted.flatten := by
  cases e with
  | addPeer id =>
      rw [TransportImpl.step]
      split
      · exact ⟨t, rfl, h⟩
      · rename_i hnew
        obtain ⟨t', hok, h', hposted⟩ := h.startTimer id .fresh (fun _ => List.nil_suffix)
          (ha (Option.not_isSome_iff_eq_none.mp hnew))
        exact ⟨t', hok, hposted ▸ h'⟩
  | send msgs =>
      refine ⟨_, rfl, h.peers, ?_, fun m hm => ?_⟩
      · rw [List.flatten_append, List.flatten_singleton, ← List.append_assoc, h.order]
      · rw [List.flatten_append, List.flatten_singleton] at hm
        rcases List.mem_append.mp hm with hm | hm
        · exact h.packs m hm
        · exact ha m hm
  | dispatch =>
      rw [TransportImpl.step]
      split
      · exact ⟨t, rfl, h⟩
      · rename_i msgs posted hposted
        have hrest : Sound mp { t with posted := posted } (msgs ++ posted.flatten) := by
          rw [hposted, List.flatten_cons] at h
          exact ⟨h.peers, h.order, h.packs⟩
        obtain ⟨t', hok, h', hsame⟩ := hrest.dispatchAll (ha msgs posted hposted)
        exact ⟨t', hok, hsame ▸ h'⟩
  | timer id =>
      rw [TransportImpl.step]
      split
      · exact ⟨t, rfl, h⟩
      · rename_i p hp
        obtain ⟨t', hok, h', hposted⟩ := h.startTimer id (h.peers id p hp).1 (h.peers id p hp).2 (ha p hp)
        exact ⟨t', hok, hposted ▸ h'⟩
  | session id e =>
      rw [TransportImpl.step]
      split
      · exact ⟨t, rfl, h⟩
      rename_i p hp
      split
      · exact ⟨t, rfl, h⟩
      rename_i s hs
      obtain ⟨s', hstep, hsound⟩ := (h.peers id p hp).1.socket hs (ha p s hp hs)
      rw [hstep]
      exact ⟨_, rfl, h.setPeer hsound (h.peers id p hp).2⟩
  | failed id =>
      rw [TransportImpl.step]
      split
      · exact ⟨t, rfl, h⟩
      · rename_i p hp
        exact ⟨_, rfl, h.setPeer (h.peers id p hp).1.closeSession (h.peers id p hp).2⟩

theorem Runs.sound (h : Runs mp t) : t.Sound mp t.posted.flatten := by
  induction h with
  | created => exact ⟨nofun, rfl, nofun⟩
  | step _ allowed hstep ih =>
      obtain ⟨t', hok, h'⟩ := ih.step allowed
      rw [hok] at hstep
      exact Except.ok.inj hstep ▸ h'

end TransportImpl

/-! ### What arrives -/

/-- Over one connection the first messages arrive, and all of them when nothing is left to write. -/
theorem PeerStream.Flows.received {s : PeerStream} (h : s.Flows) (hon : ∀ f ∈ s.sent, decodeGoesOn mp f = true) :
    s.received mp <+: s.sent.filterMap (Frame.message mp) ∧
      (s.session.buffer.slice = [] → s.received mp = s.sent.filterMap (Frame.message mp)) := by
  obtain ⟨whole, rest, hsent, -, hrest, hreads⟩ := serverReads_front mp h.sendable h.bytes
  have hwhole : ∀ f ∈ whole, decodeGoesOn mp f = true := fun f hf => hon f (hsent ▸ List.mem_append_left _ hf)
  have hreceived : s.received mp = whole.filterMap (Frame.message mp) := by
    rw [PeerStream.received, hreads _ le_rfl, heeded_eq_self hwhole]
  rw [hreceived]
  refine ⟨?_, fun hempty => ?_⟩
  · rw [hsent, List.filterMap_append]
    exact List.prefix_append _ _
  · cases rest with
    | nil => rw [hsent, List.append_nil]
    | cons f rest =>
        have hless := hrest f rfl
        have hall := congrArg List.length h.bytes
        rw [hempty, List.append_nil, hsent, List.append_cons, List.flatMap_append, List.length_append] at hall
        omega

end RaftEtcd
