import RaftEtcd.ClientView
import RaftEtcd.Replicas

/-! From the client to the disks: the servers of a cluster, one of them with the sessions of its clients. What the raft
thread of this server posts to the store is what the sessions are called back for, and what they tell their clients can
be found on the disks of the cluster. -/
namespace RaftEtcd
variable {rd : RedisReader RedisRequest} {mp : Msgpack} {cfg : ClusterConfig} {n : Nat}

/-- What the raft thread does not post for the log. -/
def FrontEvent.Inside : FrontEvent → Prop
  | .publish _ => False
  | .receive .. | .propose _ | .handle | .recover _ | .takes .. | .written _ | .writeFails _ => True

instance : (e : FrontEvent) → Decidable e.Inside
  | .publish _ => isFalse id
  | .receive .. | .propose _ | .handle | .recover _ | .takes .. | .written _ | .writeFails _ => isTrue trivial

structure ClientService (rd : RedisReader RedisRequest) where
  service : Service Nat
  front : FrontEnd rd

namespace ClientService

def init (rd : RedisReader RedisRequest) (n : Nat) : ClientService rd :=
  { service := .init, front := .started rd n ∅ }

/-- The action starts the server. -/
def starts (n : Nat) (x : Service Nat) : ServiceAction Nat → Bool
  | .raft (.start m _ _) =>
      match x.cluster.servers n with
      | .down _ => m = n
      | .up _ => false
  | _ => false

/-- The commands that the raft thread of the server has posted; a process that has ended posts nothing. -/
def posted (n : Nat) (x x' : Service Nat) : List Bytes :=
  match x'.cluster.servers n with
  | .down _ => []
  | .up _ => ((x'.process n).queue.drop (x.process n).queue.length).filterMap StoreHandler.command

/-- What the servers do reaches the sessions through the queue of the store; a new process has no sessions yet. -/
def act (mp : Msgpack) (cfg : ClusterConfig) (n : Nat) (x : ClientService rd) (a : ServiceAction Nat) :
    ClientService rd :=
  let service := x.service.step mp cfg a
  { service := service
    front :=
      if starts n x.service a then .started rd n ∅
      else { x.front with thread := (posted n x.service service).foldl StoreThread.publish x.front.thread } }

/-- The servers act, or the thread of the store of this one does. -/
inductive Step (mp : Msgpack) (cfg : ClusterConfig) (n : Nat) : ClientService rd → ClientService rd → Prop
  | servers {x : ClientService rd} {a : ServiceAction Nat} (allowed : x.service.Allowed a) :
      Step mp cfg n x (x.act mp cfg n a)
  | sessions {x : ClientService rd} {e : FrontEvent} {f : FrontEnd rd} {node : RawNode}
      (up : x.service.cluster.servers n = .up node) (allowed : x.front.Allowed e)
      (inside : e.Inside) (steps : x.front.step mp e = .ok f) (numbered : f.Numbered) :
      Step mp cfg n x { x with front := f }

def Runs (mp : Msgpack) (cfg : ClusterConfig) (n : Nat) : ClientService rd → ClientService rd → Prop :=
  Relation.ReflTransGen (Step mp cfg n)

def Reachable (mp : Msgpack) (cfg : ClusterConfig) (n : Nat) (x : ClientService rd) : Prop :=
  Runs mp cfg n (init rd n) x

variable {x x' : ClientService rd}

/-- The events, as far as they may happen. -/
def exec (mp : Msgpack) (cfg : ClusterConfig) (n : Nat) (x : ClientService rd) :
    List (ServiceAction Nat ⊕ FrontEvent) → Result (ClientService rd)
  | [] => .ok x
  | .inl a :: events =>
      if x.service.Allowed a then exec mp cfg n (x.act mp cfg n a) events else .error "this does not happen"
  | .inr e :: events =>
      match x.service.cluster.servers n with
      | .down _ => .error "this does not happen"
      | .up _ => do
          let f ← x.front.step mp e
          if x.front.Allowed e ∧ e.Inside ∧ f.thread.node.issued.length ≤ 2 ^ 32 then
            exec mp cfg n { x with front := f } events
          else .error "this does not happen"

theorem exec_runs {events : List (ServiceAction Nat ⊕ FrontEvent)} (h : x.exec mp cfg n events = .ok x') :
    Runs mp cfg n x x' := by
  induction events generalizing x with
  | nil =>
      obtain rfl := Except.ok.inj h
      exact .refl
  | cons event events ih =>
      cases event with
      | inl a =>
          rw [exec] at h
          split at h
          · rename_i hallowed
            exact .head (.servers hallowed) (ih h)
          · cases h
      | inr e =>
          rw [exec] at h
          split at h
          · cases h
          · rename_i node hup
            obtain ⟨f, hstep, h⟩ := bind_ok h
            split at h
            · rename_i hmay
              exact .head (.sessions hup hmay.1 hmay.2.1 hstep hmay.2.2) (ih h)
            · cases h

/-! ### Both halves -/

theorem Step.service (h : Step mp cfg n x x') : Service.Runs mp cfg x.service x'.service := by
  cases h with
  | servers allowed => exact .single ⟨_, allowed, rfl⟩
  | sessions => exact .refl

theorem Runs.service (h : Runs mp cfg n x x') : Service.Runs mp cfg x.service x'.service := by
  induction h with
  | refl => exact .refl
  | tail _ hstep ih => exact Relation.ReflTransGen.trans ih hstep.service

/-- The sessions alone do what the thread of a store can do. -/
def Anything (_ : FrontEnd rd) (_ : FrontEvent) (_ : FrontEnd rd) : Prop := True

theorem publishes_run {f : FrontEnd rd} (hroom : f.Numbered) (datas : List Bytes) :
    FrontEnd.Runs mp Anything f { f with thread := datas.foldl StoreThread.publish f.thread } ∧
      FrontEnd.Numbered { f with thread := datas.foldl StoreThread.publish f.thread } := by
  induction datas generalizing f with
  | nil => exact ⟨.refl, hroom⟩
  | cons data datas ih =>
      have hone : FrontEnd.Numbered { f with thread := f.thread.publish data } := hroom
      obtain ⟨hruns, hnumbered⟩ := ih hone
      refine ⟨.head ⟨.publish data, trivial, rfl, hone, trivial⟩ ?_, ?_⟩
      · exact hruns
      · exact hnumbered

theorem started_numbered (rd : RedisReader RedisRequest) (nodeId : Nat) (kv : KeyValues) :
    (FrontEnd.started rd nodeId kv).Numbered := Nat.zero_le _

theorem Reachable.front (h : Reachable mp cfg n x) :
    FrontEnd.Runs mp Anything (.started rd n ∅) x.front ∧ x.front.Numbered := by
  induction h with
  | refl => exact ⟨.refl, started_numbered rd n ∅⟩
  | @tail y _ _ hstep ih =>
      cases hstep with
      | @servers a allowed =>
          unfold act
          dsimp only
          split
          · exact ⟨.refl, started_numbered rd n ∅⟩
          · obtain ⟨hruns, hnumbered⟩ := publishes_run ih.2 (posted n y.service (y.service.step mp cfg a))
            exact ⟨Relation.ReflTransGen.trans ih.1 hruns, hnumbered⟩
      | sessions up allowed inside steps numbered =>
          exact ⟨.tail ih.1 ⟨_, allowed, steps, numbered, trivial⟩, numbered⟩

/-! ### Where commands come from -/

/-- The command waited, at some time before, for the thread of the store. -/
def Backed (mp : Msgpack) (cfg : ClusterConfig) (n : Nat) (x : Service Nat) (data : Bytes) : Prop :=
  ∃ y node, Service.Reachable mp cfg y ∧ Service.Runs mp cfg y x ∧ y.cluster.servers n = .up node ∧
    .readCommit data ∈ (y.process n).queue

theorem Backed.mono {x x' : Service Nat} {data : Bytes} (h : Backed mp cfg n x data) (hr : Service.Runs mp cfg x x') :
    Backed mp cfg n x' data := by
  obtain ⟨y, node, hy, hruns, hrest⟩ := h
  exact ⟨y, node, hy, Relation.ReflTransGen.trans hruns hr, hrest⟩

theorem posted_backed {x x' : Service Nat} (hx : Service.Reachable mp cfg x') {data : Bytes}
    (h : data ∈ posted n x x') : Backed mp cfg n x' data := by
  unfold posted at h
  split at h
  · cases h
  · rename_i node hup
    obtain ⟨handler, hmem, hcommand⟩ := List.mem_filterMap.mp h
    obtain rfl := StoreHandler.of_command hcommand
    exact ⟨x', node, hx, .refl, hup, List.mem_of_mem_drop hmem⟩

/-- All that the sessions have to do with was posted by the raft thread. -/
structure Backs (mp : Msgpack) (cfg : ClusterConfig) (n : Nat) (x : Service Nat) (s : StoreThread) : Prop where
  waiting : ∀ command, .commit command ∈ s.node.handlers → Backed mp cfg n x command.data
  done : ∀ data, .command data ∈ s.history → Backed mp cfg n x data

theorem Backs.mono {x x' : Service Nat} {s : StoreThread} (h : Backs mp cfg n x s) (hr : Service.Runs mp cfg x x') :
    Backs mp cfg n x' s :=
  ⟨fun command hc => (h.waiting command hc).mono hr, fun data hd => (h.done data hd).mono hr⟩

theorem Backs.publish {x : Service Nat} {s : StoreThread} (h : Backs mp cfg n x s) {datas : List Bytes}
    (hdatas : ∀ data ∈ datas, Backed mp cfg n x data) : Backs mp cfg n x (datas.foldl StoreThread.publish s) := by
  induction datas generalizing s with
  | nil => exact h
  | cons data datas ih =>
      refine ih ⟨fun command hc => ?_, h.done⟩ fun d hd => hdatas d (List.mem_cons_of_mem _ hd)
      rcases List.mem_append.mp hc with hc | hc
      · exact h.waiting command hc
      · obtain rfl := Handler.commit.inj (List.mem_singleton.mp hc)
        exact hdatas data List.mem_cons_self

theorem Backs.handed {x : Service Nat} {s s' : StoreThread} (h : Backs mp cfg n x s) (hs : s.Handed s') :
    Backs mp cfg n x s' :=
  ⟨fun command hc => h.waiting command (hs.handlers ▸ hc), fun data hd => h.done data (hs.history ▸ hd)⟩

theorem Backs.handle {x : Service Nat} {s : StoreThread} (h : Backs mp cfg n x s) {commands : List LoggedCommand}
    {ack : Option (Nat × Status)} (hh : ClientNode.Handles mp s.node (s.node.handle mp) commands ack) :
    Backs mp cfg n x (s.handle mp) := by
  refine ⟨fun command hc => ?_, fun data hd => ?_⟩
  · have htail : .commit command ∈ s.node.handlers.tail := hh.handlers ▸ hc
    exact h.waiting command (List.mem_of_mem_tail htail)
  · rw [StoreThread.handle_history hh] at hd
    rcases List.mem_append.mp hd with hd | hd
    · exact h.done data hd
    · obtain ⟨command, hmem, hchange⟩ := List.mem_map.mp hd
      obtain rfl := MapChange.command.inj hchange
      exact h.waiting command (hh.runs command hmem)

theorem Backs.step {x : Service Nat} {f f' : FrontEnd rd} {e : FrontEvent} (h : Backs mp cfg n x f.thread)
    (hinside : e.Inside) (hs : f.step mp e = .ok f') : Backs mp cfg n x f'.thread := by
  cases e with
  | publish data => exact hinside.elim
  | receive i bytes => exact h.handed (FrontEnd.requests_asked hs).thread
  | propose status =>
      obtain rfl := Except.ok.inj hs
      refine ⟨fun command hc => h.waiting command ?_, h.done⟩
      change .commit command ∈ (f.thread.node.propose status).handlers at hc
      unfold ClientNode.propose at hc
      split at hc
      · exact hc
      · rcases List.mem_append.mp hc with hc | hc
        · exact hc
        · cases List.mem_singleton.mp hc
  | handle =>
      obtain ⟨commands, ack, hh, hfold⟩ := FrontEnd.handle_callbacks hs
      rcases FrontEnd.callback_reply hfold with ⟨-, rfl⟩ | ⟨r, status, i, k, -, -, hreply⟩
      · exact h.handle hh
      · rw [(FrontEnd.reply_stays hreply).1]
        exact h.handle hh
  | recover snap =>
      obtain ⟨thread, hthread, hs⟩ := bind_ok hs
      obtain rfl := Except.ok.inj hs
      obtain ⟨map, -, rfl⟩ := StoreThread.recover_change hthread
      refine ⟨h.waiting, fun data hd => h.done data ?_⟩
      rcases List.mem_append.mp hd with hd | hd
      · exact hd
      · cases List.mem_singleton.mp hd
  | takes i bytes =>
      obtain rfl := Except.ok.inj hs
      exact h
  | written i =>
      obtain ⟨c, -, hs⟩ := bind_ok hs
      obtain rfl := Except.ok.inj hs
      exact h
  | writeFails i =>
      obtain rfl := Except.ok.inj hs
      exact h

theorem started_backs (rd : RedisReader RedisRequest) (x : Service Nat) (nodeId : Nat) (kv : KeyValues) :
    Backs mp cfg n x (FrontEnd.started rd nodeId kv).thread := ⟨nofun, nofun⟩

theorem Reachable.backs (h : Reachable mp cfg n x) : Backs mp cfg n x.service x.front.thread := by
  induction h with
  | refl => exact started_backs rd _ _ _
  | @tail y _ hruns hstep ih =>
      have hservice := Runs.service (Relation.ReflTransGen.tail hruns hstep)
      cases hstep with
      | @servers a allowed =>
          have hmove : Service.Runs mp cfg y.service (y.service.step mp cfg a) := .single ⟨a, allowed, rfl⟩
          unfold act
          dsimp only
          split
          · exact started_backs rd _ _ _
          · exact (ih.mono hmove).publish fun data hd => posted_backed hservice hd
      | sessions up allowed inside steps numbered => exact ih.step inside steps

end ClientService

end RaftEtcd
