import RaftEtcd.ReadQuorum

/-! The queue of pending reads on its own, under any sequence of `add_request`, `recv_ack` and `advance`. -/
namespace RaftEtcd

namespace ReadOnly

/-- A call on the queue of reads. -/
inductive Op where
  | addRequest (index : Nat) (msg : Message)
  | recvAck (msg : Message)
  | advance (msg : Message)

/-- The call, with the statuses that it returns. -/
def run (ro : ReadOnly) : Op → Result (ReadOnly × List ReadIndexStatus)
  | .addRequest index msg => do
      let ro ← ro.addRequest index msg
      .ok (ro, [])
  | .recvAck msg => .ok ((ro.recvAck msg).1, [])
  | .advance msg => ro.advance msg

/-- A request as it is given to `add_request`. -/
structure Request where
  ctx : Bytes
  index : Nat
  msg : Message

/-- The requests up to and including the one of a context. -/
def upTo (ctx : Bytes) : List Request → List Request
  | [] => []
  | x :: queue => if x.ctx = ctx then [x] else x :: upTo ctx queue

/-- The requests that arrived after the one of a context. -/
def beyond (ctx : Bytes) : List Request → List Request
  | [] => []
  | x :: queue => if x.ctx = ctx then queue else beyond ctx queue

/-- What a call is to do to the requests in their order of arrival. -/
def Op.act (queue : List Request) : Op → List Request
  | .addRequest index msg =>
      match msg.entries with
      | [] => queue
      | e :: _ => if e.data ∈ queue.map Request.ctx then queue else queue ++ [⟨e.data, index, msg⟩]
  | .recvAck _ => queue
  | .advance msg => if msg.context ∈ queue.map Request.ctx then beyond msg.context queue else queue

/-- The vector and the map hold the same contexts, in the order of arrival and each once. -/
structure InStep (ro : ReadOnly) (queue : List Request) : Prop where
  order : ro.readIndexQueue = queue.map Request.ctx
  nodup : ro.readIndexQueue.Nodup
  keys : ∀ ctx, (ro.pendingReadIndex.lookup ctx).isSome ↔ ctx ∈ ro.readIndexQueue

/-- `advance` on a pending context returns the requests up to it as they were given, removes these and
leaves the others as they are. -/
def Answers (ro : ReadOnly) (queue : List Request) (op : Op) (ro' : ReadOnly) (rss : List ReadIndexStatus) : Prop :=
  match op with
  | .advance msg => msg.context ∈ ro.readIndexQueue →
      rss.map (fun rs => (rs.index, rs.req.from_, rs.req.entries)) =
          (upTo msg.context queue).map (fun x => (x.index, x.msg.from_, x.msg.entries)) ∧
        ro'.readIndexQueue = (beyond msg.context queue).map Request.ctx ∧
        ∀ ctx, ro'.pendingReadIndex.lookup ctx =
          if ctx ∈ (upTo msg.context queue).map Request.ctx then none else ro.pendingReadIndex.lookup ctx
  | _ => True

/-- Every call returns, answers what it is to answer and leaves the vector and the map in step. -/
def Proper (ro : ReadOnly) (queue : List Request) : List Op → Prop
  | [] => ro.InStep queue
  | op :: ops => ro.InStep queue ∧ ∃ ro' rss, ro.run op = .ok (ro', rss) ∧ ro.Answers queue op ro' rss ∧
      Proper ro' (op.act queue) ops

/-- The call does not ask `add_request` for a message without entries. -/
def Op.HasContext : Op → Prop
  | .addRequest _ msg => msg.entries ≠ []
  | _ => True

/-- The second call is no `advance` for the context that the first one adds. -/
def Op.Apart : Op → Op → Prop
  | .addRequest _ msg, .advance msg' => ∀ e es, msg.entries = e :: es → e.data ≠ msg'.context
  | _, _ => True

/-- The call is no `advance` for a request of the queue. -/
def Op.Passes (queue : List Request) : Op → Prop
  | .advance msg => msg.context ∉ queue.map Request.ctx
  | _ => True

/-- The vector and the map in step, with the requests as `add_request` leaves them: its assignment of the
message copies nothing. -/
structure Pending (ro : ReadOnly) (queue : List Request) : Prop extends InStep ro queue where
  empty : ∀ ctx rs, ro.pendingReadIndex.lookup ctx = some rs → rs.req.entries = []

section Calls
variable {ro ro' : ReadOnly} {queue : List Request} {msg : Message} {ops : List Op}

theorem Pending.new (option : ReadOnlyOption) : Pending { option := option } [] :=
  ⟨⟨rfl, List.nodup_nil, fun ctx => by simp⟩, fun ctx rs h => by simp at h⟩

theorem Pending.addRequest (hp : Pending ro queue) {index : Nat} (h : ro.addRequest index msg = .ok ro') :
    Pending ro' ((Op.addRequest index msg).act queue) := by
  obtain ⟨e, es, hentries, ⟨hsome, rfl⟩ | ⟨hnone, rfl⟩⟩ := addRequest_spec h
  · have hmem : e.data ∈ queue.map Request.ctx := hp.order ▸ (hp.keys e.data).mp hsome
    simp only [Op.act, hentries, if_pos hmem]
    exact hp
  · have hnew : e.data ∉ ro.readIndexQueue := by
      intro hmem
      have hsome := (hp.keys e.data).mpr hmem
      rw [hnone] at hsome
      cases hsome
    have hnew' : e.data ∉ queue.map Request.ctx := hp.order ▸ hnew
    simp only [Op.act, hentries, if_neg hnew']
    refine ⟨⟨?_, ?_, fun ctx => ?_⟩, fun ctx rs hrs => ?_⟩
    · simp [hp.order]
    · exact List.nodup_append.mpr ⟨hp.nodup, List.nodup_singleton _, fun c hc c' hc' heq =>
        hnew (List.mem_singleton.mp hc' ▸ heq ▸ hc)⟩
    · by_cases hc : ctx = e.data
      · subst hc
        simp
      · rw [AList.lookup_insert_ne hc, hp.keys]
        simp [hc]
    · by_cases hc : ctx = e.data
      · subst hc
        rw [AList.lookup_insert] at hrs
        obtain rfl := Option.some.inj hrs
        rfl
      · rw [AList.lookup_insert_ne hc] at hrs
        exact hp.empty ctx rs hrs

theorem Pending.recvAck (hp : Pending ro queue) (msg : Message) : Pending (ro.recvAck msg).1 queue := by
  rcases recvAck_spec ro msg with ⟨-, hsame⟩ | ⟨rs₀, hrs₀, hqueue, -, hlook⟩
  · rw [hsame]
    exact hp
  · refine ⟨⟨hqueue ▸ hp.order, hqueue ▸ hp.nodup, fun ctx => ?_⟩, fun ctx rs hrs => ?_⟩
    · rw [hqueue, hlook]
      split
      · rename_i hc
        rw [hc, ← hp.keys, hrs₀]
        exact Iff.rfl
      · exact hp.keys ctx
    · rw [hlook] at hrs
      split at hrs
      · obtain rfl := Option.some.inj hrs
        exact hp.empty _ rs₀ hrs₀
      · exact hp.empty ctx rs hrs

/-- Walking over requests that are all in the map, without meeting the context. -/
theorem collect_passes (ctx : Bytes) (contexts : List Bytes)
    (hkeys : ∀ c ∈ contexts, (ro.pendingReadIndex.lookup c).isSome) (hctx : ctx ∉ contexts) :
    ∃ rss, ro.collect ctx contexts = .ok (rss, false) := by
  induction contexts with
  | nil => exact ⟨[], rfl⟩
  | cons c contexts ih =>
      obtain ⟨rss, hrss⟩ := ih (fun c hc => hkeys c (List.mem_cons_of_mem _ hc))
        (fun hc => hctx (List.mem_cons_of_mem _ hc))
      obtain ⟨rs, hrs⟩ := Option.isSome_iff_exists.mp (hkeys c (List.mem_cons_self ..))
      have hne : c ≠ ctx := fun hc => hctx (hc ▸ List.mem_cons_self ..)
      refine ⟨rs :: rss, ?_⟩
      rw [collect, hrs]
      simp only [if_neg hne, hrss]
      rfl

/-- `advance` for a context that is not queued leaves everything. -/
theorem Pending.advance_passes (hp : Pending ro queue) (hctx : msg.context ∉ ro.readIndexQueue) :
    ∃ rss, ro.advance msg = .ok (ro, rss) := by
  obtain ⟨rss, hrss⟩ := collect_passes msg.context ro.readIndexQueue (fun c hc => (hp.keys c).mpr hc) hctx
  refine ⟨rss, ?_⟩
  unfold ReadOnly.advance
  rw [hrss]
  rfl

/-- What passes the queue with a request added passes the queue, and is not for that request. -/
theorem passes_addRequest {e : Entry} {es : List Entry} {index : Nat} (h : msg.entries = e :: es) (op : Op) :
    op.Passes ((Op.addRequest index msg).act queue) ↔ op.Passes queue ∧ (Op.addRequest index msg).Apart op := by
  cases op with
  | addRequest index' msg' => exact ⟨fun _ => ⟨trivial, trivial⟩, fun _ => trivial⟩
  | recvAck msg' => exact ⟨fun _ => ⟨trivial, trivial⟩, fun _ => trivial⟩
  | advance msg' =>
      have hapart : (Op.addRequest index msg).Apart (.advance msg') ↔ msg'.context ≠ e.data := by
        constructor
        · intro hne heq
          exact hne e es h heq.symm
        · intro hne e' es' h' heq
          rw [h] at h'
          exact hne (by rw [← heq, (List.cons.inj h').1])
      rw [hapart]
      simp only [Op.Passes, Op.act, h]
      split
      · rename_i hmem
        constructor
        · intro hout
          exact ⟨hout, fun heq => hout (heq ▸ hmem)⟩
        · exact And.left
      · simp

/-- From requests that are pending, the calls are proper exactly when each request has a context and no
`advance` comes for one that is queued or added before. -/
theorem Pending.proper_iff (hp : Pending ro queue) : ro.Proper queue ops ↔
    (∀ op ∈ ops, op.HasContext) ∧ (∀ op ∈ ops, op.Passes queue) ∧ ops.Pairwise Op.Apart := by
  induction ops generalizing ro queue with
  | nil => exact ⟨fun _ => ⟨by simp, by simp, List.Pairwise.nil⟩, fun _ => hp.toInStep⟩
  | cons op ops ih =>
      rw [Proper, List.forall_mem_cons, List.forall_mem_cons, List.pairwise_cons]
      cases op with
      | addRequest index msg =>
          cases hentries : msg.entries with
          | nil =>
              -- the first entry of the message is read before anything is asked of it
              have herror : ro.run (.addRequest index msg) = .error "entries[0] out of range" := by
                simp only [run, ReadOnly.addRequest, hentries]
                rfl
              constructor
              · rintro ⟨-, ro', rss, hrun, -⟩
                rw [herror] at hrun
                cases hrun
              · rintro ⟨⟨hcontext, -⟩, -⟩
                exact absurd hentries hcontext
          | cons e es =>
              obtain ⟨ro₁, hro₁⟩ : ∃ ro₁, ro.addRequest index msg = .ok ro₁ := by
                simp only [ReadOnly.addRequest, hentries]
                split
                · exact ⟨_, rfl⟩
                · exact ⟨_, rfl⟩
              have hrun : ro.run (.addRequest index msg) = .ok (ro₁, []) := by
                simp only [run, hro₁]
                rfl
              have hrest := ih (hp.addRequest hro₁)
              simp only [passes_addRequest hentries] at hrest
              constructor
              · rintro ⟨-, ro', rss, hrun', -, hproper⟩
                rw [hrun] at hrun'
                obtain ⟨rfl, -⟩ := Prod.mk.inj (Except.ok.inj hrun')
                obtain ⟨hcontexts, hpasses, hapart⟩ := hrest.mp hproper
                refine ⟨⟨?_, hcontexts⟩, ⟨trivial, fun op hop => (hpasses op hop).1⟩,
                  fun op hop => (hpasses op hop).2, hapart⟩
                change msg.entries ≠ []
                rw [hentries]
                exact List.cons_ne_nil e es
              · rintro ⟨⟨-, hcontexts⟩, ⟨-, hpasses⟩, happart, hapart⟩
                exact ⟨hp.toInStep, ro₁, [], hrun, trivial,
                  hrest.mpr ⟨hcontexts, fun op hop => ⟨hpasses op hop, happart op hop⟩, hapart⟩⟩
      | recvAck msg =>
          have hrest := ih (hp.recvAck msg)
          constructor
          · rintro ⟨-, ro', rss, hrun, -, hproper⟩
            obtain ⟨rfl, -⟩ := Prod.mk.inj (Except.ok.inj hrun)
            obtain ⟨hcontexts, hpasses, hapart⟩ := hrest.mp hproper
            exact ⟨⟨trivial, hcontexts⟩, ⟨trivial, hpasses⟩, fun op _ => trivial, hapart⟩
          · rintro ⟨⟨-, hcontexts⟩, ⟨-, hpasses⟩, -, hapart⟩
            exact ⟨hp.toInStep, _, [], rfl, trivial, hrest.mpr ⟨hcontexts, hpasses, hapart⟩⟩
      | advance msg =>
          constructor
          · rintro ⟨-, ro', rss, hrun, -, hproper⟩
            have hctx : msg.context ∉ ro.readIndexQueue := fun hmem => ReadOnly.advance_fails hp.empty hmem _ hrun
            have hout : msg.context ∉ queue.map Request.ctx := hp.order ▸ hctx
            obtain ⟨rss', hsame⟩ := hp.advance_passes hctx
            rw [show ro.run (.advance msg) = .ok (ro, rss') from hsame] at hrun
            obtain ⟨rfl, -⟩ := Prod.mk.inj (Except.ok.inj hrun)
            rw [Op.act, if_neg hout] at hproper
            obtain ⟨hcontexts, hpasses, hapart⟩ := (ih hp).mp hproper
            exact ⟨⟨trivial, hcontexts⟩, ⟨hout, hpasses⟩, fun op _ => trivial, hapart⟩
          · rintro ⟨⟨-, hcontexts⟩, ⟨hout, hpasses⟩, -, hapart⟩
            have hctx : msg.context ∉ ro.readIndexQueue := hp.order ▸ hout
            obtain ⟨rss, hsame⟩ := hp.advance_passes hctx
            refine ⟨hp.toInStep, ro, rss, hsame, fun hmem => absurd hmem hctx, ?_⟩
            rw [Op.act, if_neg hout]
            exact (ih hp).mpr ⟨hcontexts, hpasses, hapart⟩

end Calls

end ReadOnly

/-- The calls on a new queue are all proper exactly when every message has a first entry to take the context
from, and no `advance` comes for a request that was added before. -/
theorem read_queue_proper_iff (option : ReadOnlyOption) (ops : List ReadOnly.Op) :
    ReadOnly.Proper { option := option } [] ops ↔
      (∀ op ∈ ops, op.HasContext) ∧ ops.Pairwise ReadOnly.Op.Apart := by
  rw [(ReadOnly.Pending.new option).proper_iff]
  constructor
  · rintro ⟨hcontexts, -, hapart⟩
    exact ⟨hcontexts, hapart⟩
  · rintro ⟨hcontexts, hapart⟩
    refine ⟨hcontexts, fun op _ => ?_, hapart⟩
    cases op with
    | advance msg => exact List.not_mem_nil
    | _ => trivial

/-- A request is added, acknowledged and advanced: the request that was stored has no first entry to read, so
it is not answered. -/
theorem confirmed_read_fails :
    let ro : ReadOnly := { option := .safe }
    let request : Message := { type := .msgReadIndex, from_ := 2, entries := [{ data := [7] }] }
    let confirm : Message := { type := .msgHeartbeatResp, from_ := 3, context := [7] }
    (do let ro ← ro.addRequest 5 request
        (ro.recvAck confirm).1.advance confirm) = .error "req.entries[0] out of range" ∧
      ¬ ro.Proper [] [.addRequest 5 request, .recvAck confirm, .advance confirm] := by
  intro ro request confirm
  refine ⟨rfl, fun hproper => ?_⟩
  obtain ⟨-, -, hapart⟩ := (ReadOnly.Pending.new .safe).proper_iff.mp hproper
  have hfirst := (List.pairwise_cons.mp hapart).1 (.advance confirm) (by simp)
  exact hfirst { data := [7] } [] rfl rfl

end RaftEtcd
