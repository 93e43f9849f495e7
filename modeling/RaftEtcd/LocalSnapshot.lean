import RaftEtcd.Cursor

/-! The snapshots that a server makes of itself. The indexes of the raft thread run ahead of the map,
but the store works in the order in which things were posted: when it comes to the question for a
snapshot, it has done what the index says, and nothing behind it has been posted yet. -/
namespace RaftEtcd

theorem IndexedFrom.bounds {start : Nat} {l : List Entry} (h : IndexedFrom start l) {e : Entry} (he : e ∈ l) :
    start ≤ e.index ∧ e.index < start + l.length := by
  obtain ⟨k, hk⟩ := List.mem_iff_getElem?.mp he
  obtain ⟨hlt, -⟩ := List.getElem?_eq_some_iff.mp hk
  have := h k e hk
  omega

theorem IndexedFrom.around {start : Nat} {front rest : List Entry} {e : Entry}
    (h : IndexedFrom start (front ++ e :: rest)) :
    (∀ e' ∈ front, e'.index < e.index) ∧ ∀ e' ∈ rest, e.index < e'.index := by
  have hfront : IndexedFrom start front := h.of_initial (List.prefix_append ..)
  have hrest := h.drop front.length
  rw [List.drop_left] at hrest
  obtain ⟨he, hrest⟩ := hrest.cons
  refine ⟨fun e' he' => ?_, fun e' he' => ?_⟩
  · have := hfront.bounds he'
    omega
  · have := hrest.bounds he'
    omega

/-! ### The map at an index -/

section Map
variable {mp : Msgpack} {kv : KeyValues} {history : History} {i : Nat}

theorem applyEntry_of_ne {e : Entry} (h : e.type ≠ entryNormal) : applyEntry mp kv e = .ok kv := by
  rw [applyEntry, if_neg fun hc => h hc.1]

/-- Changes of the configuration may be left out. -/
theorem applyEntry_filter {p : Entry → Bool} {es : List Entry} (h : ∀ e ∈ es, p e = false → e.type ≠ entryNormal) :
    (es.filter p).foldlM (applyEntry mp) kv = es.foldlM (applyEntry mp) kv := by
  induction es generalizing kv with
  | nil => rfl
  | cons e es ih =>
      have hes : ∀ e' ∈ es, p e' = false → e'.type ≠ entryNormal := fun e' he' => h e' (List.mem_cons_of_mem _ he')
      cases hp : p e with
      | true =>
          rw [List.filter_cons_of_pos hp, List.foldlM_cons, List.foldlM_cons]
          congr 1
          funext kv'
          exact ih hes
      | false =>
          rw [List.filter_cons_of_neg (by simp [hp]), List.foldlM_cons,
            applyEntry_of_ne (h e (List.mem_cons_self ..) hp)]
          exact ih hes

namespace History

/-- How far the entries reach. -/
def reach (history : History) : Nat := history.index + history.entries.length

theorem filter_le_eq_nil {es : List Entry} (h : ∀ e ∈ es, i < e.index) : es.filter (·.index ≤ i) = [] := by
  rw [List.filter_eq_nil_iff]
  intro e he
  simpa using h e he

theorem mapAt_append {es : List Entry} (h : ∀ e ∈ es, i < e.index) :
    { history with entries := history.entries ++ es }.mapAt mp i = history.mapAt mp i := by
  rw [mapAt, mapAt, List.filter_append, filter_le_eq_nil h, List.append_nil]

theorem mapAt_of_above (h : ∀ e ∈ history.entries, i < e.index) : history.mapAt mp i = history.map := by
  rw [mapAt, filter_le_eq_nil h]
  cases history.map with
  | none => rfl
  | some kv => rfl

/-- The next entry changes the map, whatever changes of the configuration lie in between. -/
theorem mapAt_next {front rest : List Entry} {e : Entry} (hnum : IndexedFrom (history.index + 1) history.entries)
    (hentries : history.entries = front ++ e :: rest) (hskip : ∀ e' ∈ front, i < e'.index → e'.type ≠ entryNormal)
    (hlt : i < e.index) :
    history.mapAt mp e.index = (history.mapAt mp i).bind fun kv => (applyEntry mp kv e).toOption := by
  obtain ⟨hbelow, habove⟩ := (hentries ▸ hnum).around
  have hthere : history.entries.filter (·.index ≤ e.index) = front ++ [e] := by
    have hfront : front.filter (·.index ≤ e.index) = front :=
      List.filter_eq_self.mpr fun e' he' => decide_eq_true (hbelow e' he').le
    rw [hentries, List.filter_append, hfront, List.filter_cons_of_pos (by simp), filter_le_eq_nil habove]
  have hhere : history.entries.filter (·.index ≤ i) = front.filter (·.index ≤ i) := by
    have hrest : ∀ e' ∈ e :: rest, i < e'.index := by
      intro e' he'
      rcases List.mem_cons.mp he' with rfl | he'
      · exact hlt
      · exact hlt.trans (habove e' he')
    rw [hentries, List.filter_append, filter_le_eq_nil hrest, List.append_nil]
  have hfront : ∀ kv, (front.filter (·.index ≤ i)).foldlM (applyEntry mp) kv = front.foldlM (applyEntry mp) kv :=
    fun kv => applyEntry_filter fun e' he' hnot => hskip e' he' (by simpa using hnot)
  rw [mapAt, mapAt, hthere, hhere, Option.bind_assoc]
  congr 1
  funext kv
  rw [hfront, List.foldlM_append]
  cases front.foldlM (applyEntry mp) kv with
  | error text => rfl
  | ok kv' =>
      change ((applyEntry mp kv' e >>= fun kv => .ok kv) : Result KeyValues).toOption = (applyEntry mp kv' e).toOption
      cases applyEntry mp kv' e with
      | error text => rfl
      | ok kv'' => rfl

/-- What is handed out goes on where the history ends. -/
theorem reach_take (rd : Ready) : (history.take mp rd).reach = rd.reaches history.reach := by
  rw [take, Ready.reaches, Ready.start]
  split
  · simp only [reach, List.length_append]
    omega
  · rfl

theorem entries_take {rd : Ready} (hnum : IndexedFrom (history.index + 1) history.entries) :
    ∃ front, (history.take mp rd).entries = front ++ rd.committedEntries ∧ ∀ e ∈ front, e.index ≤ rd.start history.reach := by
  rw [take, Ready.start]
  split
  · refine ⟨history.entries, rfl, fun e he => ?_⟩
    have := hnum.bounds he
    rw [reach]
    omega
  · exact ⟨[], rfl, fun _ he => absurd he List.not_mem_nil⟩

theorem index_take {rd : Ready} (h : history.index ≤ i) : (history.take mp rd).index ≤ rd.start i := by
  rw [take, Ready.start]
  split
  · exact h
  · exact le_rfl

theorem numbered_take {rd : Ready} (hnum : IndexedFrom (history.index + 1) history.entries)
    (h : IndexedFrom (rd.start history.reach + 1) rd.committedEntries) :
    IndexedFrom ((history.take mp rd).index + 1) (history.take mp rd).entries := by
  rw [Ready.start] at h
  rw [take]
  split at h
  · rename_i hempty
    rw [if_pos hempty]
    refine hnum.append ?_
    rw [reach] at h
    convert h using 1
    omega
  · rename_i hempty
    rw [if_neg hempty]
    exact h

end History

end Map

/-! ### The invariant -/

namespace Threads
variable {κ : Type} {mp : Msgpack} {crc : Bytes → UInt32} {t t' : Threads κ}

/-- A `Ready` is out and stored. As long as it brings nothing, the server is not ahead of the node. -/
structure Out (t : Threads κ) (rd : Ready) : Prop where
  delivered : Delivered { node := t.raft.node, outstanding := some ({ rd with hardState := {} }, true) } t.history.reach
  cursor : rd.appliedCursor = 0 → t.raft.appliedIndex ≤ t.raft.log.applied

/-- No question is open. -/
def Quiet (t : Threads κ) : Prop := ∀ h ∈ t.queue, h ≠ .getSnapshot

/-- The entries that are still to be published come last; what was passed over before them does not
concern the map. -/
structure Remaining (t : Threads κ) (rd : Ready) (entries : List Entry) : Prop where
  front : ∃ front, t.history.entries = front ++ entries ∧
    ∀ e ∈ front, t.raft.appliedIndex < e.index → e.type ≠ entryNormal
  above : ∀ e ∈ entries, t.raft.appliedIndex < e.index
  cursor : 0 < rd.appliedCursor

/-- Behind the question only sessions have posted anything. -/
def Asked (t : Threads κ) : Prop :=
  t.answer = none ∧ ∃ before after, t.queue = before ++ .getSnapshot :: after ∧
    (∀ h ∈ before, h ≠ .getSnapshot) ∧ ∀ h ∈ after, h.IsSession

def Answered (mp : Msgpack) (t : Threads κ) : Prop :=
  (∀ h ∈ t.queue, h.IsSession) ∧ ∃ kv, t.history.mapAt mp t.raft.appliedIndex = some kv ∧
    t.answer = some (mp.pack (KeyValues.toObj kv))

def Stands (mp : Msgpack) (t : Threads κ) : Position → Prop
  | .loop => Delivered { node := t.raft.node } t.history.reach ∧ t.raft.appliedIndex ≤ t.raft.log.applied ∧ t.Quiet
  | .publishing rd entries => t.Out rd ∧ t.Quiet ∧ (entries = [] ∨ t.Remaining rd entries)
  | .waiting rd => t.Out rd ∧ 1 ≤ t.raft.appliedIndex ∧ (t.Asked ∨ t.Answered mp)

/-- Whatever the store has not done yet: when it has, its map is the one at the index. -/
structure Synced (mp : Msgpack) (t : Threads κ) : Prop where
  numbered : IndexedFrom (t.history.index + 1) t.history.entries
  index_le : t.history.index ≤ t.raft.appliedIndex
  le_reach : t.raft.appliedIndex ≤ t.history.reach
  snapshot_le : t.raft.snapshotIndex ≤ t.raft.appliedIndex
  map : ∀ store, StoreHandler.drain mp t.raft.id t.queue t.raft.store = .ok store →
    t.history.mapAt mp t.raft.appliedIndex = some store.keyValues
  stands : t.Stands mp t.position

/-! ### The store thread -/

/-- Where the raft thread stands does not depend on the store; of the queue it matters whether a
question waits in it. -/
theorem Stands.requeue (h : t.Stands mp t.position) {store : RedisStore κ} {queue : List (StoreHandler κ)}
    {answer : Option Bytes} (hquiet : t.Quiet → ∀ h ∈ queue, h ≠ .getSnapshot)
    (hwaits : t.Asked ∨ t.Answered mp →
      { t with raft := { t.raft with store := store }, queue := queue, answer := answer }.Asked ∨
        { t with raft := { t.raft with store := store }, queue := queue, answer := answer }.Answered mp) :
    { t with raft := { t.raft with store := store }, queue := queue, answer := answer }.Stands mp t.position := by
  cases hpos : t.position with
  | loop =>
      rw [hpos] at h
      obtain ⟨hd, hle, hq⟩ := h
      exact ⟨hd, hle, hquiet hq⟩
  | publishing rd entries =>
      rw [hpos] at h
      obtain ⟨hout, hq, hrest⟩ := h
      exact ⟨⟨hout.delivered, hout.cursor⟩, hquiet hq, hrest.imp id fun hr => ⟨hr.front, hr.above, hr.cursor⟩⟩
  | waiting rd =>
      rw [hpos] at h
      obtain ⟨hout, hone, hw⟩ := h
      exact ⟨⟨hout.delivered, hout.cursor⟩, hone, hwaits hw⟩

/-- When the store comes to the question, nothing of the log is left behind it. -/
theorem Asked.serve (h : t.Asked) {handler : StoreHandler κ} {queue : List (StoreHandler κ)} {store : RedisStore κ}
    {answer : Option Bytes} (hq : t.queue = handler :: queue)
    (hrun : handler.run mp t.raft.id t.raft.store = .ok (store, answer))
    (hmap : ∀ store', StoreHandler.drain mp t.raft.id queue store = .ok store' →
      t.history.mapAt mp t.raft.appliedIndex = some store'.keyValues) :
    { t with raft := { t.raft with store := store }, queue := queue, answer := answer <|> t.answer }.Asked ∨
      { t with raft := { t.raft with store := store }, queue := queue, answer := answer <|> t.answer }.Answered mp := by
  obtain ⟨hnone, before, after, hsplit, hbefore, hafter⟩ := h
  rw [hq] at hsplit
  cases before with
  | nil =>
      obtain ⟨rfl, rfl⟩ := List.cons.inj hsplit
      obtain ⟨rfl, rfl⟩ := Prod.mk.inj (Except.ok.inj hrun)
      obtain ⟨store', hdrain, hkv⟩ := StoreHandler.drain_sessions hafter
      refine Or.inr ⟨hafter, _, hmap store' hdrain, ?_⟩
      rw [hkv]
      rfl
  | cons first before =>
      obtain ⟨rfl, rfl⟩ := List.cons.inj hsplit
      have hanswer := StoreHandler.run_answer (hbefore _ (List.mem_cons_self ..)) hrun
      refine Or.inl ⟨?_, before, after, rfl, fun h' hh' => hbefore h' (List.mem_cons_of_mem _ hh'), hafter⟩
      rw [hanswer]
      exact hnone

theorem Synced.serve (h : t.Synced mp) (hrun : t.run mp crc .serve = .ok t') : t'.Synced mp := by
  simp only [run] at hrun
  split at hrun
  · cases hrun
  rename_i handler queue hq
  obtain ⟨⟨store, answer⟩, hhandler, hrun⟩ := bind_ok hrun
  obtain rfl := Except.ok.inj hrun
  have hmap : ∀ store', StoreHandler.drain mp t.raft.id queue store = .ok store' →
      t.history.mapAt mp t.raft.appliedIndex = some store'.keyValues := by
    intro store' hdrain
    refine h.map store' ?_
    rw [hq, StoreHandler.drain, hhandler]
    exact hdrain
  refine ⟨h.numbered, h.index_le, h.le_reach, h.snapshot_le, hmap, h.stands.requeue (fun hquiet => ?_) fun hwaits => ?_⟩
  · rw [Quiet, hq] at hquiet
    exact fun h' hh' => hquiet h' (List.mem_cons_of_mem _ hh')
  · rcases hwaits with hasked | ⟨hsessions, kv, hkv, hanswer⟩
    · exact hasked.serve hq hhandler hmap
    · rw [hq] at hsessions
      have hnone := StoreHandler.run_answer (hsessions _ (List.mem_cons_self ..)).ne_getSnapshot hhandler
      refine Or.inr ⟨fun h' hh' => hsessions h' (List.mem_cons_of_mem _ hh'), kv, hkv, ?_⟩
      rw [hnone]
      exact hanswer

/-- A session may post at any time. -/
theorem Synced.post (h : t.Synced mp) {handler : StoreHandler κ} (hs : handler.IsSession) :
    { t with queue := t.queue ++ [handler] }.Synced mp := by
  refine ⟨h.numbered, h.index_le, h.le_reach, h.snapshot_le, fun store hdrain => ?_,
    h.stands.requeue (fun hquiet => ?_) fun hwaits => ?_⟩
  · obtain ⟨mid, answer, hmid, hlast⟩ := StoreHandler.drain_concat hdrain
    obtain ⟨store', hsession, hkv⟩ := StoreHandler.run_session hs
    obtain ⟨rfl, -⟩ := Prod.mk.inj (Except.ok.inj (hsession.symm.trans hlast))
    rw [hkv]
    exact h.map mid hmid
  · exact List.forall_mem_append.mpr ⟨hquiet, List.forall_mem_singleton.mpr hs.ne_getSnapshot⟩
  · rcases hwaits with ⟨hnone, before, after, hsplit, hbefore, hafter⟩ | ⟨hall, hkv⟩
    · refine Or.inl ⟨hnone, before, after ++ [handler], ?_, hbefore,
        List.forall_mem_append.mpr ⟨hafter, List.forall_mem_singleton.mpr hs⟩⟩
      change t.queue ++ [handler] = _
      rw [hsplit, List.append_assoc]
      rfl
    · exact Or.inr ⟨List.forall_mem_append.mpr ⟨hall, List.forall_mem_singleton.mpr hs⟩, hkv⟩

/-! ### The raft thread -/

/-- Between two rounds the node may do as it likes. -/
theorem Synced.node (h : t.Synced mp) (hpos : t.position = .loop) {n : RawNode}
    (hg : t.raft.log.Grows True n.raft.raftLog) : { t with raft := { t.raft with node := n } }.Synced mp := by
  refine ⟨h.numbered, h.index_le, h.le_reach, h.snapshot_le, h.map, ?_⟩
  have hstands := h.stands
  change Stands mp _ t.position
  rw [hpos] at hstands ⊢
  obtain ⟨hd, hle, hquiet⟩ := hstands
  exact ⟨hd.grows hg, hle.trans hg.applied.ge, hquiet⟩

/-- `advance` ends the round. -/
theorem Out.advance {rd : Ready} (h : t.Out rd) (hle : t.raft.appliedIndex ≤ t.history.reach) :
    Delivered { node := t.raft.node.advance rd } t.history.reach ∧
      t.raft.appliedIndex ≤ (t.raft.node.advance rd).raft.raftLog.applied := by
  obtain ⟨hd, hmoved⟩ := RaftNode.delivered_advanced h.delivered
  refine ⟨hd, ?_⟩
  rw [hmoved]
  split
  · rename_i hpos
    exact hle.trans ((h.delivered.handing _ _ rfl).cursor hpos).ge
  · exact h.cursor (by omega)

theorem Synced.trigger (h : t.Synced mp) (hrun : t.run mp crc .trigger = .ok t') : t'.Synced mp := by
  simp only [run] at hrun
  split at hrun
  · rename_i rd hpos
    have hstands := h.stands
    rw [hpos] at hstands
    obtain ⟨hout, hquiet, -⟩ := hstands
    split at hrun
    · obtain rfl := Except.ok.inj hrun
      obtain ⟨hd, hle⟩ := hout.advance h.le_reach
      exact ⟨h.numbered, h.index_le, h.le_reach, h.snapshot_le, h.map, hd, hle, hquiet⟩
    · rename_i hdue
      obtain rfl := Except.ok.inj hrun
      refine ⟨h.numbered, h.index_le, h.le_reach, h.snapshot_le, ?_, ⟨hout.delivered, hout.cursor⟩,
        RaftNode.applied_pos_of_due h.snapshot_le hdue, Or.inl ⟨rfl, t.queue, [], rfl, hquiet,
          fun _ hmem => absurd hmem List.not_mem_nil⟩⟩
      intro store hdrain
      obtain ⟨mid, answer, hmid, hlast⟩ := StoreHandler.drain_concat hdrain
      obtain ⟨rfl, -⟩ := Prod.mk.inj (Except.ok.inj hlast)
      exact h.map _ hmid
  · cases hrun

theorem Synced.create (h : t.Synced mp) (hrun : t.run mp crc .create = .ok t') : t'.Synced mp := by
  simp only [run] at hrun
  split at hrun
  · rename_i rd data hpos hanswer
    have hstands := h.stands
    rw [hpos] at hstands
    obtain ⟨hout, hone, hasked | ⟨hsessions, -⟩⟩ := hstands
    · cases hanswer.symm.trans hasked.1
    obtain ⟨s, hs, hrun⟩ := bind_ok hrun
    obtain rfl := Except.ok.inj hrun
    have hcursor : t.raft.appliedIndex ≤ t.raft.log.applied ∨ t.raft.appliedIndex ≤ rd.appliedCursor := by
      rcases Nat.eq_zero_or_pos rd.appliedCursor with hzero | hpos'
      · exact Or.inl (hout.cursor hzero)
      · exact Or.inr (h.le_reach.trans ((hout.delivered.handing _ _ rfl).cursor hpos').ge)
    obtain ⟨hd, happlied, hsnap, hlog, hid, hstore⟩ := RaftNode.snapshotAt_spec hout.delivered hone hcursor hs
    have hout' : { t with raft := s }.Out rd := by
      refine ⟨hd, fun hzero => ?_⟩
      change s.appliedIndex ≤ s.log.applied
      rw [happlied, hlog]
      exact hout.cursor hzero
    have hreach : s.appliedIndex ≤ t.history.reach := happlied ▸ h.le_reach
    obtain ⟨hd', hle⟩ := hout'.advance hreach
    refine ⟨h.numbered, happlied ▸ h.index_le, hreach, hsnap.le, ?_, hd', hle,
      fun h' hh' => (hsessions h' hh').ne_getSnapshot⟩
    change ∀ store, StoreHandler.drain mp s.id t.queue s.store = .ok store →
      t.history.mapAt mp s.appliedIndex = some store.keyValues
    rw [hid, hstore, happlied]
    exact h.map
  · cases hrun

/-- What is posted for an entry does to the map what the entry says. -/
theorem drain_posted {nodeId : Nat} {entry : Entry} {posted : List (StoreHandler κ)} {store store' : RedisStore κ}
    (hcases : entry.type = entryNormal ∧ posted = (if entry.data = [] then [] else [.readCommit entry.data]) ∨
      entry.type ≠ entryNormal ∧ posted = [])
    (hdrain : StoreHandler.drain mp nodeId posted store = .ok store') :
    applyEntry mp store.keyValues entry = .ok store'.keyValues := by
  rcases hcases with ⟨hty, rfl⟩ | ⟨hty, rfl⟩
  · by_cases hdata : entry.data = []
    · rw [if_pos hdata] at hdrain
      obtain rfl := Except.ok.inj hdrain
      rw [applyEntry, if_neg fun hc => hc.2 hdata]
    · rw [if_neg hdata] at hdrain
      obtain ⟨⟨store₂, answer⟩, hrun, hdrain⟩ := bind_ok hdrain
      obtain rfl := Except.ok.inj hdrain
      obtain ⟨⟨store₁, callback⟩, hread, hrun⟩ := bind_ok hrun
      obtain ⟨rfl, -⟩ := Prod.mk.inj (Except.ok.inj hrun)
      exact readCommit_applies hty hdata hread
  · obtain rfl := Except.ok.inj hdrain
    exact applyEntry_of_ne hty

/-- And so it does behind what waits already. -/
theorem drain_published {i j nodeId : Nat} {entry : Entry} {history : History} {queue posted : List (StoreHandler κ)}
    {store store' : RedisStore κ}
    (hnext : history.mapAt mp entry.index = (history.mapAt mp i).bind fun kv => (applyEntry mp kv entry).toOption)
    (hmap : ∀ store', StoreHandler.drain mp nodeId queue store = .ok store' →
      history.mapAt mp i = some store'.keyValues)
    (hcases : entry.type = entryNormal ∧ j = entry.index ∧
        posted = (if entry.data = [] then [] else [.readCommit entry.data]) ∨
      entry.type ≠ entryNormal ∧ posted = [] ∧ (j = entry.index ∨ j = i))
    (hdrain : StoreHandler.drain mp nodeId (queue ++ posted) store = .ok store') :
    history.mapAt mp j = some store'.keyValues := by
  rw [StoreHandler.drain_append] at hdrain
  obtain ⟨mid, hmid, hdrain⟩ := bind_ok hdrain
  have hposted : applyEntry mp mid.keyValues entry = .ok store'.keyValues :=
    drain_posted (hcases.imp (fun h => ⟨h.1, h.2.2⟩) fun h => ⟨h.1, h.2.1⟩) hdrain
  have hindex : history.mapAt mp entry.index = some store'.keyValues := by
    rw [hnext, hmap mid hmid, Option.bind_some, hposted]
    rfl
  rcases hcases with ⟨-, rfl, -⟩ | ⟨hty, -, rfl | rfl⟩
  · exact hindex
  · exact hindex
  · rw [hmap mid hmid, Except.ok.inj ((applyEntry_of_ne hty).symm.trans hposted)]

/-- The next entry is published: what is posted does to the map what the entry says. -/
theorem Synced.publish (h : t.Synced mp) (hrun : t.run mp crc .publish = .ok t') : t'.Synced mp := by
  simp only [run] at hrun
  split at hrun
  case h_2 => cases hrun
  rename_i rd entry entries hpos
  obtain ⟨⟨s, posted, more⟩, hpost, hrun⟩ := bind_ok hrun
  obtain rfl := Except.ok.inj hrun
  have hstands := h.stands
  rw [hpos] at hstands
  obtain ⟨hout, hquiet, hnil | hrem⟩ := hstands
  · cases hnil
  obtain ⟨front, hsplit, hskip⟩ := hrem.front
  have hlt := hrem.above entry (List.mem_cons_self ..)
  have hbounds := h.numbered.bounds (e := entry) (by rw [hsplit]; simp)
  obtain ⟨-, habove⟩ := (hsplit ▸ h.numbered).around
  have hnext : t.history.mapAt mp entry.index = _ := History.mapAt_next h.numbered hsplit hskip hlt
  obtain ⟨hid, hstore, hsnap, hgrows, hcases⟩ := RaftNode.postEntry_spec hpost
  -- the server moves to the entry, or a change of the configuration is passed over
  have hmoves : t.raft.appliedIndex ≤ s.appliedIndex ∧ s.appliedIndex ≤ entry.index ∧
      (s.appliedIndex < entry.index → entry.type ≠ entryNormal) := by
    rcases hcases with ⟨-, happlied, -⟩ | ⟨hty, -, happlied | happlied⟩
    · exact ⟨by omega, by omega, by omega⟩
    · exact ⟨by omega, by omega, by omega⟩
    · exact ⟨by omega, by omega, fun _ => hty⟩
  obtain ⟨hge, hle, hpassed⟩ := hmoves
  have hposted : ∀ h ∈ posted, h ≠ StoreHandler.getSnapshot := by
    rcases hcases with ⟨-, -, rfl⟩ | ⟨-, rfl, -⟩
    · split
      · exact fun _ hmem => absurd hmem List.not_mem_nil
      · exact List.forall_mem_singleton.mpr fun heq => by cases heq
    · exact fun _ hmem => absurd hmem List.not_mem_nil
  refine ⟨h.numbered, h.index_le.trans hge, ?_, ?_, ?_, ⟨hout.delivered.grows hgrows, ?_⟩,
    List.forall_mem_append.mpr ⟨hquiet, hposted⟩, ?_⟩
  · change s.appliedIndex ≤ t.history.reach
    rw [History.reach]
    omega
  · change s.snapshotIndex ≤ s.appliedIndex
    rw [hsnap]
    exact h.snapshot_le.trans hge
  · intro store hdrain
    change StoreHandler.drain mp s.id (t.queue ++ posted) s.store = .ok store at hdrain
    rw [hid, hstore] at hdrain
    exact drain_published hnext h.map hcases hdrain
  · intro hzero
    have := hrem.cursor
    omega
  · cases more with
    | false => exact Or.inl rfl
    | true =>
        refine Or.inr ⟨⟨front ++ [entry], ?_, ?_⟩, ?_, hrem.cursor⟩
        · change t.history.entries = _
          rw [hsplit, List.append_assoc]
          rfl
        · intro e he hlt'
          rcases List.mem_append.mp he with he | he
          · exact hskip e he (by have : s.appliedIndex < e.index := hlt'; omega)
          · obtain rfl := List.mem_singleton.mp he
            exact hpassed hlt'
        · intro e he
          have := habove e he
          change s.appliedIndex < e.index
          omega

/-- Entries that were not refused come right behind the index, and none is left out. -/
theorem entriesToApply_cases {s : RaftNode κ} {d : Nat} {committed entries : List Entry}
    (hidx : IndexedFrom (d + 1) committed) (hle : s.appliedIndex ≤ d) (h : s.entriesToApply committed = .ok entries) :
    entries = [] ∨ s.appliedIndex = d ∧ entries = committed ∧ committed ≠ [] := by
  unfold RaftNode.entriesToApply at h
  split at h
  · exact Or.inl (Except.ok.inj h).symm
  · rename_i e es
    have he := hidx.cons.1
    split at h
    · cases h
    · have heq : s.appliedIndex = d := by omega
      have hzero : s.appliedIndex + 1 - e.index = 0 := by omega
      rw [hzero, List.drop_zero] at h
      exact Or.inr ⟨heq, (Except.ok.inj h).symm, List.cons_ne_nil e es⟩

/-- A snapshot puts its own map in the place of what was there. -/
theorem drain_taken {rd : Ready} {i nodeId : Nat} {history : History} {queue : List (StoreHandler κ)}
    {store store' : RedisStore κ} (hmap : ∀ store', StoreHandler.drain mp nodeId queue store = .ok store' →
      history.mapAt mp i = some store'.keyValues) (habove : ∀ e ∈ rd.committedEntries, rd.start i < e.index)
    (hdrain : StoreHandler.drain mp nodeId (queue ++
      if rd.snapshot.isEmpty then [] else [.recoverFromSnapshot rd.snapshot.data]) store = .ok store') :
    (history.take mp rd).mapAt mp (rd.start i) = some store'.keyValues := by
  rw [Ready.start] at habove ⊢
  rw [History.take]
  split at habove
  · rename_i hempty
    rw [if_pos hempty, List.append_nil] at hdrain
    rw [if_pos hempty, if_pos hempty, History.mapAt_append habove]
    exact hmap store' hdrain
  · rename_i hempty
    rw [if_neg hempty] at hdrain
    obtain ⟨mid, answer, -, hlast⟩ := StoreHandler.drain_concat hdrain
    rw [if_neg hempty, if_neg hempty, History.mapAt_of_above habove]
    exact StoreHandler.run_recover hlast

theorem Synced.take (h : t.Synced mp) (hpos : t.position = .loop) (hrun : t.take mp crc = .ok t') : t'.Synced mp := by
  unfold Threads.take at hrun
  split at hrun
  · obtain rfl := Except.ok.inj hrun
    exact h
  obtain ⟨⟨rd, node⟩, hrd, hrun⟩ := bind_ok hrun
  simp only at hrun
  split at hrun
  · obtain rfl := Except.ok.inj hrun
    obtain ⟨-, -, -, hlog⟩ := ready_spec hrd
    refine h.node hpos ?_
    rw [hlog]
    exact .refl _
  obtain ⟨⟨s, posted⟩, hstage, hrun⟩ := bind_ok hrun
  obtain ⟨entries, hentries, hrun⟩ := bind_ok hrun
  obtain rfl := Except.ok.inj hrun
  have hstands := h.stands
  rw [hpos] at hstands
  obtain ⟨hd, happlied_le, hquiet⟩ := hstands
  obtain ⟨st, hst, hnode, hid, hstore, happlied, hsnap, hposted⟩ := RaftNode.stageReady_spec hstage
  obtain ⟨hcont, hlog, hstaged⟩ := RaftNode.delivered_staged hd hrd hst
  have hout : { t with raft := s, history := t.history.take mp rd }.Out rd := by
    constructor
    · change Delivered { node := s.node, outstanding := _ } (t.history.take mp rd).reach
      rw [hnode, History.reach_take]
      exact hstaged
    · intro hzero
      have hempty : rd.snapshot.isEmpty = true := ((hstaged.handing _ _ rfl).nothing hzero).2
      change s.appliedIndex ≤ s.node.raft.raftLog.applied
      rw [happlied, Ready.start, if_pos hempty, hnode]
      exact happlied_le.trans hlog.ge
  have hle : s.appliedIndex ≤ rd.start t.history.reach := by
    rw [happlied, Ready.start, Ready.start]
    split
    · exact h.le_reach
    · exact le_rfl
  have habove : ∀ e ∈ rd.committedEntries, s.appliedIndex < e.index := by
    intro e he
    have := hcont.2.bounds he
    omega
  have hrecover : ∀ h ∈ posted, h ≠ StoreHandler.getSnapshot := by
    rw [hposted]
    split
    · exact fun _ hmem => absurd hmem List.not_mem_nil
    · exact List.forall_mem_singleton.mpr fun heq => by cases heq
  refine ⟨History.numbered_take h.numbered hcont.2, ?_, ?_, ?_, ?_, ⟨hout.delivered, hout.cursor⟩,
    List.forall_mem_append.mpr ⟨hquiet, hrecover⟩, ?_⟩
  · change (t.history.take mp rd).index ≤ s.appliedIndex
    rw [happlied]
    exact History.index_take h.index_le
  · change s.appliedIndex ≤ (t.history.take mp rd).reach
    rw [History.reach_take]
    exact hle.trans (Nat.le_add_right _ _)
  · change s.snapshotIndex ≤ s.appliedIndex
    have := h.snapshot_le
    rw [hsnap, happlied, Ready.start, Ready.start]
    split
    · exact this
    · exact le_rfl
  · intro store hdrain
    change StoreHandler.drain mp s.id (t.queue ++ posted) s.store = .ok store at hdrain
    change (t.history.take mp rd).mapAt mp s.appliedIndex = some store.keyValues
    rw [hid, hstore, hposted] at hdrain
    rw [happlied] at habove ⊢
    exact drain_taken h.map habove hdrain
  · rcases entriesToApply_cases hcont.2 hle hentries with hnil | ⟨heq, rfl, hne⟩
    · exact Or.inl hnil
    · obtain ⟨front, hsplit, hfront⟩ := History.entries_take h.numbered
      refine Or.inr ⟨⟨front, hsplit, fun e he hlt => ?_⟩, habove, ?_⟩
      · have : s.appliedIndex < e.index := hlt
        have := hfront e he
        omega
      · rcases Ready.cursor_cases hcont.2 with ⟨-, hstay⟩ | ⟨hpos', -⟩
        · rw [Ready.reaches] at hstay
          have := List.length_pos_iff.mpr hne
          omega
        · exact hpos'

/-! ### Runs -/

theorem Synced.run (h : t.Synced mp) {e : Event κ} (ha : e.Allowed) (hrun : t.run mp crc e = .ok t') : t'.Synced mp := by
  cases e with
  | call a =>
      simp only [Threads.run] at hrun
      split at hrun
      · rename_i hpos
        obtain ⟨n, hn, hrun⟩ := bind_ok hrun
        obtain rfl := Except.ok.inj hrun
        exact h.node hpos (call_grows ha hn)
      · cases hrun
  | take =>
      simp only [Threads.run] at hrun
      split at hrun
      · rename_i hpos
        exact h.take hpos hrun
      · cases hrun
  | publish => exact h.publish hrun
  | trigger => exact h.trigger hrun
  | create => exact h.create hrun
  | serve => exact h.serve hrun
  | post handler =>
      obtain rfl := Except.ok.inj hrun
      exact h.post ha

end Threads

end RaftEtcd
