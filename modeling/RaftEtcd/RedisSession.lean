import RaftEtcd.Proto

/-! `server/redis_session.cpp`: how the bytes that a client sends reach the parser. The parser is
the reader of hiredis, known here by its two calls only. `handle_read` hands it one line at a time,
and what it does with the bytes behind the last line of a read is the point of this module. -/
namespace RaftEtcd

/-- `redisReaderFeed` and `redisReaderGetReply`; `none` is a result other than `REDIS_OK`. -/
structure RedisReader (ρ : Type) where
  State : Type
  init : State
  feed : State → Bytes → Option State
  getReply : State → Option (Option ρ × State)

def newline : UInt8 := 10

/-- The position of the first `c`. -/
def memchr (c : UInt8) : Bytes → Option Nat
  | [] => none
  | b :: bs => if b = c then some 0 else (memchr c bs).map (· + 1)

/-- `reads` counts the reads that wait for data, `fed` and `handled` record what was passed to the
reader and to `on_redis_reply`. -/
structure RedisSession {ρ : Type} (rd : RedisReader ρ) where
  quit : Bool := false
  reader : rd.State := rd.init
  reads : Nat := 0
  fed : Bytes := []
  handled : List ρ := []

namespace RedisSession
variable {ρ : Type} {rd : RedisReader ρ}

def start (s : RedisSession rd) : RedisSession rd := if s.quit then s else { s with reads := s.reads + 1 }

/-- The loop of `handle_read`: the session, whether `err` is still `REDIS_OK`, and the replies.
Every round takes a byte or more, so the number of bytes bounds the rounds. -/
def readLoop : Nat → RedisSession rd → Bytes → List ρ → RedisSession rd × Bool × List ρ
  | 0, s, _, replies => (s, true, replies)
  | fuel + 1, s, bytes, replies =>
      if s.quit ∨ bytes = [] then (s, true, replies)
      else
        match memchr newline bytes with
        | none => (s.start, true, replies)
        | some p =>
            match rd.feed s.reader (bytes.take (p + 1)) with
            | none => ({ s with quit := true }, false, replies)
            | some reader =>
                let s := { s with fed := s.fed ++ bytes.take (p + 1) }
                match rd.getReply reader with
                | none => ({ s with quit := true }, false, replies)
                | some (reply, reader) =>
                    readLoop fuel { s with reader := reader } (bytes.drop (p + 1)) (replies ++ reply.toList)

def handleRead (s : RedisSession rd) (bytes : Bytes) : RedisSession rd :=
  match readLoop bytes.length s bytes [] with
  | (s, true, replies) => { s with handled := s.handled ++ replies }.start
  | (s, false, _) => s

/-- A read completes with these bytes. Every read fills the buffer from its start. -/
def receive (s : RedisSession rd) (bytes : Bytes) : RedisSession rd :=
  if s.reads = 0 then s
  else
    let s := { s with reads := s.reads - 1 }
    if bytes = [] then s else s.handleRead bytes

def receiveAll : RedisSession rd → List Bytes → RedisSession rd
  | s, [] => s
  | s, bytes :: rest => receiveAll (s.receive bytes) rest

/-- A session that has just been accepted. -/
def opened (rd : RedisReader ρ) : RedisSession rd := ({} : RedisSession rd).start

end RedisSession

section Lines

/-- The lines of a text, each with its newline, and what follows the last one. -/
def lines : Bytes → List Bytes × Bytes
  | [] => ([], [])
  | b :: bs =>
      if b = newline then ([b] :: (lines bs).1, (lines bs).2)
      else
        match lines bs with
        | ([], rest) => ([], b :: rest)
        | (l :: ls, rest) => ((b :: l) :: ls, rest)

theorem lines_cons_end {b : UInt8} (hb : b = newline) (bs : Bytes) :
    lines (b :: bs) = ([b] :: (lines bs).1, (lines bs).2) := by
  simp only [lines, if_pos hb]

theorem lines_cons_open {b : UInt8} (hb : b ≠ newline) {bs rest : Bytes} (h : lines bs = ([], rest)) :
    lines (b :: bs) = ([], b :: rest) := by
  simp only [lines, if_neg hb, h]

theorem lines_cons_within {b : UInt8} (hb : b ≠ newline) {bs l rest : Bytes} {ls : List Bytes}
    (h : lines bs = (l :: ls, rest)) : lines (b :: bs) = ((b :: l) :: ls, rest) := by
  simp only [lines, if_neg hb, h]

theorem lines_flatten (bs : Bytes) : (lines bs).1.flatten ++ (lines bs).2 = bs := by
  induction bs with
  | nil => rfl
  | cons b bs ih =>
      by_cases hb : b = newline
      · rw [lines_cons_end hb]
        simpa using ih
      · rcases hl : lines bs with ⟨_ | ⟨l, ls⟩, rest⟩
        · rw [hl] at ih
          rw [lines_cons_open hb hl]
          simpa using ih
        · rw [hl] at ih
          rw [lines_cons_within hb hl]
          simpa using ih

theorem lines_of_memchr_none {bs : Bytes} (h : memchr newline bs = none) : lines bs = ([], bs) := by
  induction bs with
  | nil => rfl
  | cons b bs ih =>
      unfold memchr at h
      split at h
      · cases h
      · rename_i hb
        exact lines_cons_open hb (ih (Option.map_eq_none_iff.mp h))

/-- The first round of the loop takes the first line. -/
theorem lines_of_memchr_some {bs : Bytes} {p : Nat} (h : memchr newline bs = some p) :
    lines bs = (bs.take (p + 1) :: (lines (bs.drop (p + 1))).1, (lines (bs.drop (p + 1))).2) := by
  induction bs generalizing p with
  | nil => cases h
  | cons b bs ih =>
      unfold memchr at h
      split at h
      · rename_i hb
        obtain rfl := Option.some.inj h
        exact lines_cons_end hb bs
      · rename_i hb
        obtain ⟨q, hq, rfl⟩ := Option.map_eq_some_iff.mp h
        exact lines_cons_within hb (ih hq)

/-- A text whose last line is complete can be put in front of another. -/
theorem lines_append {a : Bytes} (h : (lines a).2 = []) (b : Bytes) :
    lines (a ++ b) = ((lines a).1 ++ (lines b).1, (lines b).2) := by
  induction a with
  | nil => rfl
  | cons x a ih =>
      rw [List.cons_append]
      by_cases hx : x = newline
      · rw [lines_cons_end hx] at h ⊢
        rw [lines_cons_end hx, ih h]
        rfl
      · rcases hl : lines a with ⟨_ | ⟨l, ls⟩, rest⟩
        · rw [lines_cons_open hx hl] at h
          cases h
        · rw [lines_cons_within hx hl] at h ⊢
          rw [hl] at ih
          exact lines_cons_within hx (ih h)

/-- Nothing follows the last line of a text that ends with a newline. -/
theorem lines_rest_iff {bs : Bytes} (hne : bs ≠ []) : (lines bs).2 = [] ↔ bs.getLast? = some newline := by
  induction bs with
  | nil => exact absurd rfl hne
  | cons b bs ih =>
      by_cases hbs : bs = []
      · subst hbs
        by_cases hb : b = newline
        · simp [lines, hb]
        · simp [lines, hb]
      · rw [List.getLast?_cons_of_ne_nil hbs, ← ih hbs]
        by_cases hb : b = newline
        · rw [lines_cons_end hb]
        · rcases hl : lines bs with ⟨_ | ⟨l, ls⟩, rest⟩
          · have hrest := lines_flatten bs
            rw [hl] at hrest
            rw [lines_cons_open hb hl]
            simp only [List.flatten_nil, List.nil_append] at hrest
            simp [hrest, hbs]
          · rw [lines_cons_within hb hl]

end Lines

namespace RedisReader
variable {ρ : Type}

/-- The reader gets some texts one by one and is asked for a reply after each. -/
def feedAll (rd : RedisReader ρ) : rd.State → List Bytes → Option (rd.State × List ρ)
  | st, [] => some (st, [])
  | st, l :: ls =>
      match rd.feed st l with
      | none => none
      | some st =>
          match rd.getReply st with
          | none => none
          | some (reply, st) => (rd.feedAll st ls).map fun q => (q.1, reply.toList ++ q.2)

/-- The reader finds no error in the lines of a stream. -/
def Accepts (rd : RedisReader ρ) (bs : Bytes) : Prop := (rd.feedAll rd.init (lines bs).1).isSome

instance (rd : RedisReader ρ) (bs : Bytes) : Decidable (rd.Accepts bs) :=
  inferInstanceAs (Decidable (Option.isSome _ = true))

theorem feedAll_append {rd : RedisReader ρ} {st : rd.State} {ls ls' : List Bytes} {q : rd.State × List ρ}
    (h : rd.feedAll st (ls ++ ls') = some q) :
    ∃ st₁ rs rs', rd.feedAll st ls = some (st₁, rs) ∧ rd.feedAll st₁ ls' = some (q.1, rs') ∧ q.2 = rs ++ rs' := by
  induction ls generalizing st q with
  | nil => exact ⟨st, [], q.2, rfl, h, rfl⟩
  | cons l ls ih =>
      simp only [List.cons_append, feedAll] at h ⊢
      split at h
      · cases h
      · split at h
        · cases h
        · rename_i reply st₁ hr
          obtain ⟨q', hq', rfl⟩ := Option.map_eq_some_iff.mp h
          obtain ⟨st₂, rs, rs', h₁, h₂, hrs⟩ := ih hq'
          exact ⟨st₂, reply.toList ++ rs, rs', by rw [h₁]; rfl, h₂, by rw [hrs, List.append_assoc]⟩

end RedisReader

namespace RedisSession
variable {ρ : Type} {rd : RedisReader ρ} {s : RedisSession rd}

/-- The loop feeds line after line; a read that does not end with a line starts another one. -/
theorem readLoop_lines {fuel : Nat} {bytes : Bytes} (hfuel : bytes.length ≤ fuel) (hq : s.quit = false)
    {st : rd.State} {rs : List ρ} (h : rd.feedAll s.reader (lines bytes).1 = some (st, rs)) (replies : List ρ) :
    ∃ reads, readLoop fuel s bytes replies =
      ({ s with reader := st, fed := s.fed ++ (lines bytes).1.flatten, reads := reads }, true, replies ++ rs) := by
  induction fuel generalizing s bytes st rs replies with
  | zero =>
      obtain rfl := List.eq_nil_of_length_eq_zero (Nat.le_zero.mp hfuel)
      obtain ⟨rfl, rfl⟩ := Prod.mk.inj (Option.some.inj h)
      exact ⟨s.reads, by simp [readLoop, lines]⟩
  | succ fuel ih =>
      by_cases hne : bytes = []
      · subst hne
        obtain ⟨rfl, rfl⟩ := Prod.mk.inj (Option.some.inj h)
        exact ⟨s.reads, by simp [readLoop, lines]⟩
      · rw [readLoop, if_neg (by simp [hq, hne])]
        cases hm : memchr newline bytes with
        | none =>
            rw [lines_of_memchr_none hm] at h ⊢
            obtain ⟨rfl, rfl⟩ := Prod.mk.inj (Option.some.inj h)
            exact ⟨s.reads + 1, by simp [start, hq]⟩
        | some p =>
            rw [lines_of_memchr_some hm] at h ⊢
            simp only [RedisReader.feedAll] at h
            split at h
            · cases h
            rename_i st₁ hfeed
            split at h
            · cases h
            rename_i reply st₂ hreply
            obtain ⟨⟨st', rs'⟩, hrest, heq⟩ := Option.map_eq_some_iff.mp h
            obtain ⟨rfl, rfl⟩ := Prod.mk.inj heq
            have hlen : (bytes.drop (p + 1)).length ≤ fuel := by
              rw [List.length_drop]
              omega
            obtain ⟨reads, hloop⟩ := ih hlen (s := { s with fed := s.fed ++ bytes.take (p + 1), reader := st₂ }) hq hrest
              (replies ++ reply.toList)
            refine ⟨reads, ?_⟩
            simp only [hfeed, hreply]
            rw [hloop]
            simp [List.append_assoc]

/-- Whatever the reader says, no more than the complete lines are fed. -/
theorem readLoop_fed (fuel : Nat) (s : RedisSession rd) (bytes : Bytes) (replies : List ρ) :
    ∃ x, (readLoop fuel s bytes replies).1.fed = s.fed ++ x ∧ x <+: (lines bytes).1.flatten := by
  induction fuel generalizing s bytes replies with
  | zero => exact ⟨[], (List.append_nil _).symm, List.nil_prefix⟩
  | succ fuel ih =>
      rw [readLoop]
      split
      · exact ⟨[], (List.append_nil _).symm, List.nil_prefix⟩
      split
      · refine ⟨[], ?_, List.nil_prefix⟩
        rw [List.append_nil, start]
        split <;> rfl
      · rename_i p hm
        rw [lines_of_memchr_some hm, List.flatten_cons]
        split
        · exact ⟨[], (List.append_nil _).symm, List.nil_prefix⟩
        · dsimp only
          split
          · exact ⟨bytes.take (p + 1), rfl, List.prefix_append _ _⟩
          · rename_i reply st _
            obtain ⟨x, hx, hpre⟩ := ih { s with fed := s.fed ++ bytes.take (p + 1), reader := st }
              (bytes.drop (p + 1)) (replies ++ reply.toList)
            refine ⟨bytes.take (p + 1) ++ x, ?_, (List.prefix_append_right_inj _).mpr hpre⟩
            rw [hx, List.append_assoc]

/-- A session that still reads. -/
def Reading (s : RedisSession rd) : Prop := s.quit = false ∧ 1 ≤ s.reads

/-- A read that the reader accepts. -/
theorem receive_lines (hs : s.Reading) {bytes : Bytes} (hne : bytes ≠ []) {st : rd.State} {rs : List ρ}
    (h : rd.feedAll s.reader (lines bytes).1 = some (st, rs)) :
    (s.receive bytes).Reading ∧ (s.receive bytes).reader = st ∧
      (s.receive bytes).fed = s.fed ++ (lines bytes).1.flatten ∧ (s.receive bytes).handled = s.handled ++ rs := by
  obtain ⟨hq, hr⟩ := hs
  obtain ⟨reads, hloop⟩ := readLoop_lines (s := { s with reads := s.reads - 1 }) le_rfl hq h []
  rw [receive, if_neg (by omega)]
  dsimp only
  rw [if_neg hne, handleRead, hloop]
  simp [start, hq, Reading]

/-- Of every read at most the complete lines get through. -/
theorem receive_fed (s : RedisSession rd) (bytes : Bytes) :
    ∃ x, (s.receive bytes).fed = s.fed ++ x ∧ x <+: (lines bytes).1.flatten := by
  unfold receive
  split
  · exact ⟨[], (List.append_nil _).symm, List.nil_prefix⟩
  dsimp only
  split
  · exact ⟨[], (List.append_nil _).symm, List.nil_prefix⟩
  obtain ⟨x, hx, hpre⟩ := readLoop_fed bytes.length { s with reads := s.reads - 1 } bytes []
  refine ⟨x, ?_, hpre⟩
  unfold handleRead
  split
  · rename_i s₁ replies hloop
    rw [hloop] at hx
    rw [start]
    split <;> exact hx
  · rename_i s₁ replies hloop
    rw [hloop] at hx
    exact hx

/-- Reads that all end with a line are as good as one. -/
theorem receiveAll_lines (hs : s.Reading) {chunks : List Bytes} (hne : ∀ chunk ∈ chunks, chunk ≠ [])
    (hend : ∀ chunk ∈ chunks, (lines chunk).2 = []) {st : rd.State} {rs : List ρ}
    (h : rd.feedAll s.reader (lines chunks.flatten).1 = some (st, rs)) :
    (s.receiveAll chunks).fed = s.fed ++ chunks.flatten ∧ (s.receiveAll chunks).handled = s.handled ++ rs := by
  induction chunks generalizing s st rs with
  | nil =>
      obtain ⟨-, rfl⟩ := Prod.mk.inj (Option.some.inj h)
      exact ⟨(List.append_nil _).symm, (List.append_nil _).symm⟩
  | cons chunk chunks ih =>
      have hrest := hend chunk List.mem_cons_self
      have hflat := lines_flatten chunk
      rw [hrest, List.append_nil] at hflat
      rw [List.flatten_cons, lines_append hrest] at h
      obtain ⟨st₁, rs₁, rs₂, h₁, h₂, hrs⟩ := RedisReader.feedAll_append h
      obtain ⟨hs₁, hst₁, hfed, hhand⟩ := receive_lines hs (hne chunk List.mem_cons_self) h₁
      rw [← hst₁] at h₂
      obtain ⟨hfed', hhand'⟩ := ih hs₁ (fun c hc => hne c (List.mem_cons_of_mem _ hc))
        (fun c hc => hend c (List.mem_cons_of_mem _ hc)) h₂
      have hrs' : rs = rs₁ ++ rs₂ := hrs
      refine ⟨?_, ?_⟩
      · rw [receiveAll, hfed', hfed, hflat, List.flatten_cons, List.append_assoc]
      · rw [receiveAll, hhand', hhand, hrs', List.append_assoc]

/-- Where no byte is lost, every read ended with a line. -/
theorem receiveAll_fed (s : RedisSession rd) (chunks : List Bytes) :
    (s.receiveAll chunks).fed.length ≤ s.fed.length + chunks.flatten.length ∧
      ((s.receiveAll chunks).fed.length = s.fed.length + chunks.flatten.length →
        ∀ chunk ∈ chunks, (lines chunk).2 = []) := by
  induction chunks generalizing s with
  | nil => exact ⟨le_rfl, fun _ _ h => by cases h⟩
  | cons chunk chunks ih =>
      obtain ⟨x, hx, hpre⟩ := s.receive_fed chunk
      obtain ⟨hle, hall⟩ := ih (s.receive chunk)
      have hlen := hpre.length_le
      have hflat := congrArg List.length (lines_flatten chunk)
      rw [List.length_append] at hflat
      rw [hx, List.length_append] at hle hall
      rw [receiveAll, List.flatten_cons, List.length_append]
      refine ⟨by omega, ?_⟩
      intro heq c hc
      rcases List.mem_cons.mp hc with rfl | hc
      · exact List.eq_nil_of_length_eq_zero (by omega)
      · exact hall (by omega) c hc

theorem opened_reading : (opened rd).Reading := ⟨rfl, le_rfl⟩

/-- A stream that arrives in pieces gives the same replies as in one piece, and is fed completely,
exactly if every piece ends with a newline. -/
theorem chunking_iff {chunks : List Bytes} (hne : ∀ chunk ∈ chunks, chunk ≠ []) (hok : rd.Accepts chunks.flatten) :
    (((opened rd).receiveAll chunks).handled = ((opened rd).receiveAll [chunks.flatten]).handled ∧
      ((opened rd).receiveAll chunks).fed = chunks.flatten) ↔
    ∀ chunk ∈ chunks, chunk.getLast? = some newline := by
  obtain ⟨⟨st, rs⟩, hfeed⟩ := Option.isSome_iff_exists.mp hok
  constructor
  · rintro ⟨-, hfed⟩ chunk hc
    have hall := ((opened rd).receiveAll_fed chunks).2
    rw [hfed] at hall
    exact (lines_rest_iff (hne chunk hc)).mp (hall (Nat.zero_add _).symm chunk hc)
  · intro hend
    have hrest : ∀ chunk ∈ chunks, (lines chunk).2 = [] :=
      fun chunk hc => (lines_rest_iff (hne chunk hc)).mpr (hend chunk hc)
    obtain ⟨hfed, hhand⟩ := receiveAll_lines opened_reading hne hrest hfeed
    refine ⟨?_, hfed⟩
    rw [hhand]
    by_cases h0 : chunks.flatten = []
    · -- nothing was sent at all
      rw [h0] at hfeed ⊢
      obtain ⟨-, rfl⟩ := Prod.mk.inj (Option.some.inj hfeed)
      rfl
    · exact (receive_lines opened_reading h0 hfeed).2.2.2.symm

end RedisSession

section Requests

/-- What a reader finds in its buffer. -/
inductive Parsed (α : Type) where
  | incomplete
  | invalid
  | complete (a : α) (rest : Bytes)

/-- What stands before the first CR LF, and what follows it. -/
def readLine : Bytes → Option (Bytes × Bytes)
  | [] => none
  | b :: bs =>
      if b = 13 ∧ bs.head? = some newline then some ([], bs.tail)
      else (readLine bs).map fun (l, rest) => (b :: l, rest)

def readDecimal (l : Bytes) : Option Nat :=
  if l = [] then none
  else l.foldlM (fun n b => if 48 ≤ b ∧ b ≤ 57 then some (n * 10 + (b.toNat - 48)) else none) 0

/-- A type byte and a number in front of what `read` reads. -/
def readCounted {α : Type} (type : UInt8) (read : Nat → Bytes → Parsed α) : Bytes → Parsed α
  | [] => .incomplete
  | b :: bs =>
      if b ≠ type then .invalid
      else
        match readLine bs with
        | none => .incomplete
        | some (l, rest) =>
            match readDecimal l with
            | none => .invalid
            | some n => read n rest

/-- `$`, the length, the bytes and CR LF. -/
def readBulk : Bytes → Parsed Bytes :=
  readCounted 36 fun n rest =>
    if rest.length < n + 2 then .incomplete else .complete (rest.take n) (rest.drop (n + 2))

def readBulks : Nat → Bytes → Parsed (List Bytes)
  | 0, bs => .complete [] bs
  | n + 1, bs =>
      match readBulk bs with
      | .incomplete => .incomplete
      | .invalid => .invalid
      | .complete a rest =>
          match readBulks n rest with
          | .incomplete => .incomplete
          | .invalid => .invalid
          | .complete as rest => .complete (a :: as) rest

/-- What the reader of hiredis does with what clients send, arrays of strings. -/
def requestReader : RedisReader (List Bytes) where
  State := Bytes
  init := []
  feed buf bs := some (buf ++ bs)
  getReply buf :=
    match readCounted 42 readBulks buf with
    | .incomplete => some (none, buf)
    | .invalid => none
    | .complete req rest => some (some req, rest)

/-- `PING` as clients send it. -/
def ping : Bytes := [42, 49, 13, 10, 36, 52, 13, 10, 80, 73, 78, 71, 13, 10]

/-- Two requests in two reads, cut behind the first line of the second one. -/
theorem chunking_at_line_end :
    ((RedisSession.opened requestReader).receiveAll [ping ++ ping.take 4, ping.drop 4]).handled =
        [[[80, 73, 78, 71]], [[80, 73, 78, 71]]] ∧
      ((RedisSession.opened requestReader).receiveAll [ping ++ ping.take 4, ping.drop 4]).fed = ping ++ ping := by
  have hok : requestReader.Accepts [ping ++ ping.take 4, ping.drop 4].flatten := by decide
  have h := (RedisSession.chunking_iff (by decide) hok).mpr (by decide)
  refine ⟨?_, h.2⟩
  rw [h.1]
  decide

/-- A read that ends between CR and LF: its bytes are lost, and the rest is no request. -/
theorem chunk_within_line_lost :
    requestReader.Accepts ping ∧ [ping.take 3, ping.drop 3].flatten = ping ∧
      ((RedisSession.opened requestReader).receiveAll [ping]).handled = [[[80, 73, 78, 71]]] ∧
      ((RedisSession.opened requestReader).receiveAll [ping.take 3, ping.drop 3]).handled = [] ∧
      ((RedisSession.opened requestReader).receiveAll [ping.take 3, ping.drop 3]).fed ≠ ping := by
  decide

end Requests

end RaftEtcd
