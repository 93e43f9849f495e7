import RaftEtcd.Lib.Pointer
import RaftEtcd.StringMatch

/-! What `string_match_len` of `server/redis_store.cpp` reads. Here a text is the pointer and the length that the
code steps along, every read is checked against the buffer, and every loop has fuel. -/
namespace RaftEtcd

/-! ### The code -/

abbrev Text := Pointer UInt8

/-- `while (pattern[k] == '*')`. -/
def passStars (k : Nat) : Nat → Text → Except Fault Text
  | 0, _ => .error .endless
  | fuel + 1, pattern => do
      if (← pattern.get k) = '*'.toUInt8 then passStars k fuel (← pattern.next)
      else return pattern

/-- The loop over a class. -/
def classLoop (nocase : Bool) (string : Text) : Nat → Text → Bool → Except Fault (Text × Bool)
  | 0, _, _ => .error .endless
  | fuel + 1, pattern, found => do
      let x ← pattern.get 0
      if x = '\\'.toUInt8 ∧ pattern.left ≥ 2 then
        let pattern ← pattern.next
        let y ← pattern.get 0
        let c ← string.get 0
        classLoop nocase string fuel (← pattern.next) (found || y == c)
      else if x = ']'.toUInt8 then return (pattern, found)
      else if pattern.left = 0 then return (← pattern.back, found)
      else if (← pattern.get 1) = '-'.toUInt8 ∧ pattern.left ≥ 3 then
        let y ← pattern.get 2
        let c ← string.get 0
        let pattern ← pattern.next
        let pattern ← pattern.next
        classLoop nocase string fuel (← pattern.next) (found || inRange nocase x y c)
      else
        let c ← string.get 0
        classLoop nocase string fuel (← pattern.next) (found || sameChar nocase x c)

/-- The cases of the switch that take one character: both texts behind it, or nothing where the code returns 0. -/
def takeOne (nocase : Bool) (fuel : Nat) (pattern string : Text) : Except Fault (Option (Text × Text)) := do
  let x ← pattern.get 0
  if x = '?'.toUInt8 then
    if string.left = 0 then return none
    else return some (pattern, ← string.next)
  else if x = '['.toUInt8 then
    let pattern ← pattern.next
    let notMatch := (← pattern.get 0) == '^'.toUInt8
    let pattern ← if notMatch then pattern.next else pure pattern
    let (pattern, found) ← classLoop nocase string fuel pattern false
    if found != notMatch then return some (pattern, ← string.next)
    else return none
  else
    let pattern ← if x = '\\'.toUInt8 ∧ pattern.left ≥ 2 then pattern.next else pure pattern
    let y ← pattern.get 0
    let c ← string.get 0
    if sameChar nocase y c then return some (pattern, ← string.next)
    else return none

/-- `while (stringLen)` behind a star. -/
def tryEach (f : Text → Except Fault Bool) : Nat → Text → Except Fault Bool
  | 0, _ => .error .endless
  | fuel + 1, string => do
      if string.left = 0 then return false
      else if ← f string then return true
      else tryEach f fuel (← string.next)

/-- The loop of `string_match_len`, with its calls of itself. -/
def matchLoop (nocase : Bool) : Nat → Text → Text → Except Fault Bool
  | 0, _, _ => .error .endless
  | fuel + 1, pattern, string => do
      if pattern.left = 0 ∨ string.left = 0 then return decide (pattern.left = 0 ∧ string.left = 0)
      else if (← pattern.get 0) = '*'.toUInt8 then
        let pattern ← passStars 1 fuel pattern
        if pattern.left = 1 then return true
        else
          let pattern ← pattern.next
          tryEach (fun string => matchLoop nocase fuel pattern string) fuel string
      else
        match ← takeOne nocase fuel pattern string with
        | none => return false
        | some (pattern, string) =>
            let pattern ← pattern.next
            if string.left = 0 then
              let pattern ← passStars 0 fuel pattern
              return decide (pattern.left = 0 ∧ string.left = 0)
            else matchLoop nocase fuel pattern string

/-! ### Within the texts -/

/-- A pattern has a terminator, and a string has nothing behind it. -/
abbrev PatternAt (pattern : Text) (p : Bytes) : Prop := pattern.Before p [0]

abbrev StringAt (string : Text) (s : Bytes) : Prop := string.Before s []

section Within
variable {nocase : Bool} {pattern string : Text} {x c : UInt8} {p s : Bytes} {fuel : Nat}

/-- Stars behind the first `k` characters are passed. -/
theorem passStars_spec (front : Bytes) (hp : PatternAt pattern (front ++ p)) (hfuel : p.length < fuel) :
    ∃ q front', passStars front.length fuel pattern = .ok q ∧ front'.length = front.length ∧
      PatternAt q (front' ++ skipStars p) := by
  induction fuel generalizing pattern front p with
  | zero => omega
  | succ fuel ih =>
      cases p with
      | nil =>
          refine ⟨pattern, front, ?_, rfl, hp⟩
          rw [passStars, hp.get (k := front.length) (a := 0) (by simp)]
          rfl
      | cons x p =>
          rw [passStars, hp.get (k := front.length) (a := x) (by simp)]
          by_cases hx : x = '*'.toUInt8
          · obtain ⟨a, front', hfront⟩ : ∃ a front', front ++ [x] = a :: front' :=
              List.exists_cons_of_ne_nil (by simp)
            have hlength : front'.length = front.length := by simpa using (congrArg List.length hfront).symm
            rw [List.append_cons, hfront] at hp
            obtain ⟨q, hnext, hq, -⟩ := hp.next
            obtain ⟨r, front'', hrun, hlength', hr⟩ := ih front' hq (by simpa using hfuel)
            refine ⟨r, front'', ?_, hlength'.trans hlength, ?_⟩
            · simp only [Pointer.ok_bind, if_pos hx, hnext]
              rwa [hlength] at hrun
            · rwa [skipStars, List.dropWhile_cons_of_pos (by simpa using hx)]
          · refine ⟨pattern, front, ?_, rfl, ?_⟩
            · simp only [Pointer.ok_bind, if_neg hx]
              rfl
            · rwa [skipStars, List.dropWhile_cons_of_neg (by simpa using hx)]

/-- The loop ends on the bracket that closes the class, or steps back onto the last character, so that the step
behind the switch leads to what follows the class. -/
theorem classLoop_spec (nocase : Bool) (hc : string.get 0 = .ok c) (hp : PatternAt pattern p) (hback : ∃ q, pattern.back = .ok q)
    (hfuel : p.length < fuel) (found : Bool) :
    ∃ q q', classLoop nocase string fuel pattern found = .ok (q, (scanClass nocase c p found).1) ∧
      q.next = .ok q' ∧ PatternAt q' (scanClass nocase c p found).2 := by
  induction fuel generalizing pattern p found with
  | zero => omega
  | succ fuel ih =>
      cases p with
      | nil =>
          obtain ⟨q, hq⟩ := hback
          refine ⟨q, pattern, ?_, Pointer.back_next hq, by simpa [scanClass]⟩
          have hzero : pattern.left = 0 := hp.left
          rw [classLoop, hp.get (k := 0) (a := 0) rfl]
          simp only [Pointer.ok_bind, hzero, hq]
          rfl
      | cons x p =>
          have hleft : pattern.left = p.length + 1 := hp.left
          obtain ⟨q, hnext, hq, hqback⟩ := hp.next
          rw [List.length_cons] at hfuel
          rw [classLoop, hp.get_head, Pointer.ok_bind]
          by_cases hclose : x = ']'.toUInt8
          · rw [hclose, scanClass_close, if_neg fun h => absurd h.1 (by decide), if_pos rfl]
            exact ⟨pattern, q, rfl, hnext, hq⟩
          by_cases hescape : x = '\\'.toUInt8 ∧ p ≠ []
          · obtain ⟨rfl, hne⟩ := hescape
            obtain ⟨y, p, rfl⟩ := List.exists_cons_of_ne_nil hne
            obtain ⟨r, hnext', hr, hrback⟩ := hq.next
            rw [List.length_cons] at hleft hfuel
            rw [scanClass_escape, if_pos ⟨rfl, by omega⟩]
            simp only [Pointer.ok_bind, hc, hnext, hq.get_head, hnext']
            exact ih hr ⟨_, hrback⟩ (by omega) _
          have hlone : x = '\\'.toUInt8 → p = [] := fun hx => by_contra fun hne => hescape ⟨hx, hne⟩
          have hnone : ¬ (x = '\\'.toUInt8 ∧ pattern.left ≥ 2) := by
            rintro ⟨hx, htwo⟩
            rw [hleft, hlone hx, List.length_nil] at htwo
            omega
          rw [if_neg hnone, if_neg hclose, if_neg (by omega)]
          by_cases hrange : ∃ z p', p = '-'.toUInt8 :: z :: p'
          · obtain ⟨z, p, rfl⟩ := hrange
            obtain ⟨r, hnext', hr, -⟩ := hq.next
            obtain ⟨t, hnext'', ht, htback⟩ := hr.next
            rw [List.length_cons, List.length_cons] at hleft hfuel
            rw [scanClass_range (fun hx => List.cons_ne_nil _ _ (hlone hx)) hclose,
              hp.get (k := 1) (a := '-'.toUInt8) rfl, Pointer.ok_bind, if_pos ⟨rfl, by omega⟩,
              hp.get (k := 2) (a := z) rfl]
            simp only [Pointer.ok_bind, hc, hnext, hnext', hnext'']
            exact ih ht ⟨_, htback⟩ (by omega) _
          · -- the next character is the terminator, or no range starts on it
            obtain ⟨y, hy, hnot⟩ : ∃ y, pattern.get 1 = .ok y ∧ ¬ (y = '-'.toUInt8 ∧ pattern.left ≥ 3) := by
              cases p with
              | nil =>
                  refine ⟨0, hp.get (k := 1) (a := 0) rfl, ?_⟩
                  rw [hleft, List.length_nil]
                  omega
              | cons y p =>
                  refine ⟨y, hp.get (k := 1) (a := y) rfl, ?_⟩
                  rintro ⟨rfl, hthree⟩
                  rw [hleft, List.length_cons] at hthree
                  obtain ⟨z, p, rfl⟩ := List.exists_cons_of_length_pos (l := p) (by omega)
                  exact hrange ⟨z, p, rfl⟩
            rw [scanClass_plain hlone hclose fun z q h => hrange ⟨z, q, h⟩, hy, Pointer.ok_bind, if_neg hnot]
            simp only [Pointer.ok_bind, hc, hnext]
            exact ih hq ⟨_, hqback⟩ (by omega) _

/-- What is taken is what `matchOne` takes, and the step behind the switch leads to what is left. -/
def Takes (run : Except Fault (Option (Text × Text))) (s : Bytes) : Option Bytes → Prop
  | none => run = .ok none
  | some rest => ∃ q q' t, run = .ok (some (q, t)) ∧ q.next = .ok q' ∧ PatternAt q' rest ∧ StringAt t s

theorem takeOne_spec (nocase : Bool) (hp : PatternAt pattern (x :: p)) (hs : StringAt string (c :: s)) (hfuel : p.length < fuel) :
    Takes (takeOne nocase fuel pattern string) s (matchOne nocase x p c) := by
  obtain ⟨q, hnext, hq, hqback⟩ := hp.next
  obtain ⟨t, hstep, ht, -⟩ := hs.next
  -- what all cases but the first end with
  have hend : ∀ {q r : Text} {p : Bytes} (b : Bool), q.next = .ok r → PatternAt r p →
      Takes (if b = true then do return some (q, ← string.next) else return none) s (if b then some p else none) := by
    intro q r p b hr hat
    cases b with
    | false => rfl
    | true =>
        refine ⟨q, r, t, ?_, hr, hat, ht⟩
        rw [if_pos rfl, hstep]
        rfl
  have hleft : string.left = s.length + 1 := hs.left
  -- a class, from the first character behind the bracket and the sign
  have hscan : ∀ {q : Text} {p' : Bytes} (notMatch : Bool), PatternAt q p' → (∃ r, q.back = .ok r) → p'.length < fuel →
      Takes (do
        let (pattern, found) ← classLoop nocase string fuel q false
        if found != notMatch then return some (pattern, ← string.next) else return none) s
        (if (scanClass nocase c p' false).1 != notMatch then some (scanClass nocase c p' false).2 else none) := by
    intro q p' notMatch hat hback hlt
    obtain ⟨r, r', hrun, hr, hat'⟩ := classLoop_spec nocase hs.get_head hat hback hlt false
    rw [hrun]
    exact hend _ hr hat'
  rw [takeOne, hp.get_head, Pointer.ok_bind]
  unfold matchOne
  by_cases hany : x = '?'.toUInt8
  · rw [if_pos hany, if_pos hany, if_neg (by omega), hstep]
    exact ⟨pattern, q, t, rfl, hnext, hq, ht⟩
  rw [if_neg hany, if_neg hany]
  by_cases hclass : x = '['.toUInt8
  · rw [if_pos hclass, if_pos hclass, hnext, Pointer.ok_bind]
    cases p with
    | nil =>
        rw [hq.get (k := 0) (a := 0) rfl]
        exact hscan false hq ⟨_, hqback⟩ hfuel
    | cons y p =>
        rw [hq.get_head]
        by_cases hneg : y = '^'.toUInt8
        · obtain ⟨r, hnext', hr, hrback⟩ := hq.next
          simp only [Pointer.ok_bind, hneg, beq_self_eq_true, if_true, hnext']
          exact hscan true hr ⟨_, hrback⟩ (Nat.lt_of_succ_lt hfuel)
        · have hsign : ((y :: p).head? == some '^'.toUInt8) = false := by simpa using hneg
          simp only [Pointer.ok_bind, beq_eq_false_iff_ne.mpr hneg, Bool.false_eq_true, if_false, hsign]
          exact hscan false hq ⟨_, hqback⟩ hfuel
  rw [if_neg hclass, if_neg hclass]
  by_cases hescape : x = '\\'.toUInt8
  · rw [if_pos hescape]
    cases p with
    | nil =>
        have hone : pattern.left = 1 := hp.left
        rw [if_neg (by omega)]
        simp only [pure_bind, Pointer.ok_bind, hp.get_head, hs.get_head]
        exact hend _ hnext hq
    | cons y p =>
        have hmore : pattern.left = p.length + 2 := hp.left
        obtain ⟨r, hnext', hr, -⟩ := hq.next
        rw [if_pos ⟨hescape, by omega⟩]
        simp only [hnext, Pointer.ok_bind, hq.get_head, hs.get_head]
        exact hend _ hnext' hr
  · rw [if_neg hescape, if_neg fun h => hescape h.1]
    simp only [pure_bind, Pointer.ok_bind, hp.get_head, hs.get_head]
    exact hend _ hnext hq

theorem tryEach_spec {f : Text → Except Fault Bool} {g : Bytes → Bool} (hs : StringAt string s)
    (hf : ∀ {t : Text} {s' : Bytes}, StringAt t s' → s'.length ≤ s.length → f t = .ok (g s'))
    (hfuel : s.length < fuel) : tryEach f fuel string = .ok (starLoop g s) := by
  induction fuel generalizing string s with
  | zero => omega
  | succ fuel ih =>
      cases s with
      | nil =>
          have hzero : string.left = 0 := hs.left
          rw [tryEach, if_pos hzero]
          rfl
      | cons c s =>
          have hleft : string.left = s.length + 1 := hs.left
          obtain ⟨t, hstep, ht, -⟩ := hs.next
          rw [tryEach, if_neg (by omega), hf hs le_rfl, Pointer.ok_bind, starLoop]
          cases g (c :: s) with
          | true => rfl
          | false =>
              rw [if_neg (by decide), hstep, Pointer.ok_bind, Bool.false_or]
              exact ih ht (fun hat hle => hf hat (Nat.le_succ_of_le hle)) (by simpa using hfuel)

/-- With enough fuel the run is without a fault, and the result is that of the texts. -/
theorem matchLoop_spec (hp : PatternAt pattern p) (hs : StringAt string s) (hfuel : p.length + s.length + 2 ≤ fuel) :
    matchLoop nocase fuel pattern string = .ok (stringMatchLen nocase p s) := by
  induction fuel generalizing pattern string p s with
  | zero => omega
  | succ fuel ih =>
      match p, s with
      | [], s =>
          have hpleft : pattern.left = 0 := hp.left
          have hsleft : string.left = s.length := hs.left
          rw [matchLoop, if_pos (Or.inl hpleft)]
          simp only [hpleft, hsleft, stringMatchLen, true_and, List.length_eq_zero_iff]
          rfl
      | x :: p, [] =>
          have hpleft : pattern.left = p.length + 1 := hp.left
          have hsleft : string.left = 0 := hs.left
          rw [matchLoop, if_pos (Or.inr hsleft)]
          simp only [hpleft, stringMatchLen, reduceCtorEq, false_and, Nat.succ_ne_zero]
          rfl
      | x :: p, c :: s =>
          have hpleft : pattern.left = p.length + 1 := hp.left
          have hsleft : string.left = s.length + 1 := hs.left
          simp only [List.length_cons] at hfuel
          have hbelow : ∀ {q t : Text} {p' s' : Bytes}, PatternAt q p' → StringAt t s' → p'.length ≤ p.length →
              s'.length ≤ s.length + 1 → matchLoop nocase fuel q t = .ok (stringMatchLen nocase p' s') :=
            fun hq ht hp' hs' => ih hq ht (by omega)
          rw [matchLoop, if_neg (by omega), hp.get_head, Pointer.ok_bind, stringMatchLen]
          have hpfuel : p.length < fuel := by omega
          by_cases hstar : x = '*'.toUInt8
          · obtain ⟨q, front, hpass, hfront, hq⟩ := passStars_spec [x] hp hpfuel
            obtain ⟨y, rfl⟩ := List.length_eq_one_iff.mp hfront
            obtain ⟨r, hnext, hr, -⟩ := hq.next
            have hqleft : q.left = (skipStars p).length + 1 := hq.left
            have hskip : (skipStars p).length ≤ p.length := skipStars_length
            rw [List.length_singleton] at hpass
            rw [if_pos hstar, if_pos hstar, hpass, Pointer.ok_bind]
            by_cases hlast : skipStars p = []
            · rw [if_pos hlast, if_pos (by simp [hqleft, hlast])]
              rfl
            · have hmore := List.length_pos_of_ne_nil hlast
              rw [if_neg hlast, if_neg (by omega), hnext, Pointer.ok_bind]
              exact tryEach_spec hs (fun ht hle => hbelow hr ht hskip hle) (by simp only [List.length_cons]; omega)
          · rw [if_neg hstar, if_neg hstar]
            have htake := takeOne_spec nocase hp hs hpfuel
            cases hone : matchOne nocase x p c with
            | none =>
                rw [hone] at htake
                rw [show takeOne nocase fuel pattern string = .ok none from htake]
                rfl
            | some rest =>
                rw [hone] at htake
                obtain ⟨q, r, t, hrun, hnext, hr, ht⟩ := htake
                have hle := matchOne_length hone
                rw [hrun]
                simp only [Pointer.ok_bind, hnext]
                by_cases hend : s = []
                · obtain ⟨u, front, hpass, hfront, hu⟩ := passStars_spec [] hr (Nat.lt_of_le_of_lt hle hpfuel)
                  obtain rfl := List.length_eq_zero_iff.mp hfront
                  have htleft : t.left = 0 := ht.left.trans (by rw [hend, List.length_nil])
                  have huleft : u.left = (skipStars rest).length := hu.left
                  rw [List.length_nil] at hpass
                  rw [if_pos hend, if_pos htleft, hpass, Pointer.ok_bind]
                  simp only [htleft, huleft, List.length_eq_zero_iff, and_true]
                  rfl
                · rw [if_neg hend, if_neg (by rw [ht.left]; simpa using hend)]
                  exact hbelow hr ht hle (by omega)

/-- With enough fuel, the code reads no place outside the texts, no length falls below zero, and every loop ends. -/
theorem string_match_len_inside (nocase : Bool) (pattern string : Bytes) {fuel : Nat}
    (hfuel : pattern.length + string.length + 2 ≤ fuel) :
    matchLoop nocase fuel ⟨pattern ++ [0], 0, pattern.length⟩ ⟨string, 0, string.length⟩ =
      .ok (stringMatchLen nocase pattern string) := by
  have hs := Pointer.before_start string []
  rw [List.append_nil] at hs
  exact matchLoop_spec (Pointer.before_start pattern [0]) hs hfuel

/-- A class that is not closed, behind a star, against `ab`. -/
theorem string_match_len_inside_unclosed :
    matchLoop false 7 ⟨['*'.toUInt8, '['.toUInt8, 'a'.toUInt8] ++ [0], 0, 3⟩ ⟨['a'.toUInt8, 'b'.toUInt8], 0, 2⟩ =
      .ok (stringMatchLen false ['*'.toUInt8, '['.toUInt8, 'a'.toUInt8] ['a'.toUInt8, 'b'.toUInt8]) :=
  string_match_len_inside false ['*'.toUInt8, '['.toUInt8, 'a'.toUInt8] ['a'.toUInt8, 'b'.toUInt8] (by decide)

end Within

end RaftEtcd
