import RaftEtcd.Lib.Glob
import RaftEtcd.RedisStore
import Mathlib.Data.List.TakeWhile

/-! `string_match_len` of `server/redis_store.cpp`, which `KEYS` asks about every key. A text is a pointer and
an `int`, here the bytes that are left of it; behind them stands the terminator, so that what is read one
place too far is no character of a pattern. -/
namespace RaftEtcd

open Glob (Item Single Elem Matches)

/-! ### The code -/

/-- A `char` has a sign. -/
def charInt (c : UInt8) : Int := if c < 128 then c.toNat else c.toNat - 256

def toLower (c : Int) : Int := if 65 ≤ c ∧ c ≤ 90 then c + 32 else c

def sameChar (nocase : Bool) (x c : UInt8) : Bool :=
  if nocase then toLower (charInt x) = toLower (charInt c) else x = c

/-- The bounds of a range change places before they lose their case. -/
def inRange (nocase : Bool) (x y c : UInt8) : Bool :=
  let start := if charInt x > charInt y then charInt y else charInt x
  let stop := if charInt x > charInt y then charInt x else charInt y
  if nocase then toLower start ≤ toLower (charInt c) ∧ toLower (charInt c) ≤ toLower stop
  else start ≤ charInt c ∧ charInt c ≤ stop

/-- The loop over a class, and what follows the class. At the end of the pattern it steps back, and the step
on that every case makes comes to the end again. -/
def scanClass (nocase : Bool) (c : UInt8) : Bytes → Bool → Bool × Bytes
  | [], found => (found, [])
  | [x], found =>
      if x = ']'.toUInt8 then (found, []) else scanClass nocase c [] (found || sameChar nocase x c)
  | [x, y], found =>
      if x = '\\'.toUInt8 then scanClass nocase c [] (found || y == c)
      else if x = ']'.toUInt8 then (found, [y])
      else scanClass nocase c [y] (found || sameChar nocase x c)
  | x :: y :: z :: p, found =>
      if x = '\\'.toUInt8 then scanClass nocase c (z :: p) (found || y == c)
      else if x = ']'.toUInt8 then (found, y :: z :: p)
      else if y = '-'.toUInt8 then scanClass nocase c p (found || inRange nocase x z c)
      else scanClass nocase c (y :: z :: p) (found || sameChar nocase x c)

/-- The cases of the switch that take one character, and what is left of the pattern. -/
def matchOne (nocase : Bool) (x : UInt8) (p : Bytes) (c : UInt8) : Option Bytes :=
  if x = '?'.toUInt8 then some p
  else if x = '['.toUInt8 then
    let notMatch := p.head? == some '^'.toUInt8
    let (found, rest) := scanClass nocase c (if notMatch then p.tail else p) false
    if found != notMatch then some rest else none
  else if x = '\\'.toUInt8 then
    match p with
    | y :: p => if sameChar nocase y c then some p else none
    | [] => if sameChar nocase x c then some [] else none
  else if sameChar nocase x c then some p else none

def skipStars (p : Bytes) : Bytes := p.dropWhile (· == '*'.toUInt8)

/-- The loop behind a star: what is left of the pattern against all that is left of the string. -/
def starLoop (f : Bytes → Bool) : Bytes → Bool
  | [] => false
  | c :: s => f (c :: s) || starLoop f s

section Rounds
variable {nocase : Bool} {c x y z : UInt8} {p : Bytes}

theorem scanClass_close (found : Bool) : scanClass nocase c (']'.toUInt8 :: p) found = (found, p) := by
  match p with
  | [] | [_] | _ :: _ :: _ => rfl

theorem scanClass_escape (found : Bool) :
    scanClass nocase c ('\\'.toUInt8 :: y :: p) found = scanClass nocase c p (found || y == c) := by
  match p with
  | [] | _ :: _ => rfl

theorem scanClass_range (hescape : x ≠ '\\'.toUInt8) (hclose : x ≠ ']'.toUInt8) (found : Bool) :
    scanClass nocase c (x :: '-'.toUInt8 :: z :: p) found = scanClass nocase c p (found || inRange nocase x z c) := by
  rw [scanClass, if_neg hescape, if_neg hclose, if_pos rfl]

/-- A character that is neither of these stands for itself. -/
theorem scanClass_plain (hescape : x = '\\'.toUInt8 → p = []) (hclose : x ≠ ']'.toUInt8)
    (hrange : ∀ z q, p ≠ '-'.toUInt8 :: z :: q) (found : Bool) :
    scanClass nocase c (x :: p) found = scanClass nocase c p (found || sameChar nocase x c) := by
  match p with
  | [] => conv_lhs => rw [scanClass, if_neg hclose]
  | [y] => conv_lhs => rw [scanClass, if_neg fun h => List.cons_ne_nil _ _ (hescape h), if_neg hclose]
  | y :: z :: q =>
      rw [scanClass, if_neg fun h => List.cons_ne_nil _ _ (hescape h), if_neg hclose, if_neg]
      rintro rfl
      exact hrange z q rfl

end Rounds

section Lengths
variable {nocase : Bool} {c x : UInt8} {p rest : Bytes}

theorem scanClass_length (found : Bool) : (scanClass nocase c p found).2.length ≤ p.length := by
  fun_induction scanClass nocase c p found <;> simp_all <;> omega

theorem matchOne_length (h : matchOne nocase x p c = some rest) : rest.length ≤ p.length := by
  have hclass : ∀ {q : Bytes} {negated : Bool}, q.length ≤ p.length →
      (if (scanClass nocase c q false).1 != negated then some (scanClass nocase c q false).2 else none) = some rest →
        rest.length ≤ p.length := by
    intro q negated hq h
    split at h
    · rw [← Option.some.inj h]
      exact (scanClass_length _).trans hq
    · cases h
  have hsame : ∀ {b : Bool} {q : Bytes}, q.length ≤ p.length → (if b then some q else none) = some rest →
      rest.length ≤ p.length := by
    intro b q hq h
    split at h
    · rwa [← Option.some.inj h]
    · cases h
  unfold matchOne at h
  split at h
  · rw [← Option.some.inj h]
  split at h
  · refine hclass ?_ h
    split
    · simp
    · exact le_rfl
  split at h
  · split at h
    · exact hsame (by simp) h
    · exact hsame (by simp) h
  · exact hsame le_rfl h

theorem skipStars_length : (skipStars p).length ≤ p.length := (List.dropWhile_suffix _).length_le

end Lengths

/-- The loop runs while both texts have something left; when the string ends, stars that are left of the
pattern are skipped. -/
def stringMatchLen (nocase : Bool) : Bytes → Bytes → Bool
  | x :: p, c :: s =>
      if x = '*'.toUInt8 then
        if skipStars p = [] then true else starLoop (fun t => stringMatchLen nocase (skipStars p) t) (c :: s)
      else
        match _h : matchOne nocase x p c with
        | none => false
        | some rest => if s = [] then skipStars rest = [] else stringMatchLen nocase rest s
  | p, s => p = [] ∧ s = []
termination_by p => p.length
decreasing_by
  · exact Nat.lt_succ_of_le skipStars_length
  · exact Nat.lt_succ_of_le (matchOne_length _h)

/-! ### What a pattern means -/

/-- The items of a class and what follows it. A backslash takes the next character as it is; a class that is
not closed ends with the pattern. -/
def readClass : Bytes → List (Item UInt8) × Bytes
  | [] => ([], [])
  | [x] => if x = ']'.toUInt8 then ([], []) else ([.lit x], [])
  | [x, y] =>
      if x = '\\'.toUInt8 then ([.lit y], [])
      else if x = ']'.toUInt8 then ([], [y])
      else ((readClass [y]).1.cons (.lit x), (readClass [y]).2)
  | x :: y :: z :: p =>
      if x = '\\'.toUInt8 then ((readClass (z :: p)).1.cons (.lit y), (readClass (z :: p)).2)
      else if x = ']'.toUInt8 then ([], y :: z :: p)
      else if y = '-'.toUInt8 then ((readClass p).1.cons (.range x z), (readClass p).2)
      else ((readClass (y :: z :: p)).1.cons (.lit x), (readClass (y :: z :: p)).2)

/-- What matches one character, and what is left of the pattern behind it. -/
def readOne (x : UInt8) (p : Bytes) : Single UInt8 × Bytes :=
  if x = '?'.toUInt8 then (.any, p)
  else if x = '['.toUInt8 then
    if p.head? = some '^'.toUInt8 then (.listed true (readClass p.tail).1, (readClass p.tail).2)
    else (.listed false (readClass p).1, (readClass p).2)
  else if x = '\\'.toUInt8 then
    match p with
    | y :: p => (.lit y, p)
    | [] => (.lit x, [])
  else (.lit x, p)

theorem readClass_suffix (p : Bytes) : (readClass p).2 <:+ p := by
  fun_induction readClass p with
  | case1 | case2 | case3 | case4 | case5 | case8 => simp
  | case6 _ _ _ _ ih | case10 _ _ _ _ _ _ _ ih => exact ih.trans (List.suffix_cons _ _)
  | case7 _ _ _ ih => exact ih.trans ((List.suffix_cons _ _).trans (List.suffix_cons _ _))
  | case9 _ _ _ _ _ ih =>
      exact ih.trans ((List.suffix_cons _ _).trans ((List.suffix_cons _ _).trans (List.suffix_cons _ _)))

theorem readOne_suffix (x : UInt8) (p : Bytes) : (readOne x p).2 <:+ p := by
  unfold readOne
  split
  · exact List.suffix_rfl
  split
  · split
    · exact (readClass_suffix _).trans (List.tail_suffix p)
    · exact readClass_suffix p
  split
  · split
    · exact List.suffix_cons _ _
    · exact List.suffix_rfl
  · exact List.suffix_rfl

def readGlob : Bytes → List (Elem UInt8)
  | [] => []
  | x :: p =>
      if x = '*'.toUInt8 then .star :: readGlob p
      else .one (readOne x p).1 :: readGlob (readOne x p).2
termination_by p => p.length
decreasing_by
  · exact Nat.lt_succ_self _
  · exact Nat.lt_succ_of_le (readOne_suffix x p).length_le

section Reading
variable {x c : UInt8} {p s : Bytes}

theorem readGlob_star (p : Bytes) : readGlob ('*'.toUInt8 :: p) = .star :: readGlob p := by
  rw [readGlob, if_pos rfl]

theorem readGlob_one (hx : x ≠ '*'.toUInt8) : readGlob (x :: p) = .one (readOne x p).1 :: readGlob (readOne x p).2 := by
  rw [readGlob, if_neg hx]

/-- Only the star is read as one. -/
theorem readGlob_all_star : (∀ e ∈ readGlob p, e = .star) ↔ ∀ b ∈ p, b = '*'.toUInt8 := by
  induction p with
  | nil => simp [readGlob]
  | cons x p ih =>
      by_cases hx : x = '*'.toUInt8
      · rw [hx, readGlob_star]
        simp [ih]
      · rw [readGlob_one hx]
        simp [hx]

/-- Stars behind a star can be skipped. -/
theorem matches_skipStars : Matches (.star :: readGlob p) s ↔ Matches (.star :: readGlob (skipStars p)) s := by
  induction p with
  | nil => rfl
  | cons x p ih =>
      by_cases hx : x = '*'.toUInt8
      · rw [hx, readGlob_star, Glob.matches_star_star, ih, skipStars, skipStars, List.dropWhile_cons_of_pos (by simp)]
      · rw [skipStars, List.dropWhile_cons_of_neg (by simp [hx])]

theorem skipStars_eq_nil : skipStars p = [] ↔ ∀ b ∈ p, b = '*'.toUInt8 := by
  simp [skipStars, List.dropWhile_eq_nil_iff]

/-- What is left of a pattern behind its leading stars matches no empty text. -/
theorem skipStars_not_matches (h : skipStars p ≠ []) : ¬ Matches (readGlob (skipStars p)) [] := by
  rw [Glob.matches_nil_iff, readGlob_all_star]
  intro hall
  have hhead : ((skipStars p).head h == '*'.toUInt8) = false := List.head_dropWhile_not _ h
  rw [hall _ (List.head_mem h)] at hhead
  cases hhead

end Reading

/-! ### The code follows the meaning -/

/-- Every byte is a character of ASCII. -/
def Ascii (p : Bytes) : Prop := ∀ b ∈ p, b < 128

section Following
variable {x c : UInt8} {p s rest : Bytes}

theorem charInt_ascii (h : c < 128) : charInt c = c.toNat := if_pos h

theorem inRange_iff {y : UInt8} (hx : x < 128) (hy : y < 128) (hc : c < 128) :
    inRange false x y c = true ↔ (Item.range x y).Holds c := by
  simp only [inRange, Item.Holds, charInt_ascii hx, charInt_ascii hy, charInt_ascii hc, UInt8.le_iff_toNat_le,
    Bool.false_eq_true, if_false, decide_eq_true_eq]
  split <;> omega

theorem sameChar_iff : sameChar false x c = true ↔ x = c := by simp [sameChar]

/-- The scan finds the character if an item of the class holds for it, and ends where the class ends. -/
def Scans (c : UInt8) (p : Bytes) (found : Bool) : Prop :=
  ((scanClass false c p found).1 = true ↔ found = true ∨ ∃ i ∈ (readClass p).1, i.Holds c) ∧
    (scanClass false c p found).2 = (readClass p).2

/-- An item more, and the rest of the class. -/
theorem Scans.item {item : Item UInt8} {found b : Bool} (h : Scans c p (found || b)) (hb : b = true ↔ item.Holds c) :
    ((scanClass false c p (found || b)).1 = true ↔ found = true ∨ ∃ i ∈ item :: (readClass p).1, i.Holds c) ∧
      (scanClass false c p (found || b)).2 = (readClass p).2 := by
  obtain ⟨hfound, hend⟩ := h
  refine ⟨?_, hend⟩
  rw [hfound, Bool.or_eq_true, hb, List.exists_mem_cons_iff, or_assoc]

theorem Ascii.tail {b : UInt8} (h : Ascii (b :: p)) : Ascii p := fun b hb => h b (List.mem_cons_of_mem _ hb)

theorem scanClass_scans (hc : c < 128) : ∀ (p : Bytes) (found : Bool), Ascii p → Scans c p found
  | [], found, _ => by simp [Scans, scanClass, readClass]
  | [x], found, hp => by
      by_cases hclose : x = ']'.toUInt8
      · simp [Scans, scanClass, readClass, hclose]
      · rw [Scans, scanClass, if_neg hclose, readClass, if_neg hclose]
        exact (scanClass_scans hc [] _ hp.tail).item sameChar_iff
  | [x, y], found, hp => by
      by_cases hx : x = '\\'.toUInt8
      · rw [Scans, scanClass, if_pos hx, readClass, if_pos hx]
        exact (scanClass_scans hc [] _ hp.tail.tail).item beq_iff_eq
      by_cases hclose : x = ']'.toUInt8
      · rw [Scans, scanClass, if_neg hx, if_pos hclose, readClass, if_neg hx, if_pos hclose]
        simp
      · rw [Scans, scanClass, if_neg hx, if_neg hclose, readClass, if_neg hx, if_neg hclose]
        exact (scanClass_scans hc [y] _ hp.tail).item sameChar_iff
  | x :: y :: z :: p, found, hp => by
      by_cases hx : x = '\\'.toUInt8
      · rw [Scans, scanClass, if_pos hx, readClass, if_pos hx]
        exact (scanClass_scans hc (z :: p) _ hp.tail.tail).item beq_iff_eq
      by_cases hclose : x = ']'.toUInt8
      · rw [Scans, scanClass, if_neg hx, if_pos hclose, readClass, if_neg hx, if_pos hclose]
        simp
      by_cases hdash : y = '-'.toUInt8
      · rw [Scans, scanClass, if_neg hx, if_neg hclose, if_pos hdash, readClass, if_neg hx, if_neg hclose, if_pos hdash]
        have hrange := inRange_iff (hp x (by simp)) (hp z (by simp)) hc
        exact (scanClass_scans hc p _ hp.tail.tail.tail).item hrange
      · rw [Scans, scanClass, if_neg hx, if_neg hclose, if_neg hdash, readClass, if_neg hx, if_neg hclose, if_neg hdash]
        exact (scanClass_scans hc (y :: z :: p) _ hp.tail).item sameChar_iff

/-- One character is taken if it is one of those that the pattern means, and the rest is the same. -/
theorem matchOne_iff (hp : Ascii (x :: p)) (hc : c < 128) :
    matchOne false x p c = some rest ↔ (readOne x p).1.Takes c ∧ (readOne x p).2 = rest := by
  have hlit : ∀ {y : UInt8} {q : Bytes}, (if sameChar false y c then some q else none) = some rest ↔
      (Single.lit y).Takes c ∧ q = rest := by
    intro y q
    simp [Single.Takes, sameChar]
  unfold matchOne readOne
  by_cases hany : x = '?'.toUInt8
  · simp [hany, Single.Takes]
  rw [if_neg hany, if_neg hany]
  by_cases hclass : x = '['.toUInt8
  · rw [if_pos hclass, if_pos hclass]
    by_cases hneg : p.head? = some '^'.toUInt8
    · obtain ⟨hfound, hend⟩ := scanClass_scans hc p.tail false fun b hb => hp.tail b (List.mem_of_mem_tail hb)
      have hno : (scanClass false c p.tail false).1 = false ↔ ∀ i ∈ (readClass p.tail).1, ¬ i.Holds c := by
        rw [← Bool.not_eq_true, hfound]
        simp
      simp only [hneg, beq_self_eq_true, if_true, Single.Takes, ← hno, hend]
      simp
    · obtain ⟨hfound, hend⟩ := scanClass_scans hc p false hp.tail
      have hyes : (scanClass false c p false).1 = true ↔ ∃ i ∈ (readClass p).1, i.Holds c := by
        rw [hfound]
        simp
      simp only [beq_eq_false_iff_ne.mpr hneg, hneg, Bool.false_eq_true, if_false, Single.Takes, ← hyes, hend]
      simp
  rw [if_neg hclass, if_neg hclass]
  by_cases hescape : x = '\\'.toUInt8
  · rw [if_pos hescape, if_pos hescape]
    cases p with
    | nil => exact hlit
    | cons y q => exact hlit
  · rw [if_neg hescape, if_neg hescape]
    exact hlit

theorem starLoop_iff {f : Bytes → Bool} : starLoop f s = true ↔ ∃ t, t <:+ s ∧ t ≠ [] ∧ f t = true := by
  induction s with
  | nil => simp [starLoop]
  | cons c s ih =>
      rw [starLoop, Bool.or_eq_true, ih]
      constructor
      · rintro (h | ⟨t, ht, hne, h⟩)
        · exact ⟨c :: s, List.suffix_rfl, List.cons_ne_nil _ _, h⟩
        · exact ⟨t, ht.trans (List.suffix_cons c s), hne, h⟩
      · rintro ⟨t, ht, hne, h⟩
        rcases List.suffix_cons_iff.mp ht with rfl | ht
        · exact Or.inl h
        · exact Or.inr ⟨t, ht, hne, h⟩

/-- Against a text that is not empty, the code says what the pattern means. -/
theorem stringMatchLen_iff (hp : Ascii p) (hs : Ascii s) (hne : s ≠ []) :
    stringMatchLen false p s = true ↔ Matches (readGlob p) s := by
  induction hlen : p.length using Nat.strong_induction_on generalizing p s with
  | _ n ih =>
    cases p with
    | nil => simp [stringMatchLen, readGlob, hne]
    | cons x p =>
      obtain ⟨c, s, rfl⟩ := List.exists_cons_of_ne_nil hne
      rw [List.length_cons] at hlen
      by_cases hstar : x = '*'.toUInt8
      · have hskip : Ascii (skipStars p) := fun b hb => hp.tail b ((List.dropWhile_suffix _).subset hb)
        rw [stringMatchLen, if_pos hstar, hstar, readGlob_star, matches_skipStars]
        by_cases hlast : skipStars p = []
        · simp [hlast, readGlob, Glob.matches_star_last]
        · rw [if_neg hlast, starLoop_iff, Glob.matches_star]
          have hle : (skipStars p).length ≤ p.length := skipStars_length
          constructor
          · rintro ⟨t, ht, hne, h⟩
            exact ⟨t, ht, (ih _ (by omega) hskip (fun b hb => hs b (ht.subset hb)) hne rfl).mp h⟩
          · rintro ⟨t, ht, h⟩
            have hne : t ≠ [] := fun hnil => skipStars_not_matches hlast (hnil ▸ h)
            exact ⟨t, ht, hne, (ih _ (by omega) hskip (fun b hb => hs b (ht.subset hb)) hne rfl).mpr h⟩
      · have hsuffix := readOne_suffix x p
        have hrest : Ascii (readOne x p).2 := fun b hb => hp.tail b (hsuffix.subset hb)
        have hle := hsuffix.length_le
        rw [stringMatchLen, if_neg hstar, readGlob_one hstar, Glob.matches_one_cons]
        have hone : matchOne false x p c = some (readOne x p).2 ↔ _ := matchOne_iff hp (hs c List.mem_cons_self)
        cases hmatch : matchOne false x p c with
        | none =>
            rw [hmatch] at hone
            simp at hone
            simp [hone]
        | some rest =>
            obtain ⟨htakes, rfl⟩ := (matchOne_iff hp (hs c List.mem_cons_self)).mp hmatch
            simp only [htakes, true_and]
            split
            · rename_i hnil
              rw [hnil, Glob.matches_nil_iff, readGlob_all_star, decide_eq_true_eq, skipStars_eq_nil]
            · rename_i hmore
              exact ih _ (by omega) hrest hs.tail hmore rfl

/-- Against the empty text, it takes only the empty pattern. -/
theorem stringMatchLen_nil (p : Bytes) : stringMatchLen false p [] = true ↔ p = [] := by
  cases p <;> simp [stringMatchLen]

/-- The code says what the pattern means, unless the pattern is nothing but stars and the text is empty: the
loop is not entered then, and only an empty pattern counts as used up. -/
theorem stringMatchLen_glob_iff (hp : Ascii p) (hs : Ascii s) :
    (stringMatchLen false p s = true ↔ Matches (readGlob p) s) ↔
      ¬ (s = [] ∧ p ≠ [] ∧ ∀ b ∈ p, b = '*'.toUInt8) := by
  by_cases hne : s = []
  · rw [hne, stringMatchLen_nil, Glob.matches_nil_iff, readGlob_all_star]
    cases p with
    | nil => simp
    | cons x p => simp
  · simp [stringMatchLen_iff hp hs hne, hne]

/-- `h[a-z]l*` and `hello`. -/
theorem stringMatchLen_glob_iff_hello :
    stringMatchLen false [104, 91, 97, 45, 122, 93, 108, 42] [104, 101, 108, 108, 111] = true ∧
      Matches (readGlob [104, 91, 97, 45, 122, 93, 108, 42]) [104, 101, 108, 108, 111] := by
  have hmatch : stringMatchLen false [104, 91, 97, 45, 122, 93, 108, 42] [104, 101, 108, 108, 111] = true := by
    decide +kernel
  have hiff := (stringMatchLen_glob_iff (p := [104, 91, 97, 45, 122, 93, 108, 42]) (s := [104, 101, 108, 108, 111])
    (by unfold Ascii; decide +kernel) (by unfold Ascii; decide +kernel)).mpr (by decide)
  exact ⟨hmatch, hiff.mp hmatch⟩

/-- `*` matches the empty text, and the code says that it does not. -/
theorem star_misses_empty :
    ¬ (stringMatchLen false ['*'.toUInt8] [] = true ↔ Matches (readGlob ['*'.toUInt8]) []) := by
  have hmatches : Matches (readGlob ['*'.toUInt8]) [] := by
    rw [readGlob_star]
    exact Glob.matches_star_nil.mpr (by simp [readGlob])
  intro h
  have hcode := (stringMatchLen_nil _).mp (h.mpr hmatches)
  cases hcode

end Following

end RaftEtcd
