import Mathlib.Data.List.TakeWhile

/-! Replies of the Redis protocol: a bulk string is its length, the bytes and an end of line, an array is its
size and the elements. The reader goes by the lengths, and insists on the ends of lines. -/
namespace Resp

/-! ### Writing -/

def crlf : List UInt8 := [13, 10]

def decimal (n : Nat) : List UInt8 := (Nat.toDigits 10 n).map Char.toUInt8

def bulk (s : List UInt8) : List UInt8 := '$'.toUInt8 :: decimal s.length ++ crlf ++ s ++ crlf

def array (ss : List (List UInt8)) : List UInt8 := '*'.toUInt8 :: decimal ss.length ++ crlf ++ ss.flatMap bulk

/-! ### Reading -/

def isDigit (b : UInt8) : Bool := 48 ≤ b ∧ b ≤ 57

def value (ds : List UInt8) : Nat := ds.foldl (fun n b => 10 * n + (b.toNat - 48)) 0

/-- A number and the end of its line, and what follows. -/
def readNumber (bs : List UInt8) : Option (Nat × List UInt8) :=
  match bs.takeWhile isDigit, bs.dropWhile isDigit with
  | [], _ => none
  | ds, 13 :: 10 :: rest => some (value ds, rest)
  | _, _ => none

def readBulk : List UInt8 → Option (List UInt8 × List UInt8)
  | 36 :: bs => do
      let (n, rest) ← readNumber bs
      if (rest.drop n).take 2 = crlf then some (rest.take n, rest.drop (n + 2)) else none
  | _ => none

def readBulks : Nat → List UInt8 → Option (List (List UInt8) × List UInt8)
  | 0, bs => some ([], bs)
  | n + 1, bs => do
      let (s, rest) ← readBulk bs
      let (ss, rest) ← readBulks n rest
      some (s :: ss, rest)

def readArray : List UInt8 → Option (List (List UInt8) × List UInt8)
  | 42 :: bs => do
      let (n, rest) ← readNumber bs
      readBulks n rest
  | _ => none

/-! ### Reading what was written -/

theorem decimal_eq (n : Nat) :
    decimal n = if n < 10 then [(48 + n).toUInt8] else decimal (n / 10) ++ [(48 + n % 10).toUInt8] := by
  have hdigit : ∀ k < 10, (Nat.digitChar k).toUInt8 = (48 + k).toUInt8 := by decide
  unfold decimal
  rw [Nat.toDigits_eq_if (by decide)]
  split
  · rename_i hsmall
    simp [hdigit n hsmall]
  · simp [hdigit (n % 10) (Nat.mod_lt _ (by decide))]

theorem digit_toNat {k : Nat} (hk : k < 10) : (48 + k).toUInt8.toNat = 48 + k := by
  simp
  omega

theorem isDigit_digit {k : Nat} (hk : k < 10) : isDigit (48 + k).toUInt8 = true := by
  simp only [isDigit, UInt8.le_iff_toNat_le, digit_toNat hk, decide_eq_true_eq]
  exact ⟨by simp, by simp; omega⟩

theorem decimal_digits (n : Nat) : ∀ b ∈ decimal n, isDigit b = true := by
  induction n using Nat.strong_induction_on with
  | _ n ih =>
    intro b hb
    rw [decimal_eq] at hb
    split at hb
    · rename_i hsmall
      rw [List.mem_singleton.mp hb]
      exact isDigit_digit hsmall
    · rcases List.mem_append.mp hb with hb | hb
      · exact ih (n / 10) (by omega) b hb
      · rw [List.mem_singleton.mp hb]
        exact isDigit_digit (Nat.mod_lt _ (by decide))

theorem decimal_ne_nil (n : Nat) : decimal n ≠ [] := by
  simp [decimal]

theorem value_decimal (n : Nat) : value (decimal n) = n := by
  induction n using Nat.strong_induction_on with
  | _ n ih =>
    rw [decimal_eq]
    split
    · rename_i hsmall
      simp only [value, List.foldl_cons, List.foldl_nil, digit_toNat hsmall]
      omega
    · have hprefix := ih (n / 10) (by omega)
      rw [value] at hprefix ⊢
      rw [List.foldl_append, hprefix, List.foldl_cons, List.foldl_nil, digit_toNat (Nat.mod_lt _ (by decide))]
      omega

theorem readNumber_decimal (n : Nat) (rest : List UInt8) : readNumber (decimal n ++ crlf ++ rest) = some (n, rest) := by
  have htake : (decimal n ++ crlf ++ rest).takeWhile isDigit = decimal n := by
    rw [List.append_assoc, List.takeWhile_append_of_pos (decimal_digits n)]
    simp [crlf, isDigit]
  have hdrop : (decimal n ++ crlf ++ rest).dropWhile isDigit = 13 :: 10 :: rest := by
    rw [List.append_assoc, List.dropWhile_append_of_pos (decimal_digits n)]
    simp [crlf, isDigit]
  rw [readNumber, htake, hdrop]
  obtain ⟨d, ds, hds⟩ := List.exists_cons_of_ne_nil (decimal_ne_nil n)
  have hvalue := value_decimal n
  rw [hds] at hvalue ⊢
  simp [hvalue]

/-- The reader looks for the end of the line behind as many bytes as the number says. -/
theorem readBulk_length (n : Nat) (bs : List UInt8) : readBulk ('$'.toUInt8 :: decimal n ++ crlf ++ bs) =
    if (bs.drop n).take 2 = crlf then some (bs.take n, bs.drop (n + 2)) else none := by
  change (readNumber (decimal n ++ crlf ++ bs) >>= _) = _
  rw [readNumber_decimal]
  rfl

theorem readBulk_bulk (s rest : List UInt8) : readBulk (bulk s ++ rest) = some (s, rest) := by
  rw [bulk, List.append_assoc, List.append_assoc, readBulk_length, if_pos]
  · simp [crlf, List.drop_append]
  · simp [crlf]

theorem readBulks_flatMap (ss : List (List UInt8)) (rest : List UInt8) :
    readBulks ss.length (ss.flatMap bulk ++ rest) = some (ss, rest) := by
  induction ss with
  | nil => rfl
  | cons s ss ih =>
      rw [List.length_cons, readBulks, List.flatMap_cons, List.append_assoc, readBulk_bulk]
      simp [ih]

/-- The reader finds the elements of an array, and stops where it ends. -/
theorem readArray_array (ss : List (List UInt8)) (rest : List UInt8) : readArray (array ss ++ rest) = some (ss, rest) := by
  rw [array, List.append_assoc]
  change (readNumber (decimal ss.length ++ crlf ++ (ss.flatMap bulk ++ rest)) >>= _) = _
  rw [readNumber_decimal]
  exact readBulks_flatMap ss rest

end Resp
