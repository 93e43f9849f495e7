import Mathlib.Data.List.Basic

/-! Reading a stream of self-delimiting records from the front. A reader looks at what is left
and either accepts one record with the number of units it takes or leaves with a reason. All it
must promise is that an accepted record is decided by its own units, so that what stands behind
it cannot change the decision. -/
namespace Framing

variable {β ρ σ : Type*}

inductive Head (ρ σ : Type*) where
  | record (r : ρ) (size : Nat)
  | stop (why : σ)

structure Reader (β ρ σ : Type*) where
  head : List β → Head ρ σ
  fits {bs r n} : head bs = .record r n → 0 < n ∧ n ≤ bs.length
  decided {bs r n} (more : List β) : head bs = .record r n → head (bs.take n ++ more) = .record r n

/-- What a scan leaves behind: the records in order, the units it did not consume, and why it
left them; no reason means that the input was used up. -/
structure Scan (β ρ σ : Type*) where
  records : List ρ
  rest : List β
  stop : Option σ

namespace Scan

def cons (r : ρ) (s : Scan β ρ σ) : Scan β ρ σ := { s with records := r :: s.records }

/-- Records that were read before the scan began. -/
def after (rs : List ρ) (s : Scan β ρ σ) : Scan β ρ σ := { s with records := rs ++ s.records }

end Scan

variable (R : Reader β ρ σ)

/-- Every round consumes something, so the length of the input bounds the rounds. -/
def scanFrom : Nat → List β → Scan β ρ σ
  | _, [] => ⟨[], [], none⟩
  | 0, b :: bs => ⟨[], b :: bs, none⟩
  | fuel + 1, b :: bs =>
      match R.head (b :: bs) with
      | .stop why => ⟨[], b :: bs, some why⟩
      | .record r n => (scanFrom fuel ((b :: bs).drop n)).cons r

def scan (bs : List β) : Scan β ρ σ := scanFrom R bs.length bs

/-- The records stand one after the other in front of the rest. -/
inductive Reads : List β → List ρ → List β → Prop where
  | done (bs : List β) : Reads bs [] bs
  | next {bs : List β} {r : ρ} {n : Nat} {rs : List ρ} {rest : List β} (head : R.head bs = .record r n)
      (tail : Reads (bs.drop n) rs rest) : Reads bs (r :: rs) rest

variable {R}

theorem Reader.record_ne_nil {bs : List β} {r : ρ} {n : Nat} (h : R.head bs = .record r n) : bs ≠ [] := by
  have hfits := R.fits h
  rintro rfl
  simp only [List.length_nil] at hfits
  omega

theorem Reader.drop_shorter {bs : List β} {r : ρ} {n : Nat} (h : R.head bs = .record r n) :
    (bs.drop n).length < bs.length := by
  have hfits := R.fits h
  rw [List.length_drop]
  omega

theorem scanFrom_enough (fuel : Nat) (bs : List β) (h : bs.length ≤ fuel) :
    scanFrom R fuel bs = scan R bs := by
  induction fuel using Nat.strongRecOn generalizing bs with
  | ind fuel ih =>
      cases bs with
      | nil => cases fuel <;> rfl
      | cons b bs =>
          cases fuel with
          | zero => simp at h
          | succ fuel =>
              unfold scan
              simp only [List.length_cons, scanFrom]
              cases hhead : R.head (b :: bs) with
              | stop why => rfl
              | record r n =>
                  have hshort := Reader.drop_shorter hhead
                  simp only [List.length_cons] at hshort h
                  show Scan.cons r _ = Scan.cons r _
                  rw [ih fuel (by omega) _ (by omega)]
                  by_cases heq : bs.length = fuel
                  · rw [heq, ih fuel (by omega) _ (by omega)]
                  · rw [ih bs.length (by omega) _ (by omega)]

@[simp] theorem scan_nil : scan R [] = ⟨[], [], none⟩ := rfl

theorem scan_stop {bs : List β} {why : σ} (hne : bs ≠ []) (h : R.head bs = .stop why) :
    scan R bs = ⟨[], bs, some why⟩ := by
  cases bs with
  | nil => exact absurd rfl hne
  | cons b bs => simp only [scan, List.length_cons, scanFrom, h]

theorem scan_record {bs : List β} {r : ρ} {n : Nat} (h : R.head bs = .record r n) :
    scan R bs = (scan R (bs.drop n)).cons r := by
  cases bs with
  | nil => exact absurd rfl (Reader.record_ne_nil h)
  | cons b bs =>
      have hshort := Reader.drop_shorter h
      simp only [List.length_cons] at hshort
      rw [← scanFrom_enough bs.length ((b :: bs).drop n) (by omega)]
      simp only [scan, List.length_cons, scanFrom, h]

/-- One induction for every fact about a scan: it ends, or leaves, or takes a record. -/
theorem scan_induction {motive : List β → Prop} (nil : motive [])
    (stop : ∀ bs why, bs ≠ [] → R.head bs = .stop why → motive bs)
    (record : ∀ bs r n, R.head bs = .record r n → motive (bs.drop n) → motive bs) (bs : List β) :
    motive bs := by
  induction hlen : bs.length using Nat.strongRecOn generalizing bs with
  | ind len ih =>
      by_cases hne : bs = []
      · exact hne ▸ nil
      · cases hhead : R.head bs with
        | stop why => exact stop bs why hne hhead
        | record r n =>
            have hshort := Reader.drop_shorter hhead
            exact record bs r n hhead (ih _ (by omega) _ rfl)

theorem scan_reads (bs : List β) : Reads R bs (scan R bs).records (scan R bs).rest := by
  induction bs using scan_induction (R := R) with
  | nil => exact .done _
  | stop bs why hne hhead => rw [scan_stop hne hhead]; exact .done _
  | record bs r n hhead ih => rw [scan_record hhead]; exact .next hhead ih

/-- A scan ends at the end of the input, or in front of what the reader refuses. -/
theorem scan_ends (bs : List β) :
    ((scan R bs).rest = [] ∧ (scan R bs).stop = none) ∨
      ∃ why, (scan R bs).rest ≠ [] ∧ R.head (scan R bs).rest = .stop why ∧ (scan R bs).stop = some why := by
  induction bs using scan_induction (R := R) with
  | nil => exact .inl ⟨rfl, rfl⟩
  | stop bs why hne hhead => rw [scan_stop hne hhead]; exact .inr ⟨why, hne, hhead, rfl⟩
  | record bs r n hhead ih => rw [scan_record hhead]; exact ih

namespace Reads

theorem trans {bs mid rest : List β} {rs rs' : List ρ} (h : Reads R bs rs mid) (h' : Reads R mid rs' rest) :
    Reads R bs (rs ++ rs') rest := by
  induction h with
  | done bs => exact h'
  | next head _ ih => exact .next head (ih h')

/-- A scan gets through records that stand in front, whatever comes behind them. -/
theorem scan_eq {bs rest : List β} {rs : List ρ} (h : Reads R bs rs rest) :
    scan R bs = (scan R rest).after rs := by
  induction h with
  | done bs => rfl
  | next head _ ih => rw [scan_record head, ih]; rfl

/-- What stands behind the records can be exchanged. -/
theorem front {bs rest : List β} {rs : List ρ} (h : Reads R bs rs rest) :
    ∃ front, bs = front ++ rest ∧ ∀ more, Reads R (front ++ more) rs more := by
  induction h with
  | done bs => exact ⟨[], rfl, fun more => .done more⟩
  | @next bs r n rs rest head _ ih =>
      obtain ⟨front, hfront, hmore⟩ := ih
      refine ⟨bs.take n ++ front, ?_, fun more => ?_⟩
      · rw [List.append_assoc, ← hfront, List.take_append_drop]
      · have hlen : (bs.take n).length = n := by
          have := R.fits head
          rw [List.length_take]
          omega
        have hhead := R.decided (front ++ more) head
        rw [List.append_assoc]
        refine .next hhead ?_
        rw [List.drop_append_of_le_length (by omega), List.drop_of_length_le (by omega)]
        exact hmore more

theorem append {bs rest : List β} {rs : List ρ} (h : Reads R bs rs rest) (more : List β) :
    Reads R (bs ++ more) rs (rest ++ more) := by
  obtain ⟨front, rfl, hfront⟩ := h.front
  rw [List.append_assoc]
  exact hfront _

end Reads

/-- A writer whose records the reader recognises, one after the other. -/
theorem reads_written {write : ρ → List β} {rs : List ρ} (rest : List β)
    (h : ∀ r ∈ rs, ∀ more, R.head (write r ++ more) = .record r (write r).length) :
    Reads R (rs.flatMap write ++ rest) rs rest := by
  induction rs with
  | nil => exact .done rest
  | cons r rs ih =>
      have hhead := h r List.mem_cons_self (rs.flatMap write ++ rest)
      rw [List.flatMap_cons, List.append_assoc]
      refine .next hhead ?_
      rw [List.drop_left]
      exact ih fun r' hr' => h r' (List.mem_cons_of_mem _ hr')

end Framing
