import IngestionQueue.Backoff
import Mathlib.Algebra.Order.Ring.Int

/-!
# Delays between attempts

The power and the product of a delay are kept in the range of 64 bits, and seconds become milliseconds in the same
range.  None of this shows: where the power or the product leaves the range, the greatest delay is less than either, so
a delay is the least of the doubled base delay and the greatest delay as they are without bounds
(`RetryPolicy.delay_eq`), and it grows from attempt to attempt (`RetryPolicy.delay_mono`).
-/

namespace IngestionQueue

/-! ### Words -/

namespace Word

variable {a b : Int} {n : Nat}

theorem wrap_of_le (h : (n : Int) ≤ greatest) : wrap n = n := by
  have hlt : n < 0x8000000000000000 := by
    simp only [greatest] at h
    omega
  simp only [wrap, if_pos hlt]

/-- A number that is too great for a signed one is read as a negative one. -/
theorem wrap_neg (h : greatest < n) (hrange : (n : Int) ≤ greatestUnsigned) : wrap n < 0 := by
  simp only [greatest, greatestUnsigned] at h hrange
  have hge : ¬n < 0x8000000000000000 := by omega
  simp only [wrap, if_neg hge]
  omega

theorem saturate_le_greatest (a : Int) : saturate a ≤ greatest := by
  simp only [saturate, least, greatest]
  omega

theorem saturate_mono (h : a ≤ b) : saturate a ≤ saturate b := by
  simp only [saturate, least, greatest]
  omega

theorem saturate_nonneg (h : 0 ≤ a) : 0 ≤ saturate a ∧ saturate a ≤ a := by
  simp only [saturate, least, greatest]
  omega

theorem saturate_of_nonneg (h : 0 ≤ a) : saturate a = min a greatest := by
  simp only [saturate, least, greatest]
  omega

theorem saturate_neg (h : a < 0) : saturate a < 0 := by
  simp only [saturate, least, greatest]
  omega

/-- Seconds become no more milliseconds than they are, and no fewer than none. -/
theorem millis_of_le (h : (n : Int) ≤ greatest) :
    0 ≤ mulSaturating (wrap n) 1000 ∧ mulSaturating (wrap n) 1000 ≤ 1000 * n := by
  rw [mulSaturating, wrap_of_le h, Int.mul_comm]
  exact saturate_nonneg (by omega)

/-- Seconds that are a signed number become as many milliseconds as there can be. -/
theorem millis_eq (h : (n : Int) ≤ greatest) : mulSaturating (wrap n) 1000 = min (1000 * (n : Int)) greatest := by
  rw [mulSaturating, wrap_of_le h, Int.mul_comm]
  exact saturate_of_nonneg (by omega)

theorem millis_neg (h : greatest < n) (hrange : (n : Int) ≤ greatestUnsigned) :
    mulSaturating (wrap n) 1000 < 0 := by
  have hneg := wrap_neg h hrange
  exact saturate_neg (by omega)

end Word

/-! ### Delays -/

namespace RetryPolicy

variable {e e' : Nat} {p : RetryPolicy}

theorem factor_of_lt (h : e < 63) : factor e = (Nat.pow 2 e : Nat) := by
  rw [factor, if_pos h]
  exact (Int.natCast_pow 2 e).symm

theorem factor_le_greatest (e : Nat) : factor e ≤ Word.greatest := by
  by_cases he : e < 63
  · have hpow : Nat.pow 2 e ≤ Nat.pow 2 62 := Nat.pow_le_pow_right (by decide) (by omega)
    have hgreatest : ((Nat.pow 2 62 : Nat) : Int) ≤ Word.greatest := by decide
    rw [factor_of_lt he]
    omega
  · have hgreatest : factor e = Word.greatest := if_neg he
    exact Int.le_of_eq hgreatest

theorem factor_nonneg (e : Nat) : 0 ≤ factor e := by
  by_cases he : e < 63
  · rw [factor_of_lt he]
    exact Int.natCast_nonneg _
  · rw [factor, if_neg he]
    decide

theorem factor_mono (h : e ≤ e') : factor e ≤ factor e' := by
  by_cases he' : e' < 63
  · rw [factor_of_lt he', factor_of_lt (Nat.lt_of_le_of_lt h he')]
    exact Int.ofNat_le.2 (Nat.pow_le_pow_right (by decide) h)
  · have hgreatest : factor e' = Word.greatest := if_neg he'
    rw [hgreatest]
    exact factor_le_greatest e

theorem delay_le (p : RetryPolicy) (attempt : Int) : p.delay attempt ≤ p.maxDelay :=
  Int.min_le_right _ _

theorem delay_nonneg (hbase : 0 ≤ p.baseDelay) (hmax : 0 ≤ p.maxDelay) (attempt : Int) : 0 ≤ p.delay attempt := by
  have hproduct := Word.saturate_nonneg (Int.mul_nonneg hbase (factor_nonneg (max attempt 1 - 1).toNat))
  exact Int.le_min.2 ⟨hproduct.1, hmax⟩

/-- A later attempt waits no less than an earlier one. -/
theorem delay_mono (hbase : 0 ≤ p.baseDelay) {attempt later : Int} (h : attempt ≤ later) :
    p.delay attempt ≤ p.delay later := by
  have hfactor : factor (max attempt 1 - 1).toNat ≤ factor (max later 1 - 1).toNat := factor_mono (by omega)
  have hproduct := Word.saturate_mono (Int.mul_le_mul_of_nonneg_left hfactor hbase)
  simp only [delay, Word.mulSaturating]
  omega

theorem factor_of_le (h : 63 ≤ e) : factor e = Word.greatest := by
  rw [factor, if_neg (Nat.not_lt.2 h)]

theorem greatest_lt_power (h : 63 ≤ e) : Word.greatest < 2 ^ e := by
  have hpower : (2 : Int) ^ 63 ≤ 2 ^ e := pow_le_pow_right₀ (by decide) h
  have hgreatest : Word.greatest < 2 ^ 63 := by decide
  omega

/-- A product that is too great is no less than the greatest delay, with or without the bounds. -/
private theorem le_mul_of_greatest_le {base n cap : Int} (hbase : 0 < base) (hcap : cap ≤ Word.greatest)
    (hn : Word.greatest ≤ n) : cap ≤ base * n := by
  have hnonneg : 0 ≤ n := Int.le_trans (by decide) hn
  have hproduct : 1 * n ≤ base * n := Int.mul_le_mul_of_nonneg_right hbase hnonneg
  omega

/-- The bounds of 64 bits never show in a delay. -/
theorem delay_eq (hbase : 0 ≤ p.baseDelay) (hmax : p.maxDelay ≤ Word.greatest) (attempt : Int) :
    p.delay attempt = min (p.baseDelay * 2 ^ (max attempt 1 - 1).toNat) p.maxDelay := by
  unfold delay
  generalize (max attempt 1 - 1).toNat = e
  have hproduct := Int.mul_nonneg hbase (factor_nonneg e)
  have hsaturated : min (Word.mulSaturating p.baseDelay (factor e)) p.maxDelay =
      min (p.baseDelay * factor e) p.maxDelay := by
    rw [Word.mulSaturating, Word.saturate_of_nonneg hproduct]
    omega
  rw [hsaturated]
  by_cases he : e < 63
  · have hpower : factor e = 2 ^ e := if_pos he
    rw [hpower]
  · have he' : 63 ≤ e := Nat.not_lt.1 he
    rcases Int.lt_or_eq_of_le hbase with hpos | hzero
    · -- Both products reach beyond the greatest delay.
      have hfactor := le_mul_of_greatest_le hpos hmax (Int.le_of_eq (factor_of_le he').symm)
      have hpower := le_mul_of_greatest_le hpos hmax (Int.le_of_lt (greatest_lt_power he'))
      rw [Int.min_eq_right hfactor, Int.min_eq_right hpower]
    · rw [← hzero, Int.zero_mul, Int.zero_mul]

theorem ofSeconds_eq {base max : Nat} (hbase : base < 2 ^ 63) (hmax : max < 2 ^ 63) :
    ofSeconds base max = ⟨min (1000 * base) (2 ^ 63 - 1), min (1000 * max) (2 ^ 63 - 1)⟩ := by
  have hgreatest : Word.greatest = 2 ^ 63 - 1 := by decide
  have hword : ∀ n : Nat, n < 2 ^ 63 → (n : Int) ≤ Word.greatest := by
    intro n hn
    have hcast : (n : Int) < ((2 ^ 63 : Nat) : Int) := Int.ofNat_lt.2 hn
    have hlimit : ((2 ^ 63 : Nat) : Int) = Word.greatest + 1 := by decide
    omega
  rw [ofSeconds, Word.millis_eq (hword base hbase), Word.millis_eq (hword max hmax), hgreatest]

theorem decide_eq_deadLetter_iff {attempt maxAttempts : Int} :
    p.decide attempt maxAttempts = .deadLetter ↔ maxAttempts ≤ attempt := by
  unfold decide
  split <;> simp_all

theorem decide_eq_retry_iff {attempt maxAttempts d : Int} :
    p.decide attempt maxAttempts = .retry d ↔ attempt < maxAttempts ∧ d = p.delay attempt := by
  unfold decide
  split
  · rename_i h
    simp [Int.not_lt.2 h]
  · rename_i h
    simp [Int.not_le.1 h, eq_comm]

/-! ### Main result -/

/-- Delays are exact: base delay, doubling and greatest delay are as without bounds, a later attempt waits no less,
seconds become milliseconds up to the greatest number, and a failed attempt is repeated after exactly the delay if,
and only if, it was not the last one. -/
theorem exactness (hbase : 0 ≤ p.baseDelay) (hmax : p.maxDelay ≤ Word.greatest) :
    (∀ attempt : Int, p.delay attempt = min (p.baseDelay * 2 ^ (max attempt 1 - 1).toNat) p.maxDelay) ∧
      (∀ attempt later : Int, attempt ≤ later → p.delay attempt ≤ p.delay later) ∧
      (∀ base max : Nat, base < 2 ^ 63 → max < 2 ^ 63 →
        ofSeconds base max = ⟨min (1000 * base) (2 ^ 63 - 1), min (1000 * max) (2 ^ 63 - 1)⟩) ∧
      ∀ attempt maxAttempts : Int,
        (p.decide attempt maxAttempts = .deadLetter ↔ maxAttempts ≤ attempt) ∧
          ∀ d, p.decide attempt maxAttempts = .retry d ↔ attempt < maxAttempts ∧ d = p.delay attempt := by
  refine ⟨delay_eq hbase hmax, ?_, ?_, ?_⟩
  · intro attempt later h
    exact delay_mono hbase h
  · intro base max hb hm
    exact ofSeconds_eq hb hm
  · intro attempt maxAttempts
    exact ⟨decide_eq_deadLetter_iff, fun d => decide_eq_retry_iff⟩

/-- One millisecond doubles up to the greatest number of milliseconds, and stays there. -/
theorem exactness_longest :
    let p : RetryPolicy := ⟨1, Word.greatest⟩
    (0 ≤ p.baseDelay ∧ p.maxDelay ≤ Word.greatest) ∧ p.delay 63 = 2 ^ 62 ∧ p.delay 64 = 2 ^ 63 - 1 ∧
      p.delay 2147483647 = 2 ^ 63 - 1 ∧ p.decide 64 65 = .retry (2 ^ 63 - 1) := by
  intro p
  obtain ⟨hdelay, hmono, -, hdecide⟩ := exactness (p := p) (by decide) (by decide)
  have hcapped : p.delay 64 = 2 ^ 63 - 1 := (hdelay 64).trans (by decide)
  have hlater : p.delay 64 ≤ p.delay 2147483647 := hmono 64 2147483647 (by decide)
  have hcap : p.delay 2147483647 ≤ 2 ^ 63 - 1 := delay_le p _
  have hretried : p.decide 64 65 = .retry (2 ^ 63 - 1) := ((hdecide 64 65).2 _).2 ⟨by decide, hcapped.symm⟩
  exact ⟨by decide, (hdelay 63).trans (by decide), hcapped, by omega, hretried⟩

end RetryPolicy

end IngestionQueue
