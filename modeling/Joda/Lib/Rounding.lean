import Mathlib.Data.Int.Log
import Mathlib.Data.Rat.Floor
import Mathlib.Tactic.FieldSimp
import Mathlib.Tactic.Linarith
import Mathlib.Tactic.Positivity
import Mathlib.Tactic.Ring

/-! # Rounding to floating-point numbers

A rational number is rounded to the nearest one with `p` bits, a tie to the even one; the exponent is
not limited. `roundTo_int` says which integers are exact, and `le_ceil_roundTo_mul` that a quotient
which is rounded and then rounded up still covers its dividend, as long as this one is exact. -/

namespace Joda.Lib.Rounding

/-- The nearest integer, a tie to the even one. -/
def roundEven (q : ℚ) : ℤ :=
  if q - ⌊q⌋ < 1 / 2 ∨ q - ⌊q⌋ = 1 / 2 ∧ ⌊q⌋ % 2 = 0 then ⌊q⌋ else ⌊q⌋ + 1

/-- The distance between the numbers of `p` bits around `q`. -/
def ulp (p : ℕ) (q : ℚ) : ℚ := 2 ^ (Int.log 2 |q| - (p - 1))

/-- **The nearest number of `p` bits.** -/
def roundTo (p : ℕ) (q : ℚ) : ℚ := roundEven (q / ulp p q) * ulp p q

theorem roundEven_int (z : ℤ) : roundEven z = z := by
  unfold roundEven
  rw [Int.floor_intCast, sub_self, if_pos (Or.inl (by norm_num))]

theorem abs_roundEven_sub (q : ℚ) : |q - roundEven q| ≤ 1 / 2 := by
  have h1 := Int.floor_le q
  have h2 := Int.lt_floor_add_one q
  unfold roundEven
  split_ifs with h
  · rw [abs_of_nonneg (by linarith)]
    rcases h with h | h
    · exact le_of_lt h
    · exact le_of_eq h.1
  · rw [not_or] at h
    push_cast
    rw [abs_of_neg (by linarith)]
    linarith [not_lt.mp h.1]

theorem ulp_pos (p : ℕ) (q : ℚ) : 0 < ulp p q := by
  unfold ulp
  exact zpow_pos (by norm_num) _

/-- The rounded number is at most half the distance away. -/
theorem abs_roundTo_sub (p : ℕ) (q : ℚ) : |q - roundTo p q| ≤ ulp p q / 2 := by
  have hpos := ulp_pos p q
  have hsplit : q - roundTo p q = (q / ulp p q - roundEven (q / ulp p q)) * ulp p q := by
    unfold roundTo
    field_simp
  rw [hsplit, abs_mul, abs_of_pos hpos]
  have := mul_le_mul_of_nonneg_right (abs_roundEven_sub (q / ulp p q)) (le_of_lt hpos)
  linarith

/-- A multiple of the distance is exact. -/
theorem roundTo_eq_self {p : ℕ} {q : ℚ} {z : ℤ} (h : q = z * ulp p q) : roundTo p q = q := by
  have hpos := ulp_pos p q
  have hq : q / ulp p q = z := by
    rw [div_eq_iff (ne_of_gt hpos)]
    exact h
  unfold roundTo
  rw [hq, roundEven_int]
  exact h.symm

theorem roundTo_nonneg (p : ℕ) {q : ℚ} (h : 0 ≤ q) : 0 ≤ roundTo p q := by
  have hpos := ulp_pos p q
  have hq : 0 ≤ q / ulp p q := div_nonneg h (le_of_lt hpos)
  have hfloor : 0 ≤ ⌊q / ulp p q⌋ := Int.floor_nonneg.mpr hq
  have hround : 0 ≤ roundEven (q / ulp p q) := by
    unfold roundEven
    split_ifs <;> omega
  unfold roundTo
  exact mul_nonneg (by exact_mod_cast hround) (le_of_lt hpos)

/-- The largest power of two below a number is `2 ^ (p - 1)` times the distance. -/
theorem ulp_mul {p : ℕ} (hp : 1 ≤ p) (q : ℚ) :
    ulp p q * 2 ^ (p - 1) = (2 : ℚ) ^ Int.log 2 |q| := by
  have hcast : (2 : ℚ) ^ (p - 1) = 2 ^ ((p : ℤ) - 1) := by
    rw [← zpow_natCast]
    congr 1
    omega
  unfold ulp
  rw [hcast, ← zpow_add₀ (by norm_num)]
  congr 1
  omega

theorem half_ulp {p : ℕ} (hp : 1 ≤ p) (q : ℚ) : ulp p q / 2 = 2 ^ Int.log 2 |q| / 2 ^ p := by
  have hsucc : (2 : ℚ) ^ p = 2 ^ (p - 1) * 2 := by
    rw [← pow_succ]
    congr 1
    omega
  rw [← ulp_mul hp q, hsucc]
  field_simp

/-- **The relative error** of a number that is not exact. -/
theorem roundTo_error {p : ℕ} (hp : 1 ≤ p) {q : ℚ} (h : 0 < q) (hne : roundTo p q ≠ q) :
    |q - roundTo p q| < q / 2 ^ p := by
  have hpow := ulp_mul hp q
  have hhalf := half_ulp hp q
  rw [abs_of_pos h] at hpow hhalf
  have hle : (2 : ℚ) ^ Int.log 2 q ≤ q := by
    have := Int.zpow_log_le_self (b := 2) (by norm_num) h
    exact_mod_cast this
  have hlt : (2 : ℚ) ^ Int.log 2 q < q := by
    refine lt_of_le_of_ne hle fun heq => hne ?_
    refine roundTo_eq_self (z := 2 ^ (p - 1)) ?_
    push_cast
    rw [mul_comm, hpow, heq]
  calc |q - roundTo p q| ≤ ulp p q / 2 := abs_roundTo_sub p q
    _ = 2 ^ Int.log 2 q / 2 ^ p := hhalf
    _ < q / 2 ^ p := by
      have hpos : (0 : ℚ) < 2 ^ p := by positivity
      exact div_lt_div_of_pos_right hlt hpos

/-- A number is off by at most its `2 ^ p`-th part. -/
theorem abs_roundTo_sub_le {p : ℕ} (hp : 1 ≤ p) {q : ℚ} (hq : q ≠ 0) :
    |q - roundTo p q| ≤ |q| / 2 ^ p := by
  have hle : (2 : ℚ) ^ Int.log 2 |q| ≤ |q| := by
    have := Int.zpow_log_le_self (b := 2) (by norm_num) (abs_pos.mpr hq)
    exact_mod_cast this
  calc |q - roundTo p q| ≤ ulp p q / 2 := abs_roundTo_sub p q
    _ = 2 ^ Int.log 2 |q| / 2 ^ p := half_ulp hp q
    _ ≤ |q| / 2 ^ p := div_le_div_of_nonneg_right hle (by positivity)

theorem abs_roundTo_sub_le_half {p : ℕ} (hp : 1 ≤ p) {q : ℚ} (hq : q ≠ 0) :
    |q - roundTo p q| ≤ |q| / 2 := by
  have hpow : (2 : ℚ) ≤ 2 ^ p := le_self_pow₀ (by norm_num) (by omega)
  exact (abs_roundTo_sub_le hp hq).trans (div_le_div_of_nonneg_left (abs_nonneg q) (by norm_num) hpow)

/-- Rounding keeps the sign. -/
theorem half_le_roundTo {p : ℕ} (hp : 1 ≤ p) {q : ℚ} (hq : 0 < q) : q / 2 ≤ roundTo p q := by
  have herror := (abs_le.mp (abs_roundTo_sub_le_half hp (ne_of_gt hq))).2
  rw [abs_of_pos hq] at herror
  linarith

theorem roundTo_le_half {p : ℕ} (hp : 1 ≤ p) {q : ℚ} (hq : q < 0) : roundTo p q ≤ q / 2 := by
  have herror := (abs_le.mp (abs_roundTo_sub_le_half hp (ne_of_lt hq))).1
  rw [abs_of_neg hq] at herror
  linarith

@[simp] theorem roundTo_zero (p : ℕ) : roundTo p 0 = 0 := roundTo_eq_self (z := 0) (by simp)

/-- **The integers of `p` bits** are exact. -/
theorem roundTo_int {p : ℕ} (hp : 1 ≤ p) {z : ℤ} (h0 : 0 < z) (h : z ≤ 2 ^ p) :
    roundTo p z = z := by
  have hz : (0 : ℚ) < z := by exact_mod_cast h0
  have hpow := ulp_mul hp (z : ℚ)
  rw [abs_of_pos hz] at hpow
  rcases lt_or_eq_of_le h with hlt | heq
  · -- the distance is a power of two with a negative exponent
    have hlog : Int.log 2 (z : ℚ) < p := by
      refine (Int.lt_zpow_iff_log_lt (b := 2) (by norm_num) hz).mp ?_
      rw [zpow_natCast]
      exact_mod_cast hlt
    have hlog0 : 0 ≤ Int.log 2 (z : ℚ) := by
      refine (Int.zpow_le_iff_le_log (b := 2) (by norm_num) hz).mp ?_
      rw [zpow_zero]
      exact_mod_cast h0
    obtain ⟨k, hk⟩ : ∃ k : ℕ, (p : ℤ) - 1 - Int.log 2 (z : ℚ) = k :=
      ⟨((p : ℤ) - 1 - Int.log 2 (z : ℚ)).toNat, by omega⟩
    refine roundTo_eq_self (z := z * 2 ^ k) ?_
    have hulp : ulp p (z : ℚ) = ((2 : ℚ) ^ k)⁻¹ := by
      unfold ulp
      rw [abs_of_pos hz, ← zpow_natCast, ← zpow_neg]
      congr 1
      omega
    rw [hulp]
    push_cast
    field_simp
  · -- the next power of two
    refine roundTo_eq_self (z := 2 ^ (p - 1)) ?_
    have hlog : Int.log 2 (z : ℚ) = p := by
      have hcast : (z : ℚ) = ((2 : ℕ) : ℚ) ^ (p : ℤ) := by
        rw [heq]
        push_cast
        rw [zpow_natCast]
      rw [hcast]
      exact Int.log_zpow (by norm_num) p
    rw [hlog] at hpow
    push_cast
    rw [mul_comm, hpow, zpow_natCast, heq]
    push_cast
    rfl

/-- **Rounded quotients cover**: `n` times the quotient, rounded and rounded up, is at least the
dividend. -/
theorem le_ceil_roundTo_mul {p : ℕ} (hp : 1 ≤ p) {range n : ℤ} (hr : 0 < range)
    (hle : range ≤ 2 ^ p) (hn : 0 < n) : range ≤ ⌈roundTo p (range / n)⌉ * n := by
  have hrange : (0 : ℚ) < range := by exact_mod_cast hr
  have hcount : (0 : ℚ) < n := by exact_mod_cast hn
  have hq : (0 : ℚ) < range / n := div_pos hrange hcount
  have hpow : (0 : ℚ) < 2 ^ p := by positivity
  by_contra hlt
  rw [not_le] at hlt
  -- the integer that is too small is at least one `n`-th below the quotient
  have hgap : (⌈roundTo p (range / n)⌉ : ℚ) * n + 1 ≤ range := by exact_mod_cast hlt
  have hceil : roundTo p (range / n) ≤ ⌈roundTo p ((range : ℚ) / n)⌉ := Int.le_ceil _
  have hbelow : (⌈roundTo p ((range : ℚ) / n)⌉ : ℚ) + 1 / n ≤ range / n := by
    rw [le_div_iff₀ hcount, add_mul, div_mul_cancel₀ _ (ne_of_gt hcount)]
    exact hgap
  have hone : (0 : ℚ) < 1 / n := by positivity
  have hne : roundTo p ((range : ℚ) / n) ≠ range / n := fun heq => by
    linarith
  -- the error is smaller than that
  have herror := roundTo_error hp hq hne
  have hsmall : (range : ℚ) / n / 2 ^ p ≤ 1 / n := by
    rw [div_div, div_le_div_iff₀ (by positivity) hcount]
    have : (range : ℚ) ≤ 2 ^ p := by exact_mod_cast hle
    nlinarith
  have habs := le_abs_self ((range : ℚ) / n - roundTo p (range / n))
  linarith

/-! ### Rounded numbers are exact -/

theorem abs_roundEven_le {n : ℤ} {q : ℚ} (h : |q| ≤ n) : |roundEven q| ≤ n := by
  obtain ⟨h1, h2⟩ := abs_le.mp h
  have hle := Int.floor_le q
  have hfloor : -n ≤ ⌊q⌋ := Int.le_floor.mpr (by push_cast; exact h1)
  unfold roundEven
  split_ifs with hc
  · have : ⌊q⌋ ≤ n := by exact_mod_cast le_trans hle h2
    exact abs_le.mpr ⟨hfloor, this⟩
  · have hne : (⌊q⌋ : ℚ) ≠ n := fun heq => hc (Or.inl (by rw [heq]; linarith))
    have hlt : ⌊q⌋ < n := lt_of_le_of_ne (by exact_mod_cast le_trans hle h2) (by exact_mod_cast hne)
    exact abs_le.mpr ⟨by omega, by omega⟩

theorem le_abs_roundEven {n : ℤ} {q : ℚ} (h : n ≤ |q|) : n ≤ |roundEven q| := by
  rcases le_abs'.mp h with h | h
  · -- below: rounding up stops at the integer
    have hfloor : ⌊q⌋ ≤ -n := by
      have : (⌊q⌋ : ℚ) ≤ -n := le_trans (Int.floor_le q) h
      exact_mod_cast this
    have hround : roundEven q ≤ -n := by
      unfold roundEven
      split_ifs with hc
      · exact hfloor
      · have hne : (⌊q⌋ : ℚ) ≠ -n := fun heq => hc (Or.inl (by rw [heq]; linarith))
        have hlt : ⌊q⌋ < -n := lt_of_le_of_ne hfloor (by exact_mod_cast hne)
        omega
    have := neg_abs_le (roundEven q)
    omega
  · have hfloor : n ≤ ⌊q⌋ := Int.le_floor.mpr h
    have hround : n ≤ roundEven q := by
      unfold roundEven
      split_ifs <;> omega
    exact le_trans hround (le_abs_self _)

theorem log_eq {q : ℚ} {e : ℤ} (h1 : (2 : ℚ) ^ e ≤ q) (h2 : q < 2 ^ (e + 1)) :
    Int.log 2 q = e := by
  have hq : 0 < q := lt_of_lt_of_le (zpow_pos (by norm_num) _) h1
  have hle : e ≤ Int.log 2 q :=
    (Int.zpow_le_iff_le_log (b := 2) (by norm_num) hq).mp (by exact_mod_cast h1)
  have hlt : Int.log 2 q < e + 1 :=
    (Int.lt_zpow_iff_log_lt (b := 2) (by norm_num) hq).mp (by exact_mod_cast h2)
  omega

/-- **A rounded number is exact.** -/
theorem roundTo_roundTo {p : ℕ} (hp : 1 ≤ p) (q : ℚ) : roundTo p (roundTo p q) = roundTo p q := by
  by_cases hq : q = 0
  · rw [hq, roundTo_zero, roundTo_zero]
  have hpos := ulp_pos p q
  have hpow := ulp_mul hp q
  have habs : |q / ulp p q| = |q| / ulp p q := by rw [abs_div, abs_of_pos hpos]
  have hlow : (2 : ℚ) ^ Int.log 2 |q| ≤ |q| := by
    have := Int.zpow_log_le_self (b := 2) (by norm_num) (abs_pos.mpr hq)
    exact_mod_cast this
  have hhigh : |q| < (2 : ℚ) ^ (Int.log 2 |q| + 1) := by
    have := Int.lt_zpow_succ_log_self (b := 2) (by norm_num) |q|
    exact_mod_cast this
  have hsucc : (2 : ℚ) ^ (Int.log 2 |q| + 1) = ulp p q * 2 ^ p := by
    have h2 : (2 : ℚ) ^ p = 2 ^ (p - 1) * 2 := by
      rw [← pow_succ]
      congr 1
      omega
    rw [zpow_add_one₀ (by norm_num), ← hpow, h2, mul_assoc]
  have hm1 : (2 : ℤ) ^ (p - 1) ≤ |roundEven (q / ulp p q)| := by
    refine le_abs_roundEven ?_
    rw [habs, le_div_iff₀ hpos, mul_comm]
    push_cast
    rw [hpow]
    exact hlow
  have hm2 : |roundEven (q / ulp p q)| ≤ 2 ^ p := by
    refine abs_roundEven_le ?_
    rw [habs, div_le_iff₀ hpos, mul_comm]
    push_cast
    rw [← hsucc]
    exact le_of_lt hhigh
  have hr : |roundTo p q| = (|roundEven (q / ulp p q)| : ℤ) * ulp p q := by
    unfold roundTo
    rw [abs_mul, abs_of_pos hpos]
    push_cast
    rfl
  have hr1 : (2 : ℚ) ^ Int.log 2 |q| ≤ |roundTo p q| := by
    rw [hr, ← hpow, mul_comm]
    exact mul_le_mul_of_nonneg_right (by exact_mod_cast hm1) (le_of_lt hpos)
  rcases lt_or_eq_of_le hm2 with hlt | heq
  · -- the distance is the same
    have hlog : Int.log 2 |roundTo p q| = Int.log 2 |q| := by
      refine log_eq hr1 ?_
      rw [hr, hsucc, mul_comm]
      exact mul_lt_mul_of_pos_left (by exact_mod_cast hlt) hpos
    refine roundTo_eq_self (z := roundEven (q / ulp p q)) ?_
    have hulp : ulp p (roundTo p q) = ulp p q := by
      unfold ulp
      rw [hlog]
    rw [hulp]
    rfl
  · -- the next power of two
    have habs2 : |roundTo p q| = (2 : ℚ) ^ (Int.log 2 |q| + 1) := by
      rw [hr, heq, hsucc]
      push_cast
      ring
    have hlog : Int.log 2 |roundTo p q| = Int.log 2 |q| + 1 := by
      rw [habs2]
      exact log_eq (le_refl _) (zpow_lt_zpow_right₀ (by norm_num) (by omega))
    have hulp := ulp_mul hp (roundTo p q)
    rw [hlog, ← habs2] at hulp
    rcases abs_choice (roundTo p q) with hsign | hsign
    · refine roundTo_eq_self (z := 2 ^ (p - 1)) ?_
      push_cast
      rw [mul_comm, hulp, hsign]
    · refine roundTo_eq_self (z := -2 ^ (p - 1)) ?_
      push_cast
      rw [neg_mul, mul_comm, hulp, hsign, neg_neg]
/-- The first integer that is not exact, a tie. -/
theorem roundTo_two_pow_add_one {p : ℕ} (hp : 2 ≤ p) : roundTo p (2 ^ p + 1) = 2 ^ p := by
  have hpow : (2 : ℚ) ≤ 2 ^ p := le_self_pow₀ (by norm_num) (by omega)
  have hsucc : (2 : ℤ) ^ p = 2 * 2 ^ (p - 1) := by
    rw [← pow_succ']
    congr 1
    omega
  have hcast : (2 : ℚ) ^ p = 2 * ((2 ^ (p - 1) : ℤ) : ℚ) := by exact_mod_cast hsucc
  have hlog : Int.log 2 |(2 : ℚ) ^ p + 1| = p := by
    rw [abs_of_pos (by linarith)]
    refine log_eq ?_ ?_
    · rw [zpow_natCast]
      linarith
    · rw [zpow_add_one₀ (by norm_num), zpow_natCast]
      linarith
  have hulp : ulp p ((2 : ℚ) ^ p + 1) = 2 := by
    unfold ulp
    rw [hlog, sub_sub_cancel, zpow_one]
  have hfloor : ⌊((2 : ℚ) ^ p + 1) / 2⌋ = 2 ^ (p - 1) := by
    refine Int.floor_eq_iff.mpr ⟨?_, ?_⟩ <;> rw [hcast] <;> linarith
  have heven : (2 : ℤ) ^ (p - 1) % 2 = 0 := by
    have : (2 : ℤ) ^ (p - 1) = 2 * 2 ^ (p - 2) := by
      rw [← pow_succ']
      congr 1
      omega
    omega
  unfold roundTo roundEven
  rw [hulp, hfloor, if_pos (Or.inr ⟨by rw [hcast]; ring, heven⟩), hcast, mul_comm]

end Joda.Lib.Rounding
