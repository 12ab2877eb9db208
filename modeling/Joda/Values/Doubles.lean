import Joda.Lib.Rounding
import Joda.Values.Value
import Mathlib.Algebra.Order.Group.Defs

/-! # The doubles as rational numbers

A finite double has a rational value, the two zeros the same one. An integer that is converted to a
double is rounded to 53 bits. -/

namespace Joda.Values.Doubles

open Joda.Lib.Rounding Joda.Values.Value

/-- **The finite doubles by their values.** -/
class Binary64 (F : Type) [Double F] where
  value : F → ℚ
  value_injective : Function.Injective value
  value_ofInt : ∀ z : ℤ, -2 ^ 63 ≤ z → z < 2 ^ 64 → value (Double.ofInt z) = roundTo 53 z
  less_iff : ∀ x y : F, Double.less x y = true ↔ value x < value y
  near_self : ∀ x : F, Double.near x x = true
  /-- Doubles that are not near are far apart. -/
  near_far : ∀ x y : F, 1 ≤ |value x - value y| → Double.near x y = false

/-- Rational numbers with the conversion and the operations of the doubles; as elements of an ordered
monoid they are exact. -/
@[ext] structure Rounded where
  val : ℚ

namespace Rounded

theorem val_injective : Function.Injective val := fun _ _ h => Rounded.ext h

instance : LinearOrder Rounded := LinearOrder.lift' val val_injective

instance : Add Rounded := ⟨fun a b => ⟨a.val + b.val⟩⟩

instance : Zero Rounded := ⟨⟨0⟩⟩

instance : AddCommMonoid Rounded where
  add_assoc _ _ _ := Rounded.ext (add_assoc _ _ _)
  zero_add _ := Rounded.ext (zero_add _)
  add_zero _ := Rounded.ext (add_zero _)
  add_comm _ _ := Rounded.ext (add_comm _ _)
  nsmul := nsmulRec

end Rounded

instance : Double Rounded where
  ofInt z := ⟨roundTo 53 z⟩
  add a b := ⟨roundTo 53 (a.val + b.val)⟩
  sub a b := ⟨roundTo 53 (a.val - b.val)⟩
  mul a b := ⟨roundTo 53 (a.val * b.val)⟩
  div a b := ⟨roundTo 53 (a.val / b.val)⟩
  fmod a b :=
    ⟨a.val - b.val * (if a.val / b.val < 0 then ⌈a.val / b.val⌉ else ⌊a.val / b.val⌋)⟩
  pow a b := ⟨roundTo 53 (a.val ^ b.val.num)⟩
  atan2 _ _ := ⟨0⟩
  isZero a := decide (a.val = 0)
  isFinite _ := true
  less a b := decide (a.val < b.val)
  lessEq a b := decide (a.val ≤ b.val)
  near a b := decide (|a.val - b.val| < 1 / 2 ^ 52)
  print a := ascii (toString a.val)

instance : Binary64 Rounded where
  value := Rounded.val
  value_injective := Rounded.val_injective
  value_ofInt _ _ _ := rfl
  less_iff _ _ := decide_eq_true_iff
  near_self x := by
    refine decide_eq_true ?_
    rw [sub_self, abs_zero]
    positivity
  near_far x y h := by
    refine decide_eq_false (not_lt.mpr (le_trans ?_ h))
    norm_num

variable {F : Type} [Double F]

/-- **Integers are compared exactly for equality** where they are of one type. -/
theorem equal_int_typed {z w : ℤ} (hz : -2 ^ 63 ≤ z ∧ z < 2 ^ 64) (hw : -2 ^ 63 ≤ w ∧ w < 2 ^ 64) :
    RJValue.equal (some (.number (.int z))) (some (.number (.int w : Number F))) =
      some (if 0 ≤ z ∧ 0 ≤ w ∨ z < 2 ^ 63 ∧ w < 2 ^ 63 then decide (z = w)
        else Double.near (Double.ofInt z : F) (Double.ofInt w)) := by
  have htyped : ((Number.int z : Number F).isUint64 && (Number.int w : Number F).isUint64 ||
      (Number.int z : Number F).isInt64 && (Number.int w : Number F).isInt64) = true ↔
      (0 ≤ z ∧ 0 ≤ w ∨ z < 2 ^ 63 ∧ w < 2 ^ 63) := by
    simp only [Number.isUint64, Number.isInt64, Bool.or_eq_true, Bool.and_eq_true,
      decide_eq_true_eq]
    omega
  have hbeq : (z == w) = decide (z = w) := by
    by_cases h : z = w <;> simp [h]
  by_cases h : 0 ≤ z ∧ 0 ≤ w ∨ z < 2 ^ 63 ∧ w < 2 ^ 63
  · rw [if_pos h, ← hbeq]
    exact congrArg some (if_pos (htyped.mpr h))
  · rw [if_neg h]
    exact congrArg some (if_neg fun hc => h (htyped.mp hc))

variable [Binary64 F]

/-- The mathematical value of a number. -/
def numberValue : Number F → ℚ
  | .int z => z
  | .double x => Binary64.value x

/-- `GetDouble` of an integer. -/
theorem value_getDouble_int {z : ℤ} (h : -2 ^ 63 ≤ z ∧ z < 2 ^ 64) :
    Binary64.value (Number.int z : Number F).getDouble = roundTo 53 z := Binary64.value_ofInt z h.1 h.2

/-- Integers of different signs are not near as doubles. -/
theorem not_near_of_signs {z w : ℤ} (hz : -2 ^ 63 ≤ z ∧ z < 0) (hw : 2 ≤ w ∧ w < 2 ^ 64) :
    Double.near (Double.ofInt z : F) (Double.ofInt w) = false ∧
      Double.near (Double.ofInt w : F) (Double.ofInt z) = false := by
  have hneg : (z : ℚ) < 0 := by exact_mod_cast hz.2
  have h2 : (2 : ℚ) ≤ w := by exact_mod_cast hw.1
  have hvalz := Binary64.value_ofInt (F := F) z hz.1 (by omega)
  have hvalw := Binary64.value_ofInt (F := F) w (by omega) hw.2
  have hz' : roundTo 53 (z : ℚ) ≤ z / 2 := roundTo_le_half (by norm_num) hneg
  have hw' : (w : ℚ) / 2 ≤ roundTo 53 w := half_le_roundTo (by norm_num) (by linarith)
  have hfar : 1 ≤ roundTo 53 (w : ℚ) - roundTo 53 (z : ℚ) := by linarith
  constructor
  · refine Binary64.near_far _ _ ?_
    rw [hvalz, hvalw, abs_sub_comm]
    exact le_trans hfar (le_abs_self _)
  · refine Binary64.near_far _ _ ?_
    rw [hvalz, hvalw]
    exact le_trans hfar (le_abs_self _)

/-- **Integers are compared exactly for equality**, whatever their signs. -/
theorem equal_int {z w : ℤ} (hz : -2 ^ 63 ≤ z ∧ z < 2 ^ 64) (hw : -2 ^ 63 ≤ w ∧ w < 2 ^ 64) :
    RJValue.equal (some (.number (.int z))) (some (.number (.int w : Number F))) =
      some (decide (z = w)) := by
  rw [equal_int_typed hz hw]
  congr 1
  by_cases h : 0 ≤ z ∧ 0 ≤ w ∨ z < 2 ^ 63 ∧ w < 2 ^ 63
  · rw [if_pos h]
  · rw [if_neg h, decide_eq_false (by omega)]
    rcases lt_or_ge z 0 with hneg | hpos
    · exact (not_near_of_signs ⟨hz.1, hneg⟩ (by omega)).1
    · exact (not_near_of_signs (by omega) (by omega)).2

end Joda.Values.Doubles
