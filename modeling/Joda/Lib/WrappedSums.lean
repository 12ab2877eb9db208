import Mathlib.Order.Nat
import Mathlib.Tactic.Common

/-! # Sums whose greatest number is none

Numbers up to `top`, where `top` stands for no number. A sum of two numbers wraps around at `top + 1`,
and is `top` if its left operand is; the right one is not looked at. As long as no sum of a term wraps
around, its value is the exact sum, cut off at `top` (`value_eq_min`). Whether one does can be told from
the exact sums of the operands (`neverWraps_iff`), and so can whether the value of a term is sound: none
exactly if some number in it is none, and otherwise no less than any of them (`sound_iff`). -/

namespace Joda.Lib.WrappedSums

inductive Term where
  | leaf (a : ℕ)
  | add (l r : Term)

variable (top : ℕ)

def plus (a b : ℕ) : ℕ := if a = top then top else (a + b) % (top + 1)

namespace Term

def value : Term → ℕ
  | leaf a => a
  | add l r => plus top (value l) (value r)

/-- The exact sum. -/
def sum : Term → ℕ
  | leaf a => a
  | add l r => sum l + sum r

def leaves : Term → List ℕ
  | leaf a => [a]
  | add l r => leaves l ++ leaves r

def Bounded (t : Term) : Prop := ∀ a ∈ t.leaves, a ≤ top

/-- **No sum wraps around.** -/
def NeverWraps : Term → Prop
  | leaf _ => True
  | add l r => NeverWraps l ∧ NeverWraps r ∧ (l.value top ≠ top → l.value top + r.value top ≤ top)

/-- **The condition on the numbers**: the left operand of a sum is nothing, reaches `top`, or does not
exceed it together with the right one. -/
def Fits : Term → Prop
  | leaf _ => True
  | add l r => Fits l ∧ Fits r ∧ (l.sum = 0 ∨ top ≤ l.sum ∨ l.sum + r.sum ≤ top)

/-- **A sound value.** -/
structure Sound (t : Term) : Prop where
  neverWraps : t.NeverWraps top
  top_iff : t.value top = top ↔ top ∈ t.leaves
  atLeast : t.value top ≠ top → ∀ a ∈ t.leaves, a ≤ t.value top

variable {top} {l r t : Term}

theorem bounded_add : (add l r).Bounded top ↔ l.Bounded top ∧ r.Bounded top :=
  List.forall_mem_append

theorem le_sum : ∀ {t : Term}, ∀ a ∈ t.leaves, a ≤ t.sum
  | leaf b, a, ha => (List.mem_singleton.mp ha).le
  | add l r, a, ha => by
    rw [sum]
    rcases List.mem_append.mp ha with ha | ha
    · exact (le_sum a ha).trans (Nat.le_add_right _ _)
    · exact (le_sum a ha).trans (Nat.le_add_left _ _)

/-- **The value, where no sum wraps around.** -/
theorem value_eq_min (hb : t.Bounded top) (h : t.NeverWraps top) : t.value top = min top t.sum := by
  induction t with
  | leaf a => exact (min_eq_right (hb a (List.mem_singleton_self a))).symm
  | add l r ihl ihr =>
    obtain ⟨hbl, hbr⟩ := bounded_add.mp hb
    obtain ⟨hl, hr, hadd⟩ := h
    have hvl := ihl hbl hl
    have hvr := ihr hbr hr
    rw [value, plus, sum]
    split_ifs with htop
    · omega
    · have hle := hadd htop
      rw [Nat.mod_eq_of_lt (by omega)]
      omega

theorem neverWraps_iff (hb : t.Bounded top) : t.NeverWraps top ↔ t.Fits top := by
  induction t with
  | leaf a => exact Iff.rfl
  | add l r ihl ihr =>
    obtain ⟨hbl, hbr⟩ := bounded_add.mp hb
    rw [NeverWraps, Fits, ← ihl hbl, ← ihr hbr]
    refine and_congr_right fun hl => and_congr_right fun hr => ?_
    rw [value_eq_min hbl hl, value_eq_min hbr hr]
    omega

/-- **The value is sound exactly under the condition**, if the exact sum is less than `top` or there
is a number that is none. -/
theorem sound_iff (hb : t.Bounded top) :
    t.Sound top ↔ t.Fits top ∧ (top ∈ t.leaves ∨ t.sum < top) := by
  constructor
  · rintro ⟨hwraps, htop, -⟩
    refine ⟨(neverWraps_iff hb).mp hwraps, ?_⟩
    rw [← htop, value_eq_min hb hwraps]
    omega
  · rintro ⟨hfits, hsum⟩
    have hwraps := (neverWraps_iff hb).mpr hfits
    have hvalue := value_eq_min hb hwraps
    refine ⟨hwraps, ⟨fun heq => hsum.resolve_right fun hlt => by omega, fun hmem => ?_⟩,
      fun hne a ha => ?_⟩
    · have hle := le_sum top hmem
      omega
    · have hle := le_sum a ha
      omega

end Term

end Joda.Lib.WrappedSums
