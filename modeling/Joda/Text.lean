import Mathlib.Algebra.GroupWithZero.Nat
import Mathlib.Algebra.Ring.Int.Defs
import Mathlib.Data.List.TakeWhile
import Mathlib.Tactic.Common

/-! # Texts

Strings of the program are sequences of bytes. -/

namespace Joda

abbrev Str := List UInt8

instance : LawfulBEq (List Str) := inferInstance

/-- What `std::string value = val->GetString()` makes of a JSON string: it ends at the first zero
byte. -/
def cString (v : Str) : Str := v.takeWhile (· ≠ 0)

theorem cString_initial (s : Str) : cString s <+: s := List.takeWhile_prefix _

theorem cString_cString (s : Str) : cString (cString s) = cString s := List.takeWhile_idem

theorem zero_not_mem_cString (s : Str) : (0 : UInt8) ∉ cString s := fun h => by
  have := List.mem_takeWhile_imp h
  simp at this

theorem cString_append {u : Str} (h : (0 : UInt8) ∉ u) (w : Str) :
    cString (u ++ w) = u ++ cString w :=
  List.takeWhile_append_of_pos fun _ hc => decide_eq_true fun h0 => h (h0 ▸ hc)

/-- Nothing is lost without a zero byte. -/
theorem cString_eq_self {s : Str} : cString s = s ↔ (0 : UInt8) ∉ s := by
  constructor
  · intro h
    rw [← h]
    exact zero_not_mem_cString s
  · intro h
    simpa [cString] using cString_append h []

/-- A text is its C string, or goes on with a zero byte. -/
theorem cString_cases (s : Str) : cString s = s ∨ ∃ w, s = cString s ++ 0 :: w := by
  by_cases h : (0 : UInt8) ∈ s
  · obtain ⟨u, w, rfl, hu⟩ := List.eq_append_cons_of_mem h
    right
    exact ⟨w, by rw [cString_append hu]; simp [cString]⟩
  · exact Or.inl (cString_eq_self.mpr h)

/-- A text of the source. -/
def ascii (s : String) : Str := s.toList.map fun c => c.toNat.toUInt8

end Joda
