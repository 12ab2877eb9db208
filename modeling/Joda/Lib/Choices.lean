import Mathlib.Algebra.BigOperators.Group.List.Basic
import Mathlib.Data.List.Nodup

/-! # Choices

A choice has an index below each of some sizes. The list of all of them has each once; the first index
changes fastest. -/

namespace Joda.Lib.Choices

/-- **All choices.** -/
def choices : List ℕ → List (List ℕ)
  | [] => [[]]
  | n :: ns => (choices ns).flatMap fun c => (List.range n).map (· :: c)

theorem mem_choices : ∀ {ns c : List ℕ}, c ∈ choices ns ↔ List.Forall₂ (· < ·) c ns
  | [], c => by
    rw [choices, List.mem_singleton, List.forall₂_nil_right_iff]
  | n :: ns, c => by
    rw [choices, List.mem_flatMap]
    constructor
    · rintro ⟨c', hc', hmem⟩
      obtain ⟨i, hi, rfl⟩ := List.mem_map.mp hmem
      exact .cons (List.mem_range.mp hi) (mem_choices.mp hc')
    · intro h
      cases h with
      | @cons i _ c' _ hi hrest =>
        exact ⟨c', mem_choices.mpr hrest, List.mem_map_of_mem (List.mem_range.mpr hi)⟩

theorem nodup_choices (ns : List ℕ) : (choices ns).Nodup := by
  induction ns with
  | nil => exact List.nodup_singleton _
  | cons n ns ih =>
    refine List.nodup_flatMap.mpr ⟨fun c _ => ?_, ?_⟩
    · exact List.nodup_range.map fun i j h => (List.cons.inj h).1
    · refine ih.imp fun {c c'} hne => ?_
      intro x hx hx'
      obtain ⟨i, -, rfl⟩ := List.mem_map.mp hx
      obtain ⟨j, -, heq⟩ := List.mem_map.mp hx'
      exact hne (List.cons.inj heq).2.symm

theorem length_choices (ns : List ℕ) : (choices ns).length = ns.prod := by
  induction ns with
  | nil => rfl
  | cons n ns ih =>
    rw [choices, List.length_flatMap, List.prod_cons]
    simp [ih, Nat.mul_comm]

end Joda.Lib.Choices
