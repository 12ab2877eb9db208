import Mathlib.Data.List.Range
import Mathlib.Logic.Function.Basic
import Mathlib.Tactic.Common

/-! # Ranges of numbers, recorded by kind

A list `[first, last, first, last, …]` of ranges in ascending order (`Valid`) and its `elements`. A
recorder keeps one such list for each kind; the numbers are given in ascending order, and at most one
range is open. `Recording` is its invariant: it is kept when a number extends the open range
(`extend`), when it opens a range (`start`), when the open one ends (`finish`) and when numbers are left
out (`skip`). -/

namespace Joda.Lib.Ranges

/-- The numbers of the ranges. -/
def elements : List ℕ → List ℕ
  | lo :: hi :: rest => List.range' lo (hi + 1 - lo) ++ elements rest
  | _ => []

/-- **Disjoint ranges in ascending order.** -/
inductive Valid : List ℕ → Prop
  | nil : Valid []
  | cons {lo hi : ℕ} {rest : List ℕ} (le : lo ≤ hi) (lt : ∀ x ∈ rest, hi < x) (tail : Valid rest) :
      Valid (lo :: hi :: rest)

theorem mem_range' {lo hi k : ℕ} : k ∈ List.range' lo (hi + 1 - lo) ↔ lo ≤ k ∧ k ≤ hi := by
  rw [List.mem_range'_1]
  omega

theorem Valid.append_pair {l : List ℕ} {lo hi : ℕ} (h : Valid l) (hlt : ∀ x ∈ l, x < lo)
    (hle : lo ≤ hi) : Valid (l ++ [lo, hi]) := by
  induction h with
  | nil => exact .cons hle (by simp) .nil
  | @cons lo' hi' rest le lt tail ih =>
    obtain ⟨-, hlt⟩ := List.forall_mem_cons.mp hlt
    obtain ⟨hhi, hrest⟩ := List.forall_mem_cons.mp hlt
    show Valid (lo' :: hi' :: (rest ++ [lo, hi]))
    refine .cons le (fun x hx => ?_) (ih hrest)
    simp only [List.mem_append, List.mem_cons, List.not_mem_nil, or_false] at hx
    rcases hx with hx | rfl | rfl
    · exact lt x hx
    · exact hhi
    · omega

theorem Valid.elements_append {l rest : List ℕ} (h : Valid l) :
    elements (l ++ rest) = elements l ++ elements rest := by
  induction h with
  | nil => rfl
  | cons le lt tail ih =>
    rw [List.cons_append, List.cons_append, elements, elements, ih, List.append_assoc]

theorem elements_pair (lo hi : ℕ) : elements [lo, hi] = List.range' lo (hi + 1 - lo) := by
  simp [elements]

theorem Valid.lt_elements {l : List ℕ} {n : ℕ} (h : Valid l) (hl : ∀ x ∈ l, n < x) :
    ∀ k ∈ elements l, n < k := by
  induction h with
  | nil => exact fun k hk => (List.not_mem_nil hk).elim
  | cons le lt tail ih =>
    obtain ⟨h1, hl⟩ := List.forall_mem_cons.mp hl
    obtain ⟨h2, hl⟩ := List.forall_mem_cons.mp hl
    intro k hk
    rw [elements, List.mem_append, mem_range'] at hk
    rcases hk with hk | hk
    · omega
    · exact ih hl k hk

variable {τ : Type*}

/-- **The invariant of a recorder**: which range is open, and what was recorded of the numbers before
`next`. -/
structure Recording (within : τ → Bool) (ranges : τ → List ℕ) (current : Option τ) (next : ℕ)
    (recorded : τ → ℕ → Prop) : Prop where
  within_iff : ∀ t, within t = true ↔ current = some t
  closed : ∀ t, current ≠ some t → Valid (ranges t) ∧ (∀ x ∈ ranges t, x < next) ∧
    ∀ j, j ∈ elements (ranges t) ↔ recorded t j
  opened : ∀ t, current = some t → ∃ l first, ranges t = l ++ [first] ∧ Valid l ∧
    (∀ x ∈ l, x < first) ∧ first < next ∧ ∀ j, recorded t j ↔ j ∈ elements l ∨ first ≤ j ∧ j < next

section Recording

variable {within : τ → Bool} {ranges : τ → List ℕ} {next : ℕ} {recorded recorded' : τ → ℕ → Prop}

theorem Recording.congr {current : Option τ} (h : Recording within ranges current next recorded)
    (hiff : ∀ t j, recorded t j ↔ recorded' t j) :
    Recording within ranges current next recorded' := by
  refine ⟨h.within_iff, fun t ht => ?_, fun t ht => ?_⟩
  · obtain ⟨h1, h2, h3⟩ := h.closed t ht
    exact ⟨h1, h2, fun j => (h3 j).trans (hiff t j)⟩
  · obtain ⟨l, first, h1, h2, h3, h4, h5⟩ := h.opened t ht
    exact ⟨l, first, h1, h2, h3, h4, fun j => (hiff t j).symm.trans (h5 j)⟩

/-- Nothing is open: the next number can be any later one. -/
theorem Recording.skip {next' : ℕ} (h : Recording within ranges none next recorded)
    (hle : next ≤ next') : Recording within ranges none next' recorded := by
  refine ⟨h.within_iff, fun t ht => ?_, fun t ht => by cases ht⟩
  obtain ⟨h1, h2, h3⟩ := h.closed t ht
  exact ⟨h1, fun x hx => lt_of_lt_of_le (h2 x hx) hle, h3⟩

/-- The open range goes on. -/
theorem Recording.extend {t : τ} (h : Recording within ranges (some t) next recorded) :
    Recording within ranges (some t) (next + 1) fun s j => recorded s j ∨ s = t ∧ j = next := by
  refine ⟨h.within_iff, fun s hs => ?_, fun s hs => ?_⟩
  · obtain ⟨h1, h2, h3⟩ := h.closed s hs
    have hne : s ≠ t := fun heq => hs (by rw [heq])
    refine ⟨h1, fun x hx => Nat.lt_succ_of_lt (h2 x hx), fun j => ?_⟩
    rw [h3 j, or_iff_left fun hj => hne hj.1]
  · obtain rfl := Option.some.inj hs
    obtain ⟨l, first, h1, h2, h3, h4, h5⟩ := h.opened t rfl
    refine ⟨l, first, h1, h2, h3, by omega, fun j => ?_⟩
    rw [h5 j, or_assoc, and_iff_right rfl]
    refine or_congr Iff.rfl ?_
    omega

/-- The open range ends. -/
theorem Recording.finish [DecidableEq τ] {t : τ} (h : Recording within ranges (some t) next recorded) :
    Recording (Function.update within t false)
      (Function.update ranges t (ranges t ++ [next - 1])) none next recorded := by
  refine ⟨fun s => ?_, fun s _ => ?_, fun s hs => by cases hs⟩
  · by_cases hs : s = t
    · subst hs
      simp
    · rw [Function.update_of_ne hs, h.within_iff s]
      simpa using fun heq => hs heq.symm
  · by_cases hs : s = t
    · subst hs
      obtain ⟨l, first, h1, h2, h3, h4, h5⟩ := h.opened s rfl
      have hranges : ranges s ++ [next - 1] = l ++ [first, next - 1] := by rw [h1]; simp
      rw [Function.update_self, hranges]
      refine ⟨h2.append_pair h3 (by omega), fun x hx => ?_, fun j => ?_⟩
      · simp only [List.mem_append, List.mem_cons, List.not_mem_nil, or_false] at hx
        rcases hx with hx | rfl | rfl
        · exact lt_trans (h3 x hx) h4
        · exact h4
        · omega
      · rw [h2.elements_append, elements_pair, List.mem_append, mem_range', h5 j]
        refine or_congr Iff.rfl ?_
        omega
    · rw [Function.update_of_ne hs]
      exact h.closed s fun heq => hs (Option.some.inj heq).symm

/-- A range is opened. -/
theorem Recording.start [DecidableEq τ] (t : τ) (h : Recording within ranges none next recorded) :
    Recording (Function.update within t true) (Function.update ranges t (ranges t ++ [next]))
      (some t) (next + 1) fun s j => recorded s j ∨ s = t ∧ j = next := by
  refine ⟨fun s => ?_, fun s hs => ?_, fun s hs => ?_⟩
  · by_cases hs : s = t
    · subst hs
      simp
    · rw [Function.update_of_ne hs, h.within_iff s]
      simpa using fun heq => hs heq.symm
  · have hne : s ≠ t := fun heq => hs (by rw [heq])
    obtain ⟨h1, h2, h3⟩ := h.closed s (by simp)
    rw [Function.update_of_ne hne]
    refine ⟨h1, fun x hx => Nat.lt_succ_of_lt (h2 x hx), fun j => ?_⟩
    rw [h3 j, or_iff_left fun hj => hne hj.1]
  · obtain rfl := Option.some.inj hs
    obtain ⟨h1, h2, h3⟩ := h.closed t (by simp)
    refine ⟨ranges t, next, Function.update_self .., h1, h2, by omega, fun j => ?_⟩
    rw [h3 j, and_iff_right rfl]
    refine or_congr Iff.rfl ?_
    omega

theorem Recording.empty : Recording (fun _ : τ => false) (fun _ => []) none 0 fun _ _ => False :=
  ⟨fun t => by simp, fun t _ => ⟨.nil, by simp, fun j => by simp [elements]⟩, fun t ht => by cases ht⟩

end Recording

end Joda.Lib.Ranges
