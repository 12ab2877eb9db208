import Mathlib.Data.Finset.Card

/-! # Custody

Things that are handed out, each to one holder at a time. `Handed held Out` says that exactly the
things that are out are in somebody's hands, and each in one pair of hands only; a thing may be taken
by a holder who has none and given back by the one who has it. `Counted P n` says that a counter that
each adds to and takes from counts the things with a property. -/

namespace Joda.Lib.Custody

variable {ι α : Type*}

/-- **What is out is in the hands of exactly one holder**, and nothing else is. -/
structure Handed (held : ι → Option α) (Out : α → Prop) : Prop where
  out : ∀ i a, held i = some a → Out a
  unique : ∀ i j a, held i = some a → held j = some a → i = j
  holder : ∀ a, Out a → ∃ i, held i = some a

variable {held held' : ι → Option α} {Out Out' : α → Prop}

theorem Handed.of_none (hheld : ∀ i, held i = none) (hout : ∀ a, ¬ Out a) : Handed held Out where
  out i a h := by
    rw [hheld] at h
    cases h
  unique i j a h := by
    rw [hheld] at h
    cases h
  holder a h := absurd h (hout a)

theorem Handed.congr (h : Handed held Out) (hheld : ∀ i, held' i = held i)
    (hout : ∀ a, Out' a ↔ Out a) : Handed held' Out' where
  out i a hi := (hout a).mpr (h.out i a (by rw [← hheld, hi]))
  unique i j a hi hj := h.unique i j a (by rw [← hheld, hi]) (by rw [← hheld, hj])
  holder a ha := by
    obtain ⟨i, hi⟩ := h.holder a ((hout a).mp ha)
    exact ⟨i, by rw [hheld, hi]⟩

/-- **One takes** what was not out. -/
theorem Handed.take (h : Handed held Out) {i : ι} {a : α} (hi : held i = none) (ha : ¬ Out a)
    (hself : held' i = some a) (hother : ∀ k, k ≠ i → held' k = held k)
    (hout : ∀ b, Out' b ↔ Out b ∨ b = a) : Handed held' Out' where
  out k b hk := by
    rw [hout]
    by_cases hki : k = i
    · rw [hki, hself] at hk
      exact Or.inr (Option.some.inj hk).symm
    · exact Or.inl (h.out k b (by rw [← hother k hki, hk]))
  unique k l b hk hl := by
    by_cases hki : k = i <;> by_cases hli : l = i
    · rw [hki, hli]
    · rw [hki, hself] at hk
      rw [hother l hli, ← hk] at hl
      exact absurd (h.out l a hl) ha
    · rw [hli, hself] at hl
      rw [hother k hki, ← hl] at hk
      exact absurd (h.out k a hk) ha
    · exact h.unique k l b (by rw [← hother k hki, hk]) (by rw [← hother l hli, hl])
  holder b hb := by
    rcases (hout b).mp hb with hb | rfl
    · obtain ⟨k, hk⟩ := h.holder b hb
      refine ⟨k, ?_⟩
      rw [hother k (by rintro rfl; rw [hi] at hk; cases hk), hk]
    · exact ⟨i, hself⟩

/-- **One gives back** what he holds. -/
theorem Handed.give (h : Handed held Out) {i : ι} {a : α} (hi : held i = some a)
    (hself : held' i = none) (hother : ∀ k, k ≠ i → held' k = held k)
    (hout : ∀ b, Out' b ↔ Out b ∧ b ≠ a) : Handed held' Out' where
  out k b hk := by
    have hki : k ≠ i := by
      rintro rfl
      rw [hself] at hk
      cases hk
    rw [hother k hki] at hk
    refine (hout b).mpr ⟨h.out k b hk, ?_⟩
    rintro rfl
    exact hki (h.unique k i b hk hi)
  unique k l b hk hl := by
    have hki : k ≠ i := by
      rintro rfl
      rw [hself] at hk
      cases hk
    have hli : l ≠ i := by
      rintro rfl
      rw [hself] at hl
      cases hl
    exact h.unique k l b (by rw [← hother k hki, hk]) (by rw [← hother l hli, hl])
  holder b hb := by
    obtain ⟨hb, hba⟩ := (hout b).mp hb
    obtain ⟨k, hk⟩ := h.holder b hb
    refine ⟨k, ?_⟩
    rw [hother k (by rintro rfl; rw [hi] at hk; exact hba (Option.some.inj hk).symm), hk]

/-! ### Counters -/

/-- `n` things have the property. -/
def Counted (P : α → Prop) (n : ℕ) : Prop := ∃ F : Finset α, F.card = n ∧ ∀ a, a ∈ F ↔ P a

variable {P Q : α → Prop} {n : ℕ}

theorem Counted.congr (h : Counted P n) (hPQ : ∀ a, Q a ↔ P a) : Counted Q n := by
  obtain ⟨F, hF, hmem⟩ := h
  exact ⟨F, hF, fun a => (hmem a).trans (hPQ a).symm⟩

theorem Counted.zero_iff (h : Counted P n) : n = 0 ↔ ∀ a, ¬ P a := by
  obtain ⟨F, rfl, hmem⟩ := h
  simp only [Finset.card_eq_zero, Finset.eq_empty_iff_forall_notMem, hmem]

theorem Counted.pos (h : Counted P n) {a : α} (ha : P a) : 0 < n :=
  Nat.pos_of_ne_zero fun h0 => h.zero_iff.mp h0 a ha

variable [DecidableEq α]

theorem Counted.add (h : Counted P n) {a : α} (ha : ¬ P a) (hQ : ∀ b, Q b ↔ P b ∨ b = a) :
    Counted Q (n + 1) := by
  obtain ⟨F, rfl, hmem⟩ := h
  refine ⟨insert a F, Finset.card_insert_of_notMem (by rwa [hmem]), fun b => ?_⟩
  rw [Finset.mem_insert, hmem, hQ, or_comm]

theorem Counted.remove (h : Counted P n) {a : α} (ha : P a) (hQ : ∀ b, Q b ↔ P b ∧ b ≠ a) :
    Counted Q (n - 1) := by
  obtain ⟨F, rfl, hmem⟩ := h
  refine ⟨F.erase a, Finset.card_erase_of_mem ((hmem a).mpr ha), fun b => ?_⟩
  rw [Finset.mem_erase, hmem, hQ, and_comm]

end Joda.Lib.Custody
