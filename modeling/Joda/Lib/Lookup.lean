import Mathlib.Data.List.Forall2

/-! # Association lists

Where `List.lookup` finds a name, the first entry with it counts. -/

namespace Joda.Lib.Lookup

variable {α β γ : Type*} [BEq α] [LawfulBEq α] [DecidableEq α]

theorem lookup_pair (k a : α) (b : β) (l : List (α × β)) :
    ((a, b) :: l).lookup k = if k = a then some b else l.lookup k := by
  rw [List.lookup_cons]
  by_cases h : k = a
  · simp [h]
  · simp [h, beq_eq_false_iff_ne.mpr h]

/-- A filter that looks at the names only. -/
theorem lookup_filter (p : α → Bool) (k : α) : ∀ l : List (α × β),
    (l.filter fun e => p e.1).lookup k = if p k then l.lookup k else none
  | [] => by simp
  | (a, b) :: l => by
    have ih := lookup_filter p k l
    rw [List.filter_cons, lookup_pair]
    by_cases hk : k = a
    · subst hk
      by_cases hp : p k = true
      · simp [hp]
      · simp only [hp] at ih ⊢
        exact ih
    · rw [if_neg hk, ← ih]
      by_cases hp : p a = true
      · simp only [hp, if_true, lookup_pair, hk, if_false]
      · simp only [hp]
        rfl

theorem lookup_map (f : β → γ) (k : α) : ∀ l : List (α × β),
    (l.map fun e => (e.1, f e.2)).lookup k = (l.lookup k).map f
  | [] => rfl
  | (a, b) :: l => by
    rw [List.map_cons, lookup_pair, lookup_pair, lookup_map f k l]
    split_ifs <;> rfl

/-- Lists with the same names: what is found in one corresponds to what is found in the other. -/
theorem lookup_forall₂ {R : α → β → γ → Prop} {l : List (α × β)} {m : List (α × γ)}
    (h : List.Forall₂ (fun e f => e.1 = f.1 ∧ R e.1 e.2 f.2) l m) (k : α) :
    (l.lookup k = none ∧ m.lookup k = none) ∨
      ∃ b c, l.lookup k = some b ∧ m.lookup k = some c ∧ R k b c := by
  induction h with
  | nil => exact Or.inl ⟨rfl, rfl⟩
  | @cons e f l m hef _ ih =>
    obtain ⟨a, b⟩ := e
    obtain ⟨a', c⟩ := f
    obtain ⟨rfl, hr⟩ := hef
    rw [lookup_pair, lookup_pair]
    by_cases hk : k = a
    · subst hk
      exact Or.inr ⟨b, c, by simp, by simp, hr⟩
    · rw [if_neg hk, if_neg hk]
      exact ih

theorem mem_of_lookup {k : α} {b : β} : ∀ {l : List (α × β)}, l.lookup k = some b → (k, b) ∈ l
  | (a, b') :: l, h => by
    rw [lookup_pair] at h
    split_ifs at h with hk
    · obtain rfl := Option.some.inj h
      rw [hk]
      exact List.mem_cons_self
    · exact List.mem_cons_of_mem _ (mem_of_lookup h)

theorem lookup_of_not_mem {k : α} : ∀ {l : List (α × β)}, k ∉ l.map Prod.fst → l.lookup k = none
  | [], _ => rfl
  | (a, b) :: l, h => by
    rw [List.map_cons, List.mem_cons, not_or] at h
    rw [lookup_pair, if_neg h.1]
    exact lookup_of_not_mem h.2

theorem lookup_append_new {k : α} : ∀ {l : List (α × β)}, l.lookup k = none → ∀ (b : β) (k' : α),
    (l ++ [(k, b)]).lookup k' = if k' = k then some b else l.lookup k'
  | [], _, b, k' => lookup_pair k' k b []
  | (a, c) :: l, h, b, k' => by
    rw [lookup_pair] at h
    split_ifs at h with hk
    rw [List.cons_append, lookup_pair, lookup_pair, lookup_append_new h b k']
    by_cases hk' : k' = a
    · rw [if_pos hk', if_pos hk', if_neg]
      exact fun heq => hk (heq ▸ hk')
    · rw [if_neg hk', if_neg hk']

end Joda.Lib.Lookup
