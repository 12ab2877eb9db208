import Mathlib.Data.List.Forall2
import Mathlib.Order.Nat
import Mathlib.Tactic.Common

/-! # Computations with fuel

A computation that may not end is a function of its fuel, `none` when the fuel runs out. It
*returns* `a` if every large enough fuel gives `a`. The rules: `Returns.pure`, `Returns.bind` and
`Returns.of_succ` follow the shape of the program, `Gives` adds that nothing else is returned,
`loop_returns` is the rule of a loop with an invariant and a measure, `loop_enough` the same with the
fuel that it needs, and `loop_diverges` the rule of a loop whose invariant keeps its condition true. -/

namespace Joda.Lib.Fuel

variable {α β σ : Type*}

/-- **The computation returns `a`**: every large enough fuel gives `a`. -/
def Returns (f : ℕ → Option α) (a : α) : Prop := ∃ N, ∀ n, N ≤ n → f n = some a

theorem Returns.unique {f : ℕ → Option α} {a b : α} (ha : Returns f a) (hb : Returns f b) :
    a = b := by
  obtain ⟨N, hN⟩ := ha
  obtain ⟨M, hM⟩ := hb
  have h1 := hN (max N M) (le_max_left _ _)
  have h2 := hM (max N M) (le_max_right _ _)
  rw [h1] at h2
  exact Option.some.inj h2

theorem Returns.pure (a : α) : Returns (fun _ => some a) a := ⟨0, fun _ _ => rfl⟩

theorem Returns.bind {f : ℕ → Option α} {g : ℕ → α → Option β} {a : α} {b : β}
    (hf : Returns f a) (hg : Returns (fun n => g n a) b) :
    Returns (fun n => (f n).bind (g n)) b := by
  obtain ⟨N, hN⟩ := hf
  obtain ⟨M, hM⟩ := hg
  refine ⟨max N M, fun n hn => ?_⟩
  show (f n).bind (g n) = some b
  rw [hN n (le_trans (le_max_left _ _) hn), Option.bind_some]
  exact hM n (le_trans (le_max_right _ _) hn)

theorem Returns.map {f : ℕ → Option α} {a : α} (g : α → β) (hf : Returns f a) :
    Returns (fun n => (f n).map g) (g a) := by
  obtain ⟨N, hN⟩ := hf
  exact ⟨N, fun n hn => by simp [hN n hn]⟩

/-- A computation that uses up one unit of fuel and continues as `g`. -/
theorem Returns.of_succ {f g : ℕ → Option α} {a : α} (h : ∀ n, f (n + 1) = g n)
    (hg : Returns g a) : Returns f a := by
  obtain ⟨N, hN⟩ := hg
  refine ⟨N + 1, fun n hn => ?_⟩
  obtain ⟨m, rfl⟩ : ∃ m, n = m + 1 := ⟨n - 1, by omega⟩
  rw [h m, hN m (by omega)]

/-- A computation for each element of a list. -/
theorem Returns.mapM {f : ℕ → α → Option β} {R : α → β → Prop} : ∀ {l : List α},
    (∀ a ∈ l, ∃ b, Returns (fun n => f n a) b ∧ R a b) →
      ∃ bs, Returns (fun n => l.mapM (f n)) bs ∧ List.Forall₂ R l bs
  | [], _ => ⟨[], ⟨0, fun _ _ => rfl⟩, .nil⟩
  | a :: l, h => by
    obtain ⟨b, hb, hr⟩ := h a List.mem_cons_self
    obtain ⟨bs, hbs, hrs⟩ := Returns.mapM (f := f) fun x hx => h x (List.mem_cons_of_mem _ hx)
    have hcons : Returns (fun n => (f n a).bind fun b => (l.mapM (f n)).map fun bs => b :: bs)
        (b :: bs) := hb.bind (hbs.map fun bs => b :: bs)
    refine ⟨b :: bs, ?_, .cons hr hrs⟩
    obtain ⟨N, hN⟩ := hcons
    refine ⟨N, fun n hn => ?_⟩
    rw [← hN n hn]
    show List.mapM (f n) (a :: l) = (f n a).bind fun b => (l.mapM (f n)).map fun bs => b :: bs
    rw [List.mapM_cons]
    cases f n a with
    | none => rfl
    | some b => cases l.mapM (f n) <;> rfl

/-- The results of a partial function for each element of a list. -/
theorem forall₂_of_mapM {f : α → Option β} : ∀ {l : List α} {bs : List β}, l.mapM f = some bs →
    List.Forall₂ (fun a b => f a = some b) l bs
  | [], bs, h => by
    obtain rfl : [] = bs := Option.some.inj h
    exact .nil
  | a :: l, bs, h => by
    rw [List.mapM_cons] at h
    obtain ⟨b, hb, h⟩ := Option.bind_eq_some_iff.mp h
    obtain ⟨bs', hbs, h⟩ := Option.bind_eq_some_iff.mp h
    obtain rfl := Option.some.inj h
    exact .cons hb (forall₂_of_mapM hbs)

theorem not_returns_of_none {f : ℕ → Option α} (h : ∀ n, f n = none) (a : α) : ¬ Returns f a := by
  rintro ⟨N, hN⟩
  have h1 := hN N le_rfl
  rw [h N] at h1
  cases h1

/-- `f` gives `r`: it returns what `r` is, and never returns if `r` is `none`. -/
def Gives (f : ℕ → Option α) (r : Option α) : Prop :=
  (∀ a, r = some a → Returns f a) ∧ (r = none → ∀ n, f n = none)

theorem Gives.returns_iff {f : ℕ → Option α} {r : Option α} (h : Gives f r) (a : α) :
    Returns f a ↔ r = some a := by
  constructor
  · intro ha
    cases hr : r with
    | none => exact absurd ha (not_returns_of_none (h.2 hr) a)
    | some b => rw [(h.1 b hr).unique ha]
  · exact h.1 a

/-- A loop that uses up one unit of fuel and continues as `g`. -/
theorem Gives.of_succ {f g : ℕ → Option α} {r : Option α} (h0 : f 0 = none)
    (h : ∀ n, f (n + 1) = g n) (hg : Gives g r) : Gives f r := by
  refine ⟨fun a ha => Returns.of_succ h (hg.1 a ha), fun hr n => ?_⟩
  cases n with
  | zero => exact h0
  | succ n => rw [h, hg.2 hr n]

theorem Gives.some (a : α) : Gives (fun _ => Option.some a) (Option.some a) :=
  ⟨fun b hb => by cases hb; exact Returns.pure a, fun h => by cases h⟩

/-- **The loop** `while cond do body`. -/
def loop (cond : σ → Bool) (body : ℕ → σ → Option σ) : ℕ → σ → Option σ
  | 0, _ => none
  | n + 1, s => if cond s then (body n s).bind (loop cond body n) else some s

variable {cond : σ → Bool} {body : ℕ → σ → Option σ}

theorem loop_returns_of_not {s : σ} (h : cond s = false) :
    Returns (fun n => loop cond body n s) s :=
  Returns.of_succ (g := fun _ => some s) (fun n => by simp [loop, h]) (Returns.pure s)

theorem loop_returns_of_body {s s' t : σ} (h : cond s = true)
    (hb : Returns (fun n => body n s) s') (hl : Returns (fun n => loop cond body n s') t) :
    Returns (fun n => loop cond body n s) t :=
  Returns.of_succ (g := fun n => (body n s).bind (loop cond body n))
    (fun n => by simp [loop, h]) (hb.bind hl)

/-- **The rule of the terminating loop**: the body keeps the invariant and lowers the measure. -/
theorem loop_returns (cond : σ → Bool) (body : ℕ → σ → Option σ) (inv : σ → Prop) (measure : σ → ℕ)
    (step : ∀ s, inv s → cond s = true →
      ∃ s', Returns (fun n => body n s) s' ∧ inv s' ∧ measure s' < measure s) :
    ∀ (m : ℕ) (s : σ), measure s ≤ m → inv s →
      ∃ t, Returns (fun n => loop cond body n s) t ∧ inv t ∧ cond t = false := by
  intro m
  induction m with
  | zero =>
    intro s hm hs
    cases hc : cond s with
    | false => exact ⟨s, loop_returns_of_not hc, hs, hc⟩
    | true =>
      obtain ⟨s', -, -, hlt⟩ := step s hs hc
      omega
  | succ m ih =>
    intro s hm hs
    cases hc : cond s with
    | false => exact ⟨s, loop_returns_of_not hc, hs, hc⟩
    | true =>
      obtain ⟨s', hb, hi, hlt⟩ := step s hs hc
      obtain ⟨t, hl, ht, hct⟩ := ih s' (by omega) hi
      exact ⟨t, loop_returns_of_body hc hb hl, ht, hct⟩

/-- More fuel gives the same. -/
theorem loop_mono {body : σ → Option σ} : ∀ {n m : ℕ} {s t : σ},
    loop cond (fun _ => body) n s = some t → n ≤ m → loop cond (fun _ => body) m s = some t
  | n + 1, m + 1, s, t, h, hle => by
    rw [loop] at h ⊢
    split_ifs at h ⊢ with hc
    · obtain ⟨s', hb, hl⟩ := Option.bind_eq_some_iff.mp h
      rw [hb, Option.bind_some]
      exact loop_mono hl (Nat.le_of_succ_le_succ hle)
    · exact h

/-- **The rule of the loop with its fuel**: more than the measure is enough. -/
theorem loop_enough (cond : σ → Bool) (body : σ → Option σ) (inv : σ → Prop) (measure : σ → ℕ)
    (step : ∀ s, inv s → cond s = true → ∃ s', body s = some s' ∧ inv s' ∧ measure s' < measure s) :
    ∀ (n : ℕ) (s : σ), measure s < n → inv s →
      ∃ t, loop cond (fun _ => body) n s = some t ∧
        Returns (fun m => loop cond (fun _ => body) m s) t ∧ inv t ∧ cond t = false := by
  intro n
  induction n with
  | zero => exact fun s hn => absurd hn (Nat.not_lt_zero _)
  | succ n ih =>
    intro s hn hs
    have hend : ∃ t, loop cond (fun _ => body) (n + 1) s = some t ∧ inv t ∧ cond t = false := by
      rw [loop]
      cases hc : cond s with
      | false => exact ⟨s, rfl, hs, hc⟩
      | true =>
        obtain ⟨s', hb, hi, hlt⟩ := step s hs hc
        obtain ⟨t, hl, -, ht⟩ := ih s' (by omega) hi
        exact ⟨t, by rw [if_pos rfl, hb, Option.bind_some, hl], ht⟩
    obtain ⟨t, ht, hinv⟩ := hend
    exact ⟨t, ht, ⟨n + 1, fun m hm => loop_mono ht hm⟩, hinv⟩

/-- **The rule of partial correctness**: what the body keeps holds when the loop has ended. -/
theorem loop_some (inv : σ → Prop)
    (step : ∀ n s s', inv s → cond s = true → body n s = some s' → inv s') :
    ∀ {n : ℕ} {s t : σ}, inv s → loop cond body n s = some t → inv t ∧ cond t = false
  | 0, _, _, _, h => by cases h
  | n + 1, s, t, hs, h => by
    rw [loop] at h
    split_ifs at h with hc
    · obtain ⟨s', hb, hl⟩ := Option.bind_eq_some_iff.mp h
      exact loop_some inv step (step n s s' hs hc hb) hl
    · obtain rfl := Option.some.inj h
      exact ⟨hs, by simpa using hc⟩

/-- **The rule of the diverging loop**: the body keeps an invariant that implies the condition. -/
theorem loop_diverges (inv : σ → Prop) (hc : ∀ s, inv s → cond s = true)
    (step : ∀ n s s', inv s → body n s = some s' → inv s') :
    ∀ (n : ℕ) (s : σ), inv s → loop cond body n s = none
  | 0, _, _ => rfl
  | n + 1, s, hs => by
    rw [loop, hc s hs, if_pos rfl]
    cases hb : body n s with
    | none => rfl
    | some s' => exact loop_diverges inv hc step n s' (step n s s' hs hb)

end Joda.Lib.Fuel
