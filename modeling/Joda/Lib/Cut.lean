import Mathlib.Tactic.Common
import Mathlib.Order.Nat

/-! # Cutting a list at a delimiter

`Pieces d s l` says that `l` are the pieces of `s` between the leftmost occurrences of `d` that do not
overlap. Joined with `d` they give `s` again, none of them contains `d`, and there is one more of them
than there are such occurrences. -/

namespace Joda.Lib.Cut

variable {α : Type*}

/-- The delimiter ends the text and occurs nowhere before. -/
def First (d p : List α) : Prop := ∀ q r, p ++ d = q ++ d ++ r → r = []

/-- **The pieces of a list.** -/
inductive Pieces (d : List α) : List α → List (List α) → Prop
  | last {s : List α} (h : ¬ d <:+: s) : Pieces d s [s]
  | cut {p t : List α} {l : List (List α)} (hp : First d p) (ht : Pieces d t l) :
      Pieces d (p ++ d ++ t) (p :: l)

/-- The leftmost occurrences that do not overlap; the first symbols are skipped. -/
def occurrences [BEq α] (d : List α) : ℕ → List α → ℕ
  | _, [] => 0
  | skip + 1, _ :: s => occurrences d skip s
  | 0, c :: s =>
    if d.isPrefixOf (c :: s) then occurrences d (d.length - 1) s + 1 else occurrences d 0 s

variable {d p s t : List α} {l : List (List α)}

/-! ### The first occurrence -/

theorem First.not_infix (h : First d p) (hd : d ≠ []) : ¬ d <:+: p := by
  rintro ⟨a, b, rfl⟩
  have hb : b ++ d = [] := h a (b ++ d) (by simp)
  exact hd (List.append_eq_nil_iff.mp hb).2

theorem First.mono {e : List α} (h : First d p) (hd : d <+: e) : First e p := by
  intro q r he
  have hlen := congrArg List.length he
  simp only [List.length_append] at hlen
  have hpre : q ++ d <+: p ++ d := by
    refine List.prefix_of_prefix_length_le (show q ++ d <+: p ++ e from ?_) ?_ ?_
    · rw [he, List.append_assoc, List.prefix_append_right_inj]
      exact hd.trans (List.prefix_append _ _)
    · rwa [List.prefix_append_right_inj]
    · simp only [List.length_append]
      omega
  obtain ⟨r', hr'⟩ := hpre
  have hlen' := congrArg List.length hr'
  rw [h q r' hr'.symm] at hlen'
  simp only [List.length_append, List.length_nil] at hlen'
  exact List.length_eq_zero_iff.mp (by omega)

theorem First.tail {c : α} (h : First d (c :: p)) : First d p := by
  intro q r he
  exact h (c :: q) r (by simp [he])

theorem first_of_drop (h : ∀ i < p.length, ¬ d <+: (p ++ (d ++ t)).drop i) : First d p := by
  intro q r he
  by_contra hr
  have hpos : 0 < r.length := List.length_pos_iff.mpr hr
  have hlen := congrArg List.length he
  simp only [List.length_append] at hlen
  refine h q.length (by omega) ?_
  rw [← List.append_assoc, he]
  simp

theorem First.unique {p' t' : List α} (h : First d p) (h' : First d p')
    (he : p ++ d ++ t = p' ++ d ++ t') : p = p' ∧ t = t' := by
  have key : ∀ {p p' t t' : List α}, First d p' → p ++ d ++ t = p' ++ d ++ t' →
      p.length ≤ p'.length → p'.length ≤ p.length := by
    intro p p' t t' h' he hle
    have hpre : p ++ d <+: p' ++ d := by
      refine List.prefix_of_prefix_length_le (List.prefix_append (p ++ d) t) ?_ ?_
      · rw [he]
        exact List.prefix_append _ _
      · simp only [List.length_append]
        omega
    obtain ⟨r, hr⟩ := hpre
    have hnil : r = [] := h' p r hr.symm
    have hlen := congrArg List.length hr
    rw [hnil] at hlen
    simp only [List.length_append, List.length_nil] at hlen
    omega
  have hlen : p.length = p'.length := by
    rcases Nat.le_total p.length p'.length with hle | hle
    · exact Nat.le_antisymm hle (key h' he hle)
    · exact Nat.le_antisymm (key h he.symm hle) hle
  rw [List.append_assoc, List.append_assoc] at he
  obtain ⟨h1, h2⟩ := List.append_inj he hlen
  exact ⟨h1, List.append_cancel_left h2⟩

/-! ### The pieces -/

theorem Pieces.ne_nil (h : Pieces d s l) : l ≠ [] := by
  cases h <;> simp

theorem Pieces.nil_eq (h : Pieces d [] l) (hd : d ≠ []) : l = [[]] := by
  generalize hs : ([] : List α) = s at h
  cases h with
  | last h => rfl
  | @cut p t l hp ht =>
    have hne := List.append_eq_nil_iff.mp (List.append_eq_nil_iff.mp hs.symm).1
    exact absurd hne.2 hd

theorem intercalate_cons (d p : List α) (hl : l ≠ []) :
    d.intercalate (p :: l) = p ++ d ++ d.intercalate l := by
  cases l with
  | nil => exact absurd rfl hl
  | cons x l => simp [List.intercalate, List.intersperse, List.append_assoc]

/-- **Joining the pieces gives the list back.** -/
theorem Pieces.join (h : Pieces d s l) : d.intercalate l = s := by
  induction h with
  | last h => simp [List.intercalate]
  | cut hp ht ih => rw [intercalate_cons _ _ ht.ne_nil, ih]

theorem Pieces.not_infix (h : Pieces d s l) (hd : d ≠ []) : ∀ x ∈ l, ¬ d <:+: x := by
  induction h with
  | last h => simpa using h
  | cut hp ht ih => exact List.forall_mem_cons.mpr ⟨hp.not_infix hd, ih⟩

theorem Pieces.unique (h : Pieces d s l) : ∀ {l' : List (List α)}, Pieces d s l' → l = l' := by
  induction h with
  | @last s h =>
    intro l' h'
    cases h' with
    | last => rfl
    | @cut p t l hp ht => exact absurd (List.infix_append p d t) h
  | @cut p t l hp ht ih =>
    intro l' h'
    generalize hs : p ++ d ++ t = s at h'
    cases h' with
    | last h' =>
      rw [← hs] at h'
      exact absurd (List.infix_append p d t) h'
    | @cut p' t' l' hp' ht' =>
      obtain ⟨rfl, rfl⟩ := hp.unique hp' hs
      rw [ih ht']

section Occurrences

variable [BEq α]

theorem occurrences_skip (d : List α) : ∀ (x t : List α),
    occurrences d x.length (x ++ t) = occurrences d 0 t
  | [], _ => rfl
  | _ :: x, t => occurrences_skip d x t

variable [LawfulBEq α]

theorem occurrences_zero : ∀ {s : List α}, ¬ d <:+: s → occurrences d 0 s = 0
  | [], _ => rfl
  | c :: s, h => by
    have hpre : ¬ d.isPrefixOf (c :: s) = true := fun hp =>
      h (List.isPrefixOf_iff_prefix.mp hp).isInfix
    rw [occurrences, if_neg hpre]
    exact occurrences_zero fun hs => h (hs.trans (List.suffix_cons c s).isInfix)

theorem occurrences_first (hd : d ≠ []) : ∀ {p : List α}, First d p →
    ∀ t, occurrences d 0 (p ++ d ++ t) = occurrences d 0 t + 1
  | [], _, t => by
    cases d with
    | nil => exact absurd rfl hd
    | cons c d =>
      have hpre : (c :: d).isPrefixOf (c :: (d ++ t)) = true :=
        List.isPrefixOf_iff_prefix.mpr ⟨t, rfl⟩
      show occurrences (c :: d) 0 (c :: (d ++ t)) = _
      rw [occurrences, if_pos hpre]
      exact congrArg (· + 1) (occurrences_skip (c :: d) d t)
  | c :: p, h, t => by
    have hpre : ¬ d.isPrefixOf (c :: (p ++ d ++ t)) = true := by
      intro hp
      have hp : d <+: (c :: p) ++ d ++ t := List.isPrefixOf_iff_prefix.mp hp
      have hle : d <+: (c :: p) ++ d :=
        List.prefix_of_prefix_length_le hp (List.prefix_append _ _) (by simp; omega)
      obtain ⟨r, hr⟩ := hle
      have hlen := congrArg List.length hr
      rw [h [] r hr.symm] at hlen
      simp only [List.length_append, List.length_cons, List.length_nil] at hlen
      omega
    show occurrences d 0 (c :: (p ++ d ++ t)) = _
    rw [occurrences, if_neg hpre]
    exact occurrences_first hd h.tail t

/-- **One piece more than there are occurrences.** -/
theorem Pieces.length_eq (h : Pieces d s l) (hd : d ≠ []) :
    l.length = occurrences d 0 s + 1 := by
  induction h with
  | last h => rw [occurrences_zero h]; rfl
  | cut hp ht ih => rw [occurrences_first hd hp, List.length_cons, ih]

end Occurrences

end Joda.Lib.Cut
