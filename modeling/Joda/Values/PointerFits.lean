import Joda.Values.PointerSet

/-! # What `Set` keeps

`Set` overwrites what does not fit the next token: an array, if the token is not an index, and a value
without children. Where a pointer fits a document (`Fits`), setting a value at it changes nothing that a
pointer beside it leads to, but for the nulls that fill an array up (`set_keeps`). So values that are
set at pointers beside each other are all there in the end (`setAll_keeps`). -/

namespace Joda.Values.PointerFits

open Joda.Values.Value Joda.Values.Pointer Joda.Values.PointerSet

variable {F : Type}

/-- One of the pointers leads through what the other one leads to. -/
def Overlap (p q : RJPointer) : Prop := p <+: q ∨ q <+: p

/-- **A pointer fits a document**: the arrays on the way are entered by an index. -/
def Fits : RJPointer → RJValue F → Prop
  | [], _ => True
  | t :: p, doc => (kind doc = .array → (arrayIndex t).isSome = true) ∧ ∀ w, child doc t = some w → Fits p w

/-- **One pointer can be set after the other**: where they part they do not make an array and then ask
for a member of it. -/
def Follows : RJPointer → RJPointer → RJValue F → Prop
  | t :: p, u :: q, doc =>
    (t = u ∧ Follows p q ((child doc t).getD .null)) ∨
      (t ≠ u ∧ (kind doc = .object ∨ (arrayIndex t = none ∨ (arrayIndex u).isSome = true)))
  | _, _, _ => True

/-! ### One step -/

theorem Overlap.cons {t : Str} {p q : RJPointer} (h : Overlap p q) : Overlap (t :: p) (t :: q) :=
  h.imp (List.prefix_cons_inj t).mpr (List.prefix_cons_inj t).mpr

theorem overlap_nil_left (q : RJPointer) : Overlap [] q := Or.inl List.nil_prefix

theorem overlap_nil_right (p : RJPointer) : Overlap p [] := Or.inr List.nil_prefix

theorem fits_null (p : RJPointer) : Fits p (.null : RJValue F) := by
  cases p with
  | nil => trivial
  | cons t p => exact ⟨fun h => (by cases h), fun w hw => (by cases hw)⟩

section Step

variable {t : Str} {p : RJPointer} {doc : RJValue F}

theorem Fits.plain (h : Fits (t :: p) doc) : Plain t doc := fun ht hkind => by
  have := h.1 hkind
  rw [ht, arrayIndex_dash] at this
  cases this

/-- A null that is made is an element of an array, before the index of the token. -/
theorem lt_of_padded {u : Str} {w : RJValue F} (h : padded t u = some w) (hu : u ≠ t) :
    w = .null ∧ ∃ i j, arrayIndex t = some i ∧ arrayIndex u = some j ∧ j < i := by
  obtain ⟨i, hi, h⟩ := Option.bind_eq_some_iff.mp h
  obtain ⟨j, hj, h⟩ := Option.bind_eq_some_iff.mp h
  split_ifs at h with hle
  refine ⟨(Option.some.inj h).symm, i, j, hi, hj, lt_of_le_of_ne hle ?_⟩
  rintro rfl
  exact hu (arrayIndex_injective hj hi)

/-- What is made for the token has the children there were, and nulls before its index in an array. -/
theorem Fits.child_coerce (h : Fits (t :: p) doc) {u : Str} (hu : u ≠ t) :
    child (coerce t doc) u = child doc u ∨
      (child doc u = none ∧ child (coerce t doc) u = some .null ∧ kind (coerce t doc) = .array ∧
        ∃ i j, arrayIndex t = some i ∧ arrayIndex u = some j ∧ j < i) := by
  rw [PointerSet.child_coerce h.plain, kind_coerce h.plain]
  split_ifs with hobj hindex
  · exact Or.inl rfl
  · cases hw : child doc u with
    | some w => exact Or.inl rfl
    | none =>
      rw [Option.none_or]
      cases hp : padded (F := F) t u with
      | none => exact Or.inl rfl
      | some w =>
        obtain ⟨rfl, hlt⟩ := lt_of_padded hp hu
        exact Or.inr ⟨rfl, rfl, rfl, hlt⟩
  · refine Or.inl (child_scalar ?_ ?_ u).symm
    · exact fun hkind => hobj (by rw [hkind]; rfl)
    · exact fun hkind => hindex (h.1 hkind)

theorem Fits.getD_child (h : Fits (t :: p) doc) (u : Str) :
    (child (coerce t doc) u).getD .null = (child doc u).getD .null := by
  cases hw : child (coerce t doc) u with
  | none =>
    rw [PointerSet.child_coerce h.plain] at hw
    split_ifs at hw with hobj hindex
    · rw [hw]
    · rw [(Option.or_eq_none_iff.mp hw).1]
    · rw [child_scalar (fun hkind => hobj (by rw [hkind]; rfl)) fun hkind => hindex (h.1 hkind)]
  | some w =>
    rcases PointerSet.child_coerce_eq h.plain hw with hold | rfl
    · rw [hold]
    · rw [PointerSet.child_coerce h.plain] at hw
      split_ifs at hw with hobj hindex
      · rw [hw]
      · rcases Option.or_eq_some_iff.mp hw with hold | ⟨hnone, -⟩
        · rw [hold]
        · rw [hnone]
          rfl

theorem Fits.below (h : Fits (t :: p) doc) : Fits p ((child doc t).getD .null) := by
  cases hw : child doc t with
  | none => exact fits_null p
  | some w => exact h.2 w hw

/-- The children after a value was set. -/
theorem Fits.child_set (h : Fits (t :: p) doc) (v : RJValue F) (u : Str) :
    child (set (t :: p) v doc) u =
      if u = t then some (set p v ((child doc t).getD .null)) else child (coerce t doc) u := by
  rw [PointerSet.child_set h.plain, h.getD_child]

end Step

/-! ### What is kept -/

/-- **An element that fills an array up**: the second pointer leads to an element of an array, in which the
first one goes on at a later index. -/
def Padding : RJPointer → RJPointer → RJValue F → Prop
  | t :: p, u :: q, doc =>
    (t = u ∧ ∃ w, child doc t = some w ∧ Padding p q w) ∨
      (q = [] ∧ kind doc = .array ∧ ∃ i j, arrayIndex t = some i ∧ arrayIndex u = some j ∧ j < i)
  | _, _, _ => False

/-- What a pointer leads to is as it was, or it is a null that fills an array up to one of the
destinations. -/
def Kept (ptrs : List RJPointer) (before after : RJValue F) (q : RJPointer) : Prop :=
  get after q = get before q ∨
    get before q = none ∧ get after q = some .null ∧ ∃ p ∈ ptrs, Padding p q after

theorem get_null {q : RJPointer} (h : q ≠ []) : get (.null : RJValue F) q = none := by
  cases q with
  | nil => exact absurd rfl h
  | cons u q => rfl

theorem get_set_self {v : RJValue F} : ∀ {p : RJPointer} {doc : RJValue F}, Fits p doc →
    get (set p v doc) p = some v
  | [], doc, _ => get_nil v
  | t :: p, doc, h => by
    rw [get_cons, h.child_set, if_pos rfl]
    exact get_set_self h.below

/-- **A pointer beside the one that is set.** -/
theorem set_keeps {v : RJValue F} : ∀ {p q : RJPointer} {doc : RJValue F}, Fits p doc →
    ¬ Overlap p q → Kept [p] doc (set p v doc) q
  | [], q, _, _, h => absurd (overlap_nil_left q) h
  | _ :: _, [], _, _, h => absurd (overlap_nil_right _) h
  | t :: p, u :: q, doc, hfits, h => by
    unfold Kept
    rw [get_cons, get_cons, hfits.child_set]
    by_cases hu : u = t
    · subst hu
      have hbeside : ¬ Overlap p q := fun h' => h h'.cons
      have ih := set_keeps (v := v) hfits.below hbeside
      rw [if_pos rfl, Option.bind_some]
      have hbefore : get ((child doc u).getD .null) q = (child doc u).bind fun w => get w q := by
        cases hw : child doc u with
        | some w => rfl
        | none =>
          have hq : q ≠ [] := fun hq => hbeside (hq ▸ overlap_nil_right p)
          exact get_null hq
      rw [← hbefore]
      refine ih.imp id fun hnull => ⟨hnull.1, hnull.2.1, u :: p, List.mem_singleton_self _, Or.inl ⟨rfl, ?_⟩⟩
      obtain ⟨p', hp', hpadding⟩ := hnull.2.2
      obtain rfl := List.mem_singleton.mp hp'
      exact ⟨_, by rw [hfits.child_set, if_pos rfl], hpadding⟩
    · rw [if_neg hu]
      rcases hfits.child_coerce hu with heq | ⟨hnone, hnull, hkind, hlt⟩
      · rw [heq]
        exact Or.inl rfl
      · rw [hnone, hnull]
        by_cases hq : q = []
        · subst hq
          refine Or.inr ⟨rfl, get_nil _, t :: p, List.mem_singleton_self _, Or.inr ⟨rfl, ?_, hlt⟩⟩
          rw [kind_set, hkind]
        · exact Or.inl (get_null hq)

/-- An element that fills an array up is one after a value was set beside it. -/
theorem Padding.set {v : RJValue F} : ∀ {p p' q : RJPointer} {doc : RJValue F}, Padding p q doc →
    Fits p' doc → ¬ Overlap p' q → Padding p q (set p' v doc)
  | _, [], q, _, _, _, h => absurd (overlap_nil_left q) h
  | _, _ :: _, [], _, _, _, h => absurd (overlap_nil_right _) h
  | [], _ :: _, _ :: _, _, h, _, _ => absurd h (by simp [Padding])
  | t :: p, s :: p', u :: q, doc, h, hfits, hbeside => by
    rcases h with ⟨rfl, w, hw, h⟩ | ⟨rfl, hkind, hlt⟩
    · refine Or.inl ⟨rfl, ?_⟩
      by_cases hs : t = s
      · subst hs
        have hbelow : ¬ Overlap p' q := fun h' => hbeside h'.cons
        refine ⟨_, by rw [hfits.child_set, if_pos rfl], ?_⟩
        rw [hw, Option.getD_some]
        exact Padding.set h (hfits.2 w hw) hbelow
      · refine ⟨w, ?_, h⟩
        rw [hfits.child_set, if_neg hs]
        rcases hfits.child_coerce hs with heq | ⟨hnone, -⟩
        · rw [heq, hw]
        · rw [hw] at hnone
          cases hnone
    · refine Or.inr ⟨rfl, ?_, hlt⟩
      rw [kind_set, kind_coerce hfits.plain, hkind, if_neg (by simp [Kind.isObject]),
        if_pos (hfits.1 hkind)]

/-- A pointer that can be set after another one still fits. -/
theorem Fits.set {v : RJValue F} : ∀ {p q : RJPointer} {doc : RJValue F}, Fits p doc → Fits q doc →
    ¬ Overlap p q → Follows p q doc → Fits q (set p v doc)
  | [], q, _, _, _, h, _ => absurd (overlap_nil_left q) h
  | _ :: _, [], _, _, _, _, _ => trivial
  | t :: p, u :: q, doc, hp, hq, h, hfollows => by
    refine ⟨fun hkind => ?_, fun w hw => ?_⟩
    · rw [kind_set, kind_coerce hp.plain] at hkind
      split_ifs at hkind with hobj hindex
      · rcases hfollows with ⟨rfl, -⟩ | ⟨-, hobject | hnone | hsome⟩
        · exact hindex
        · rw [hobject] at hobj
          exact absurd rfl hobj
        · rw [hnone] at hindex
          cases hindex
        · exact hsome
    · rw [hp.child_set] at hw
      split_ifs at hw with hu
      · obtain rfl := Option.some.inj hw
        subst hu
        rcases hfollows with ⟨-, hbelow⟩ | ⟨hne, -⟩
        · exact Fits.set hp.below hq.below (fun h' => h h'.cons) hbelow
        · exact absurd rfl hne
      · rcases child_coerce_eq hp.plain hw with hold | rfl
        · exact hq.2 w hold
        · exact fits_null q

/-- Setting a value beside a pointer leaves what can be set after it. -/
theorem Follows.set {v : RJValue F} : ∀ {p q r : RJPointer} {doc : RJValue F}, Fits p doc →
    ¬ Overlap p q → Follows q r doc → Follows q r (set p v doc)
  | [], q, _, _, _, h, _ => absurd (overlap_nil_left q) h
  | _ :: _, [], _, _, _, h, _ => absurd (overlap_nil_right _) h
  | _ :: _, _ :: _, [], _, _, _, _ => trivial
  | t :: p, u :: q, s :: r, doc, hp, h, hfollows => by
    rcases hfollows with ⟨rfl, hbelow⟩ | ⟨hne, hobject | htokens⟩
    · refine Or.inl ⟨rfl, ?_⟩
      rw [hp.child_set]
      by_cases hu : u = t
      · subst hu
        rw [if_pos rfl]
        exact Follows.set hp.below (fun h' => h h'.cons) hbelow
      · rwa [if_neg hu, hp.getD_child]
    · refine Or.inr ⟨hne, Or.inl ?_⟩
      rw [kind_set, kind_coerce hp.plain, hobject]
      rfl
    · exact Or.inr ⟨hne, Or.inr htokens⟩

/-- **Values that are set one after the other** are all where they were set, and what is beside them is
kept. -/
theorem setAll_keeps : ∀ {l : List (RJPointer × RJValue F)} {doc : RJValue F},
    (∀ e ∈ l, Fits e.1 doc) →
      (l.Pairwise fun a b => ¬ Overlap a.1 b.1 ∧ Follows a.1 b.1 doc) →
      (∀ e ∈ l, get (setAll l doc) e.1 = some e.2) ∧
        (∀ q, (∀ e ∈ l, ¬ Overlap e.1 q) → Kept (l.map Prod.fst) doc (setAll l doc) q) ∧
          ∀ p q, (∀ e ∈ l, ¬ Overlap e.1 q) → Padding p q doc → Padding p q (setAll l doc)
  | [], doc, _, _ =>
    ⟨fun e he => absurd he List.not_mem_nil, fun q _ => Or.inl rfl, fun _ _ _ h => h⟩
  | e :: l, doc, hfits, hpairs => by
    obtain ⟨hhead, htail⟩ := List.pairwise_cons.mp hpairs
    have he := hfits e List.mem_cons_self
    have hfits' : ∀ e' ∈ l, Fits e'.1 (set e.1 e.2 doc) := fun e' he' =>
      he.set (hfits e' (List.mem_cons_of_mem _ he')) (hhead e' he').1 (hhead e' he').2
    have hpairs' : l.Pairwise fun a b => ¬ Overlap a.1 b.1 ∧ Follows a.1 b.1 (set e.1 e.2 doc) :=
      htail.imp_of_mem fun {a b} ha _ hab => ⟨hab.1, hab.2.set he (hhead a ha).1⟩
    obtain ⟨hset, hkept, hpadding⟩ := setAll_keeps hfits' hpairs'
    have hall : setAll (e :: l) doc = setAll l (set e.1 e.2 doc) := rfl
    rw [hall]
    refine ⟨fun e' he' => ?_, fun q hq => ?_, fun p q hq h => ?_⟩
    · rcases List.mem_cons.mp he' with rfl | he'
      · have hself := get_set_self (v := e'.2) he
        rcases hkept e'.1 fun b hb h => (hhead b hb).1 h.symm with heq | ⟨hnone, -⟩
        · rw [heq, hself]
        · rw [hself] at hnone
          cases hnone
      · exact hset e' he'
    · obtain ⟨hqe, hql⟩ := List.forall_mem_cons.mp hq
      rcases hkept q hql with hrest | ⟨hrest, hnull, p, hp, hlt⟩
      · rcases set_keeps (v := e.2) he hqe with hfirst | ⟨hnone, hnull, p, hp, hlt⟩
        · exact Or.inl (hrest.trans hfirst)
        · obtain rfl := List.mem_singleton.mp hp
          exact Or.inr ⟨hnone, hrest.trans hnull, e.1, List.mem_cons_self, hpadding _ _ hql hlt⟩
      · rcases set_keeps (v := e.2) he hqe with hfirst | ⟨-, hsome, -⟩
        · exact Or.inr ⟨hfirst ▸ hrest, hnull, p, List.mem_cons_of_mem _ hp, hlt⟩
        · rw [hsome] at hrest
          cases hrest
    · obtain ⟨hqe, hql⟩ := List.forall_mem_cons.mp hq
      exact hpadding p q hql (h.set he hqe)

end Joda.Values.PointerFits
