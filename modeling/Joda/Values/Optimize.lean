import Joda.Values.Provider

/-! # The optimiser of expressions

`optimize` changes the parameters of an expression in place and may return another expression to be
put in its place. A connective with a constant operand is replaced by the other operand, by its
negation or by a constant, and a double negation by what is negated.

What is put in the place of an expression is a duplicate: the constructors of the functions in it run
again, and may find parameters that have become constant meanwhile (`Remade`).

An expression is read in four ways: as a condition, where whatever is not true counts as false; by
`NOT`, which tells `false` from what is not Boolean; as a value; and as the parameter of a function,
which sees its type as well. A connective is Boolean whatever its operands are. The operand that takes
its place need not be, and a negation of it is null then; `Keeps` asks that it is where this is
seen. -/

namespace Joda.Values.Optimize

open Joda.Values.Value Joda.Values.Provider Joda.Values.Provider.IValueProvider

variable {D F : Type} [Double F] [RapidJsonDocument D F]

/-! ### `optimize` -/

/-- What a connective with a constant operand is replaced by. -/
inductive Fold where
  | constant (b : Bool)
  | operand
  | negation

/-- `Calc::optimize(bool lhs, rhs)` -/
def foldLeft : BoolCalc → Bool → Fold
  | .and, true => .operand
  | .and, false => .constant false
  | .or, true => .constant true
  | .or, false => .operand
  | .xor, true => .negation
  | .xor, false => .operand
  | .implication, true => .operand
  | .implication, false => .constant true

/-- `Calc::optimize(lhs, bool rhs)` -/
def foldRight : BoolCalc → Bool → Fold
  | .and, true => .operand
  | .and, false => .constant false
  | .or, true => .constant true
  | .or, false => .operand
  | .xor, true => .negation
  | .xor, false => .operand
  | .implication, true => .constant true
  | .implication, false => .negation

def Fold.apply (p : IValueProvider D F) : Fold → IValueProvider D F
  | constant b => .atom (.bool b)
  | operand => duplicate p
  | negation => .not (duplicate p)

/-- The value of a constant Boolean atom. -/
def constBool (p : IValueProvider D F) : Option Bool :=
  if p.isConst && p.isBool && p.isAtom then
    some (RJValue.asBool (getValue (RapidJsonDocument.empty : D) p))
  else none

/-- `BinaryBoolProvider::optimize`, the parameters being optimised. -/
def replaceBool (op : BoolCalc) (lhs rhs : IValueProvider D F) : Option (IValueProvider D F) :=
  match constBool lhs with
  | some l => some ((foldLeft op l).apply rhs)
  | none => (constBool rhs).map fun r => (foldRight op r).apply lhs

/-- `NotProvider::optimize`, the parameter being optimised. -/
def replaceNot : IValueProvider D F → Option (IValueProvider D F)
  | .not x => some (duplicate x)
  | _ => none

mutual

/-- **`optimize`**: the expression after it, and what it returns (`none` for the null pointer). -/
def optimize : IValueProvider D F → IValueProvider D F × Option (IValueProvider D F)
  | .atom val => (.atom val, none)
  | .null => (.null, none)
  | .pointer ptrStr => (.pointer ptrStr, none)
  | .bool op lhs rhs =>
    let lhs := (optimize lhs).2.getD (optimize lhs).1
    let rhs := (optimize rhs).2.getD (optimize rhs).1
    (.bool op lhs rhs, replaceBool op lhs rhs)
  | .not sub =>
    let sub := (optimize sub).2.getD (optimize sub).1
    (.not sub, replaceNot sub)
  | .equality op lhs rhs =>
    (.equality op ((optimize lhs).2.getD (optimize lhs).1) ((optimize rhs).2.getD (optimize rhs).1),
      none)
  | .comparison op lhs rhs =>
    (.comparison op ((optimize lhs).2.getD (optimize lhs).1)
      ((optimize rhs).2.getD (optimize rhs).1), none)
  | .number op opMode lhs rhs =>
    (.number op opMode ((optimize lhs).2.getD (optimize lhs).1)
      ((optimize rhs).2.getD (optimize rhs).1), none)
  | .func f made params => (.func f made (optimizeParams params), none)

def optimizeParams : List (IValueProvider D F) → List (IValueProvider D F)
  | [] => []
  | p :: params => (optimize p).2.getD (optimize p).1 :: optimizeParams params

end

/-- **The optimised expression**, as a parameter takes it over: what is returned, or the expression
that was changed in place. A `CHOOSE` takes over what is returned only, for `Query::getChoose` hands out
a duplicate (`chosen`). -/
def optimized (p : IValueProvider D F) : IValueProvider D F := (optimize p).2.getD (optimize p).1

theorem optimized_bool (op : BoolCalc) (lhs rhs : IValueProvider D F) :
    optimized (.bool op lhs rhs) = (replaceBool op (optimized lhs) (optimized rhs)).getD
      (.bool op (optimized lhs) (optimized rhs)) := rfl

theorem optimized_not (sub : IValueProvider D F) :
    optimized (.not sub) = (replaceNot (optimized sub)).getD (.not (optimized sub)) := rfl

theorem optimized_equality (op : EqualityCalc) (lhs rhs : IValueProvider D F) :
    optimized (.equality op lhs rhs) = .equality op (optimized lhs) (optimized rhs) := rfl

theorem optimized_comparison (op : ComparisonCalc) (lhs rhs : IValueProvider D F) :
    optimized (.comparison op lhs rhs) = .comparison op (optimized lhs) (optimized rhs) := rfl

theorem optimized_number (op : NumberCalc) (opMode : Bool) (lhs rhs : IValueProvider D F) :
    optimized (.number op opMode lhs rhs) = .number op opMode (optimized lhs) (optimized rhs) := rfl

theorem optimizeParams_eq (params : List (IValueProvider D F)) :
    optimizeParams params = params.map optimized := by
  induction params with
  | nil => rfl
  | cons p params ih =>
    rw [List.map_cons, ← ih]
    rfl

theorem optimized_func (f : Func D F) (made : List (Made F)) (params : List (IValueProvider D F)) :
    optimized (.func f made params) = .func f made (params.map optimized) := by
  rw [← optimizeParams_eq]
  rfl

/-! ### Size -/

theorem Fold.size_apply_le (fold : Fold) (p : IValueProvider D F) :
    (fold.apply p).size ≤ p.size + 1 := by
  have := p.size_pos
  cases fold <;> simp only [Fold.apply, size, size_duplicate] <;> omega

theorem size_replaceBool_le {op : BoolCalc} {lhs rhs x : IValueProvider D F}
    (h : replaceBool op lhs rhs = some x) : x.size ≤ lhs.size + rhs.size + 1 := by
  rw [replaceBool] at h
  split at h
  · rename_i l _
    rw [← Option.some.inj h]
    have := (foldLeft op l).size_apply_le rhs
    omega
  · obtain ⟨r, -, rfl⟩ := Option.map_eq_some_iff.mp h
    have := (foldRight op r).size_apply_le lhs
    omega

theorem size_replaceNot_le {sub x : IValueProvider D F} (h : replaceNot sub = some x) :
    x.size ≤ sub.size := by
  unfold replaceNot at h
  split at h
  · rw [← Option.some.inj h, size, size_duplicate]
    omega
  · cases h

mutual

/-- The optimiser makes nothing larger. -/
theorem size_optimize_le : ∀ p : IValueProvider D F,
    (optimize p).1.size ≤ p.size ∧ ∀ x, (optimize p).2 = some x → x.size ≤ p.size
  | .atom _ => ⟨Nat.le_refl _, fun x h => by cases h⟩
  | .null => ⟨Nat.le_refl _, fun x h => by cases h⟩
  | .pointer _ => ⟨Nat.le_refl _, fun x h => by cases h⟩
  | .bool op lhs rhs => by
    have hl := size_optimized_le lhs
    have hr := size_optimized_le rhs
    refine ⟨?_, fun x h => ?_⟩
    · show (IValueProvider.bool op (optimized lhs) (optimized rhs)).size ≤ _
      simp only [size]; omega
    · have h : replaceBool op (optimized lhs) (optimized rhs) = some x := h
      have := size_replaceBool_le h
      simp only [size]; omega
  | .not sub => by
    have hs := size_optimized_le sub
    refine ⟨?_, fun x h => ?_⟩
    · show (IValueProvider.not (optimized sub)).size ≤ _
      simp only [size]; omega
    · have h : replaceNot (optimized sub) = some x := h
      have := size_replaceNot_le h
      simp only [size]; omega
  | .equality op lhs rhs => by
    have hl := size_optimized_le lhs
    have hr := size_optimized_le rhs
    refine ⟨?_, fun x h => by cases h⟩
    show (IValueProvider.equality op (optimized lhs) (optimized rhs)).size ≤ _
    simp only [size]; omega
  | .comparison op lhs rhs => by
    have hl := size_optimized_le lhs
    have hr := size_optimized_le rhs
    refine ⟨?_, fun x h => by cases h⟩
    show (IValueProvider.comparison op (optimized lhs) (optimized rhs)).size ≤ _
    simp only [size]; omega
  | .number op opMode lhs rhs => by
    have hl := size_optimized_le lhs
    have hr := size_optimized_le rhs
    refine ⟨?_, fun x h => by cases h⟩
    show (IValueProvider.number op opMode (optimized lhs) (optimized rhs)).size ≤ _
    simp only [size]; omega
  | .func f made params => by
    have hp := sizes_optimizeParams_le params
    refine ⟨?_, fun x h => by cases h⟩
    show (IValueProvider.func f made (optimizeParams params)).size ≤ _
    simp only [size]; omega

theorem size_optimized_le (p : IValueProvider D F) : (optimized p).size ≤ p.size := by
  obtain ⟨h1, h2⟩ := size_optimize_le p
  rw [optimized]
  cases h : (optimize p).2 with
  | none => exact h1
  | some x => exact h2 x h

theorem sizes_optimizeParams_le : ∀ params : List (IValueProvider D F),
    sizes (optimizeParams params) ≤ sizes params
  | [] => Nat.le_refl _
  | p :: params => by
    have h1 := size_optimized_le p
    have h2 := sizes_optimizeParams_le params
    show sizes (optimized p :: optimizeParams params) ≤ _
    simp only [sizes]; omega

end

/-! ### Readings -/

/-- What is read as a Boolean. -/
def boolOf : Option (RJValue F) → Option Bool
  | some (.bool b) => some b
  | _ => none

omit [Double F] in
theorem asBool_eq (v : Option (RJValue F)) : RJValue.asBool v = (boolOf v).getD false := by
  rcases v with _ | v
  · rfl
  · cases v <;> rfl

omit [Double F] in
theorem eq_of_boolOf {v : Option (RJValue F)} {b : Bool} (h : boolOf v = some b) :
    v = some (.bool b) := by
  unfold boolOf at h
  split at h
  · rw [Option.some.inj h]
  · cases h

omit [Double F] in
theorem notValue_eq (v : Option (RJValue F)) :
    boolOf (some (notValue v)) = (boolOf v).map fun b => !b := by
  rcases v with _ | v
  · rfl
  · cases v <;> rfl

omit [Double F] in
theorem notValue_congr {v w : Option (RJValue F)} (h : boolOf v = boolOf w) :
    notValue v = notValue w := by
  have : ∀ u : Option (RJValue F), notValue u = match boolOf u with
      | some b => .bool !b
      | none => .null := by
    rintro (_ | u)
    · rfl
    · cases u <;> rfl
  rw [this v, this w, h]

/-- How an expression is read: as a condition, by `NOT`, as a value or as a parameter. -/
inductive Reading where
  | condition | negated | value | param
  deriving DecidableEq, Repr

/-- `q` is read like `p` on a document. -/
def Kept (json : D) (p q : IValueProvider D F) : Reading → Prop
  | .condition => RJValue.asBool (getValue json q) = RJValue.asBool (getValue json p)
  | .negated => boolOf (getValue json q) = boolOf (getValue json p)
  | .value => getValue json q = getValue json p
  | .param => getValue json q = getValue json p ∧ q.getReturnType = p.getReturnType ∧
    q.isAtom = p.isAtom

/-- Where it is seen, an expression is Boolean on the document. -/
def Boolean (json : D) (p : IValueProvider D F) : Reading → Prop
  | .condition => True
  | .negated => (boolOf (getValue json p)).isSome
  | .value => (boolOf (getValue json p)).isSome
  | .param => (boolOf (getValue json p)).isSome ∧ p.isBool

mutual

/-- Made again with its parameters as they are now, no function of an expression has another value on the
document. -/
def Remade (json : D) : IValueProvider D F → Prop
  | .atom _ => True
  | .null => True
  | .pointer _ => True
  | .bool _ lhs rhs => Remade json lhs ∧ Remade json rhs
  | .not sub => Remade json sub
  | .equality _ lhs rhs => Remade json lhs ∧ Remade json rhs
  | .comparison _ lhs rhs => Remade json lhs ∧ Remade json rhs
  | .number _ _ lhs rhs => Remade json lhs ∧ Remade json rhs
  | .func f made params => RemadeParameters json params ∧
    f.calculate ((duplicateParameters params).map madeOf) json (getParams json params) =
      f.calculate made json (getParams json params)

def RemadeParameters (json : D) : List (IValueProvider D F) → Prop
  | [] => True
  | p :: params => Remade json p ∧ RemadeParameters json params

end

/-- The condition on the operand a connective is folded to, with the condition on the operand
itself. -/
def FoldKeeps (json : D) (keeps : Reading → Prop) (p : IValueProvider D F) (r : Reading) :
    Fold → Prop
  | .constant _ => True
  | .operand => keeps r ∧ Boolean json p r ∧ Remade json (optimized p)
  | .negation => keeps .negated ∧ Boolean json p .negated ∧ Remade json (optimized p)

/-- The condition on a negation: the expression that takes the place of a double one is Boolean where
this is seen. -/
def NotKeeps (json : D) (sub : IValueProvider D F) (r : Reading) : IValueProvider D F → Prop
  | .not x => Remade json x ∧
    match r with
    | .condition => True
    | .negated => True
    | .value => (boolOf (getValue json sub)).isSome
    | .param => (boolOf (getValue json sub)).isSome ∧ x.isBool
  | _ => True

mutual

/-- **The condition**: no fold leaves an operand in the place of a connective that is not Boolean and
is read otherwise than as a condition, or under a negation, or one with a function that changes when it
is made again. An operand that is dropped does not matter. -/
def Keeps (json : D) : IValueProvider D F → Reading → Prop
  | .atom _, _ => True
  | .null, _ => True
  | .pointer _, _ => True
  | .bool op lhs rhs, r =>
    match constBool (optimized lhs), constBool (optimized rhs) with
    | some l, _ => Keeps json lhs .condition ∧ FoldKeeps json (Keeps json rhs) rhs r (foldLeft op l)
    | none, some b => Keeps json rhs .condition ∧ FoldKeeps json (Keeps json lhs) lhs r (foldRight op b)
    | none, none => Keeps json lhs .condition ∧ Keeps json rhs .condition
  | .not sub, r => Keeps json sub .negated ∧ NotKeeps json sub r (optimized sub)
  | .equality _ lhs rhs, _ => Keeps json lhs .value ∧ Keeps json rhs .value
  | .comparison _ lhs rhs, _ => Keeps json lhs .value ∧ Keeps json rhs .value
  | .number _ _ lhs rhs, _ => Keeps json lhs .value ∧ Keeps json rhs .value
  | .func _ _ params, _ => KeepsParams json params

def KeepsParams (json : D) : List (IValueProvider D F) → Prop
  | [] => True
  | p :: params => Keeps json p .param ∧ KeepsParams json params

end

/-! ### What is kept -/

theorem Kept.of_eq {json : D} {p q : IValueProvider D F} {r : Reading}
    (hv : getValue json q = getValue json p) (ht : q.getReturnType = p.getReturnType)
    (ha : q.isAtom = p.isAtom) : Kept json p q r := by
  cases r with
  | condition => exact congrArg RJValue.asBool hv
  | negated => exact congrArg boolOf hv
  | value => exact hv
  | param => exact ⟨hv, ht, ha⟩

mutual

/-- **A duplicate has the same value** where its functions have when they are made again. -/
theorem getValue_duplicate {json : D} : ∀ {p : IValueProvider D F}, Remade json p →
    getValue json (duplicate p) = getValue json p
  | .atom _, _ => rfl
  | .null, _ => rfl
  | .pointer _, _ => rfl
  | .bool _ _ _, h => by
    rw [Remade] at h
    rw [duplicate, getValue_bool, getValue_bool, getValue_duplicate h.1, getValue_duplicate h.2]
  | .not _, h => by
    rw [Remade] at h
    rw [duplicate, getValue_not, getValue_not, getValue_duplicate h]
  | .equality _ _ _, h => by
    rw [Remade] at h
    rw [duplicate, getValue_equality, getValue_equality, getValue_duplicate h.1,
      getValue_duplicate h.2]
  | .comparison _ _ _, h => by
    rw [Remade] at h
    rw [duplicate, getValue_comparison, getValue_comparison, getValue_duplicate h.1,
      getValue_duplicate h.2]
  | .number _ _ _ _, h => by
    rw [Remade] at h
    rw [duplicate, getValue_number, getValue_number, getValue_duplicate h.1,
      getValue_duplicate h.2]
  | .func _ _ _, h => by
    rw [Remade] at h
    rw [duplicate, create, getValue_func, getValue_func, getParams_duplicateParameters h.1]
    exact h.2

theorem getParams_duplicateParameters {json : D} : ∀ {params : List (IValueProvider D F)},
    RemadeParameters json params →
      getParams json (duplicateParameters params) = getParams json params
  | [], _ => rfl
  | _ :: _, h => by
    rw [RemadeParameters] at h
    rw [duplicateParameters, getParams, getParams, getReturnType_duplicate, isAtom_duplicate,
      getValue_duplicate h.1, getParams_duplicateParameters h.2]

end

/-- A duplicate is read like the expression. -/
theorem kept_duplicate {json : D} {p : IValueProvider D F} (h : Remade json p) (r : Reading) :
    Kept json p (duplicate p) r :=
  Kept.of_eq (getValue_duplicate h) (getReturnType_duplicate p) (isAtom_duplicate p)

theorem Kept.trans {json : D} {p q s : IValueProvider D F} {r : Reading} (h : Kept json p q r)
    (h' : Kept json q s r) : Kept json p s r := by
  cases r with
  | condition => exact Eq.trans h' h
  | negated => exact Eq.trans h' h
  | value => exact Eq.trans h' h
  | param => exact ⟨h'.1.trans h.1, h'.2.1.trans h.2.1, h'.2.2.trans h.2.2⟩

/-- The value of a constant Boolean atom is the same on all documents. -/
theorem constBool_spec {p : IValueProvider D F} {b : Bool} (h : constBool p = some b) (json : D) :
    RJValue.asBool (getValue json p) = b := by
  rw [constBool] at h
  split_ifs at h with hc
  simp only [Bool.and_eq_true] at hc
  rw [← Option.some.inj h, getValue_const hc.1.1 json RapidJsonDocument.empty]

/-- What a fold makes of the truth of the operand that is left. -/
def Fold.truth : Fold → Bool → Bool
  | constant b, _ => b
  | operand, x => x
  | negation, x => !x

theorem foldLeft_truth (op : BoolCalc) (l x : Bool) : (foldLeft op l).truth x = op.calculate l x := by
  cases op <;> cases l <;> cases x <;> rfl

theorem foldRight_truth (op : BoolCalc) (x r : Bool) :
    (foldRight op r).truth x = op.calculate x r := by
  cases op <;> cases r <;> cases x <;> rfl

/-- An operand in the place of a Boolean expression that is true where it is. -/
theorem kept_operand {json : D} {p q whole : IValueProvider D F} {r : Reading}
    (ht : whole.getReturnType = .IV_Bool)
    (hw : getValue json whole = some (.bool (RJValue.asBool (getValue json p))))
    (hk : Kept json p q r) (hbool : Boolean json p r) : Kept json whole q r := by
  have hvalue : (boolOf (getValue json p)).isSome → getValue json whole = getValue json p := by
    intro hs
    obtain ⟨b, hb⟩ := Option.isSome_iff_exists.mp hs
    rw [hw, eq_of_boolOf hb]
    rfl
  cases r with
  | condition =>
    have hk : RJValue.asBool (getValue json q) = RJValue.asBool (getValue json p) := hk
    show RJValue.asBool (getValue json q) = RJValue.asBool (getValue json whole)
    rw [hk, hw]
    rfl
  | negated =>
    have hk : boolOf (getValue json q) = boolOf (getValue json p) := hk
    show boolOf (getValue json q) = boolOf (getValue json whole)
    rw [hk, hvalue hbool]
  | value =>
    have hk : getValue json q = getValue json p := hk
    show getValue json q = getValue json whole
    rw [hk, hvalue hbool]
  | param =>
    have htype : p.getReturnType = .IV_Bool := by simpa [isBool] using hbool.2
    exact ⟨by rw [hvalue hbool.1]; exact hk.1, by rw [ht, ← htype]; exact hk.2.1,
      by rw [isAtom_of_isBool ht, hk.2.2, isAtom_of_isBool htype]⟩

/-- **A fold** in the place of a Boolean expression with the value it should have. -/
theorem Fold.kept {json : D} {p whole : IValueProvider D F} {r : Reading} (fold : Fold)
    (ht : whole.getReturnType = .IV_Bool)
    (hw : getValue json whole = some (.bool (fold.truth (RJValue.asBool (getValue json p)))))
    (h : FoldKeeps json (Kept json p (optimized p)) p r fold) :
    Kept json whole (fold.apply (optimized p)) r := by
  have ha := isAtom_of_isBool ht
  cases fold with
  | constant b => exact Kept.of_eq (by rw [hw]; rfl) (by rw [ht]; rfl) (by rw [ha]; rfl)
  | operand =>
    obtain ⟨hk, hbool, hmade⟩ := h
    exact kept_operand ht hw (hk.trans (kept_duplicate hmade r)) hbool
  | negation =>
    obtain ⟨hk, hbool, hmade⟩ := h
    obtain ⟨b, hs⟩ := Option.isSome_iff_exists.mp hbool
    have hp : getValue json p = some (.bool b) := eq_of_boolOf hs
    have hk : boolOf (getValue json (duplicate (optimized p))) = boolOf (getValue json p) :=
      hk.trans (kept_duplicate hmade .negated)
    have hopt : getValue json (duplicate (optimized p)) = some (.bool b) := eq_of_boolOf (hk.trans hs)
    refine Kept.of_eq ?_ (by rw [ht]; rfl) (by rw [ha]; rfl)
    show getValue json (.not (duplicate (optimized p))) = getValue json whole
    rw [hw, hp, getValue_not, hopt]
    rfl

/-- A connective whose operands are kept as conditions. -/
theorem kept_bool {json : D} {op : BoolCalc} {lhs rhs : IValueProvider D F}
    (hl : Kept json lhs (optimized lhs) .condition) (hr : Kept json rhs (optimized rhs) .condition)
    (r : Reading) : Kept json (.bool op lhs rhs) (.bool op (optimized lhs) (optimized rhs)) r := by
  have hl : RJValue.asBool (getValue json (optimized lhs)) = RJValue.asBool (getValue json lhs) := hl
  have hr : RJValue.asBool (getValue json (optimized rhs)) = RJValue.asBool (getValue json rhs) := hr
  exact Kept.of_eq (by rw [getValue_bool, getValue_bool, hl, hr]) rfl rfl

/-- A negation, in the place of which the one below it may have put what it negates. -/
theorem kept_not {json : D} {sub : IValueProvider D F} {r : Reading}
    (hk : Kept json sub (optimized sub) .negated) (hn : NotKeeps json sub r (optimized sub)) :
    Kept json (.not sub) (optimized (.not sub)) r := by
  have hk : boolOf (getValue json (optimized sub)) = boolOf (getValue json sub) := hk
  rw [optimized_not]
  by_cases hnot : ∃ x, optimized sub = .not x
  · obtain ⟨x, hsub⟩ := hnot
    rw [hsub] at hk hn ⊢
    obtain ⟨hmade, hn⟩ := hn
    rw [getValue_not, notValue_eq] at hk
    have hx : boolOf (getValue json x) = boolOf (getValue json (.not sub)) := by
      rw [getValue_not, notValue_eq, ← hk, Option.map_map]
      cases boolOf (getValue json x) <;> simp
    have hvalue : (boolOf (getValue json sub)).isSome →
        getValue json x = getValue json (.not sub) := by
      intro hs
      obtain ⟨b, hb⟩ := Option.isSome_iff_exists.mp hs
      have hb' : boolOf (getValue json (.not sub)) = some !b := by
        rw [getValue_not, notValue_eq, hb]
        rfl
      rw [eq_of_boolOf hb', eq_of_boolOf (hx.trans hb')]
    refine Kept.trans (q := x) ?_ (kept_duplicate hmade r)
    cases r with
    | condition =>
      show RJValue.asBool _ = RJValue.asBool _
      rw [asBool_eq, asBool_eq, hx]
    | negated => exact hx
    | value => exact hvalue hn
    | param =>
      have htype : x.getReturnType = .IV_Bool := by simpa [isBool] using hn.2
      exact ⟨hvalue hn.1, htype, isAtom_of_isBool htype⟩
  · have hnone : replaceNot (optimized sub) = none := by
      unfold replaceNot
      split
      · rename_i x heq
        exact absurd ⟨x, heq⟩ hnot
      · rfl
    rw [hnone, Option.getD_none]
    refine Kept.of_eq ?_ rfl rfl
    rw [getValue_not, getValue_not, notValue_congr hk]

mutual

/-- **An expression that meets the condition is read as before** when it is optimised. The induction
is over the expression; every reading of it is covered, for the one above it may have any. -/
theorem keeps_kept (json : D) : ∀ (p : IValueProvider D F) (r : Reading), Keeps json p r →
    Kept json p (optimized p) r
  | .atom _, r, _ => Kept.of_eq rfl rfl rfl
  | .null, r, _ => Kept.of_eq rfl rfl rfl
  | .pointer _, r, _ => Kept.of_eq rfl rfl rfl
  | .bool op lhs rhs, r, h => by
    rw [Keeps] at h
    rw [optimized_bool, replaceBool]
    cases hl : constBool (optimized lhs) with
    | some l =>
      simp only [hl] at h
      have hlhs := h.1
      have hrhs : FoldKeeps json (Keeps json rhs) rhs r (foldLeft op l) := h.2
      have hl' := constBool_spec hl json
      have hk : RJValue.asBool (getValue json (optimized lhs)) =
          RJValue.asBool (getValue json lhs) := keeps_kept json lhs .condition hlhs
      refine Fold.kept (foldLeft op l) rfl ?_ ?_
      · rw [foldLeft_truth, getValue_bool, ← hk, hl']
      · revert hrhs
        cases foldLeft op l with
        | constant b => exact id
        | operand => exact fun hrhs => ⟨keeps_kept json rhs r hrhs.1, hrhs.2⟩
        | negation => exact fun hrhs => ⟨keeps_kept json rhs .negated hrhs.1, hrhs.2⟩
    | none =>
      cases hr : constBool (optimized rhs) with
      | some b =>
        simp only [hl, hr] at h
        have hrhs := h.1
        have hlhs : FoldKeeps json (Keeps json lhs) lhs r (foldRight op b) := h.2
        have hr' := constBool_spec hr json
        have hk : RJValue.asBool (getValue json (optimized rhs)) =
            RJValue.asBool (getValue json rhs) := keeps_kept json rhs .condition hrhs
        refine Fold.kept (foldRight op b) rfl ?_ ?_
        · rw [foldRight_truth, getValue_bool, ← hk, hr']
        · revert hlhs
          cases foldRight op b with
          | constant b => exact id
          | operand => exact fun hlhs => ⟨keeps_kept json lhs r hlhs.1, hlhs.2⟩
          | negation => exact fun hlhs => ⟨keeps_kept json lhs .negated hlhs.1, hlhs.2⟩
      | none =>
        simp only [hl, hr] at h
        exact kept_bool (keeps_kept json lhs _ h.1) (keeps_kept json rhs _ h.2) r
  | .not sub, r, h => by
    rw [Keeps] at h
    exact kept_not (keeps_kept json sub .negated h.1) h.2
  | .equality op lhs rhs, r, h => by
    rw [Keeps] at h
    have hl : getValue json (optimized lhs) = getValue json lhs := keeps_kept json lhs .value h.1
    have hr : getValue json (optimized rhs) = getValue json rhs := keeps_kept json rhs .value h.2
    rw [optimized_equality]
    exact Kept.of_eq (by rw [getValue_equality, getValue_equality, hl, hr]) rfl rfl
  | .comparison op lhs rhs, r, h => by
    rw [Keeps] at h
    have hl : getValue json (optimized lhs) = getValue json lhs := keeps_kept json lhs .value h.1
    have hr : getValue json (optimized rhs) = getValue json rhs := keeps_kept json rhs .value h.2
    rw [optimized_comparison]
    exact Kept.of_eq (by rw [getValue_comparison, getValue_comparison, hl, hr]) rfl rfl
  | .number op _ lhs rhs, r, h => by
    rw [Keeps] at h
    have hl : getValue json (optimized lhs) = getValue json lhs := keeps_kept json lhs .value h.1
    have hr : getValue json (optimized rhs) = getValue json rhs := keeps_kept json rhs .value h.2
    rw [optimized_number]
    exact Kept.of_eq (by rw [getValue_number, getValue_number, hl, hr]) rfl rfl
  | .func f made params, r, h => by
    rw [Keeps] at h
    rw [optimized_func]
    exact Kept.of_eq (by rw [getValue_func, getValue_func, keepsParams_kept json params h]) rfl rfl

theorem keepsParams_kept (json : D) : ∀ params : List (IValueProvider D F), KeepsParams json params →
    getParams json (params.map optimized) = getParams json params
  | [], _ => rfl
  | p :: params, h => by
    rw [KeepsParams] at h
    have hp : getValue json (optimized p) = getValue json p ∧
        (optimized p).getReturnType = p.getReturnType ∧ (optimized p).isAtom = p.isAtom :=
      keeps_kept json p .param h.1
    rw [List.map_cons, getParams, getParams, hp.1, hp.2.1, hp.2.2, keepsParams_kept json params h.2]

end

/-- **The optimiser preserves what a filter selects** where the condition holds. -/
theorem check_optimized (pred : IValueProvider D F) (json : D) (h : Keeps json pred .condition) :
    check (optimized pred) json = check pred json :=
  keeps_kept json pred .condition h

/-- The predicate of a `CHOOSE` after the optimiser: what is changed in place is lost where nothing is
returned. -/
def chosen (pred : IValueProvider D F) : IValueProvider D F :=
  (optimize (duplicate pred)).2.getD pred

theorem check_chosen (pred : IValueProvider D F) (json : D) (hmade : Remade json pred)
    (h : (optimize (duplicate pred)).2.isSome → Keeps json (duplicate pred) .condition) :
    check (chosen pred) json = check pred json := by
  rw [chosen]
  cases hx : (optimize (duplicate pred)).2 with
  | none => rfl
  | some x =>
    have hkeeps := check_optimized _ json (h (by rw [hx]; rfl))
    rw [optimized, hx] at hkeeps
    rw [Option.getD_some]
    refine hkeeps.trans ?_
    rw [check, check, getValue_duplicate hmade]

/-- **Where the condition is needed**: at a connective that is folded to the negation of its right
operand, and an operand that is read by `NOT` as before. -/
theorem negation_exact {op : BoolCalc} {l : Bool} {lhs rhs : IValueProvider D F} {json : D}
    (hl : constBool (optimized lhs) = some l) (hf : foldLeft op l = .negation)
    (hlhs : Keeps json lhs .condition) (hrhs : Keeps json rhs .negated)
    (hmade : Remade json (optimized rhs)) :
    check (optimized (.bool op lhs rhs)) json = check (.bool op lhs rhs) json ↔
      (boolOf (getValue json rhs)).isSome := by
  have hopt : optimized (.bool op lhs rhs) = .not (duplicate (optimized rhs)) := by
    rw [optimized_bool, replaceBool, hl]
    show (foldLeft op l).apply (optimized rhs) = _
    rw [hf]
    rfl
  have hk : RJValue.asBool (getValue json (optimized lhs)) = RJValue.asBool (getValue json lhs) :=
    keeps_kept json lhs .condition hlhs
  have hr : boolOf (getValue json (duplicate (optimized rhs))) = boolOf (getValue json rhs) :=
    (keeps_kept json rhs .negated hrhs).trans (kept_duplicate hmade .negated)
  have hcalc : op.calculate l (RJValue.asBool (getValue json rhs)) =
      !RJValue.asBool (getValue json rhs) := by
    rw [← foldLeft_truth, hf]
    rfl
  have hnew : check (.not (duplicate (optimized rhs))) json =
      ((boolOf (getValue json rhs)).map fun b => !b).getD false := by
    rw [check, asBool_eq, getValue_not, notValue_eq, hr]
  have hold : check (.bool op lhs rhs) json = !((boolOf (getValue json rhs)).getD false) := by
    rw [check, getValue_bool, ← hk, constBool_spec hl json, hcalc, ← asBool_eq]
    rfl
  rw [hopt, hnew, hold]
  cases boolOf (getValue json rhs) <;> simp

/-- `!(true && '/a')`, where the attribute is Boolean. -/
theorem check_optimized_not_and :
    check (optimized (.not (.bool .and (.atom (.bool true)) (.pointer (ascii "/a")))))
        (⟨[(ascii "/a", .bool false)]⟩ : FlatDocument Float) =
      check (.not (.bool .and (.atom (.bool true)) (.pointer (ascii "/a"))))
        (⟨[(ascii "/a", .bool false)]⟩ : FlatDocument Float) :=
  check_optimized _ _ ⟨⟨trivial, trivial, rfl, trivial⟩, trivial⟩

/-- `XOR(true, '/a' < "b")`, where the attribute is missing, becomes `!'/a' < "b"`, which is null. -/
theorem xor_true_not_kept :
    check (optimized (.bool .xor (.atom (.bool true))
        (.comparison .less (.pointer (ascii "/a")) (.atom (.string (ascii "b"))))))
        (⟨[]⟩ : FlatDocument Float) ≠
      check (.bool .xor (.atom (.bool true))
        (.comparison .less (.pointer (ascii "/a")) (.atom (.string (ascii "b")))))
        (⟨[]⟩ : FlatDocument Float) := by
  decide

end Joda.Values.Optimize
