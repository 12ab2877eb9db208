import Joda.Execution.Container
import Joda.Index.Query
import Joda.Lib.Fuel
import Joda.Values.Optimize
import Mathlib.Logic.Relation

/-! # Mixed queries

`AdaptiveIndexExecutor::executeNextMixedQuery` answers a `CHOOSE` of which the index supports some
parts only. It asks the index for one supported part, splits the documents by the answer, puts a
constant for a part into the predicate on either side, optimises it and goes on. The part asked for is
the last supported one; the part replaced is the first. `Query::getChoose` hands out a duplicate; the
predicate of a query is as constructors made it (`Fresh`). -/

namespace Joda.Execution.MixedQuery

open Joda.Values.Value Joda.Values.Provider Joda.Values.Provider.IValueProvider
open Joda.Values.Optimize Joda.Index.Query Joda.Execution.Container Joda.Lib.Fuel

variable {D F : Type} [Double F] [RapidJsonDocument D F]

/-! ### The visitors -/

/-- **`NextPredicateVisitor`**: every supported leaf takes the place of the one before it, with its query.
It is `none` where `createQuery` is not defined for a leaf. -/
def nextPredicate (found : Option (IValueProvider D F × AdaptiveIndexQuery)) :
    IValueProvider D F → Option (Option (IValueProvider D F × AdaptiveIndexQuery))
  | .bool .and lhs rhs => (nextPredicate found lhs).bind fun found => nextPredicate found rhs
  | .bool .or lhs rhs => (nextPredicate found lhs).bind fun found => nextPredicate found rhs
  | .not sub => nextPredicate found sub
  | e => (createQuery e).map fun query => (query.map fun query => (e, query)).orElse fun _ => found

/-- **`SetPredicateVisitor`**: the first supported leaf becomes a constant. `changed` is the leaf that
has been replaced. The leaves have been visited by `NextPredicateVisitor` before. -/
def setPredicate (value : Bool) (changed : Option (IValueProvider D F)) :
    IValueProvider D F → IValueProvider D F × Option (IValueProvider D F)
  | .bool .and lhs rhs =>
    let (lhs, changed) := setPredicate value changed lhs
    let (rhs, changed) := setPredicate value changed rhs
    (.bool .and lhs rhs, changed)
  | .bool .or lhs rhs =>
    let (lhs, changed) := setPredicate value changed lhs
    let (rhs, changed) := setPredicate value changed rhs
    (.bool .or lhs rhs, changed)
  | .not sub =>
    let (sub, changed) := setPredicate value changed sub
    (.not sub, changed)
  | e =>
    if changed.isNone && (queryOf e).isSome then (.atom (.bool value), some e)
    else (duplicate e, changed)

/-! ### `executeNextMixedQuery` -/

/-- `constBoolCheck`; the constants themselves do not count. -/
def constBoolCheck (pred : IValueProvider D F) : Option Bool :=
  if pred.isBool && pred.isConst &&
      !(pred.toString == ascii "true" || pred.toString == ascii "false") then
    boolOf (getValue (RapidJsonDocument.empty : D) pred)
  else none

/-- The predicate on one side of a split. -/
def nextChoose (value : Bool) (pred : IValueProvider D F) : IValueProvider D F :=
  chosen (setPredicate value none (duplicate pred)).1

/-- **`executeNextMixedQuery`**, `none` when the fuel runs out and where a visit is not defined.
`executeQuery` is the index, which may fail. -/
def executeNextMixedQuery (cont : List D) (executeQuery : AdaptiveIndexQuery → Option DocIndex) :
    ℕ → IValueProvider D F → DocIndex → Option DocIndex
  | 0, _, _ => none
  | fuel + 1, pred, docIndex =>
    let predicate := duplicate pred
    match constBoolCheck predicate with
    | some true => some docIndex
    | some false => some ∅
    | none =>
      (nextPredicate none predicate).bind fun nextAdaptiveQuery =>
        match nextAdaptiveQuery.bind fun (_, query) => executeQuery query with
        | none => some (forAll cont (check pred) docIndex)
        | some indexResult =>
          let relevantDocs := docIndex ∩ indexResult
          (executeNextMixedQuery cont executeQuery fuel (nextChoose true pred) relevantDocs).bind
            fun resultT =>
              (executeNextMixedQuery cont executeQuery fuel (nextChoose false pred)
                (docIndex \ relevantDocs)).map fun resultF => resultT ∪ resultF

/-! ### The supported leaves -/

/-- The supported leaves of a predicate from left to right, with their queries and how they are
read. -/
def leaves : IValueProvider D F → Reading →
    List (IValueProvider D F × AdaptiveIndexQuery × Reading)
  | .bool .and lhs rhs, _ => leaves lhs .condition ++ leaves rhs .condition
  | .bool .or lhs rhs, _ => leaves lhs .condition ++ leaves rhs .condition
  | .not sub, _ => leaves sub .negated
  | e, r => ((queryOf e).map fun query => (e, query, r)).toList

/-- `createQuery` is defined for all leaves. -/
def leavesDefined : IValueProvider D F → Bool
  | .bool .and lhs rhs => leavesDefined lhs && leavesDefined rhs
  | .bool .or lhs rhs => leavesDefined lhs && leavesDefined rhs
  | .not sub => leavesDefined sub
  | e => (createQuery e).isSome

theorem nextPredicate_eq (p : IValueProvider D F) (r : Reading)
    (found : Option (IValueProvider D F × AdaptiveIndexQuery)) :
    nextPredicate found p = if leavesDefined p then
      some (((leaves p r).getLast?.map fun leaf => (leaf.1, leaf.2.1)).orElse fun _ => found)
      else none := by
  -- the two connectives ask their sides in the same way
  have connective : ∀ (lhs rhs : IValueProvider D F)
      (found : Option (IValueProvider D F × AdaptiveIndexQuery)),
      (∀ found, nextPredicate found lhs = if leavesDefined lhs then
        some (((leaves lhs .condition).getLast?.map fun leaf => (leaf.1, leaf.2.1)).orElse
          fun _ => found) else none) →
      (∀ found, nextPredicate found rhs = if leavesDefined rhs then
        some (((leaves rhs .condition).getLast?.map fun leaf => (leaf.1, leaf.2.1)).orElse
          fun _ => found) else none) →
      ((nextPredicate found lhs).bind fun found => nextPredicate found rhs) =
        if leavesDefined lhs && leavesDefined rhs then
          some (((leaves lhs .condition ++ leaves rhs .condition).getLast?.map
            fun leaf => (leaf.1, leaf.2.1)).orElse fun _ => found) else none := by
    intro lhs rhs found ihl ihr
    rw [ihl, List.getLast?_append]
    cases leavesDefined lhs with
    | false => rfl
    | true =>
      rw [if_pos rfl, Option.bind_some, ihr]
      cases leavesDefined rhs with
      | false => rfl
      | true =>
        cases (leaves rhs .condition).getLast? <;> cases (leaves lhs .condition).getLast? <;> rfl
  induction p, r using leaves.induct generalizing found with
  | case1 lhs rhs r ihl ihr =>
    rw [nextPredicate, leaves, leavesDefined, connective lhs rhs found ihl ihr]
  | case2 lhs rhs r ihl ihr =>
    rw [nextPredicate, leaves, leavesDefined, connective lhs rhs found ihl ihr]
  | case3 sub r ih => rw [nextPredicate, leaves, leavesDefined, ih]
  | case4 e r h1 h2 h3 =>
    rw [nextPredicate, leaves, leavesDefined, queryOf]
    · rcases createQuery e with _ | _ | query <;> rfl
    all_goals assumption

theorem leaves_bool {op : BoolCalc} (hop : op = .and ∨ op = .or) (lhs rhs : IValueProvider D F)
    (r : Reading) :
    leaves (.bool op lhs rhs) r = leaves lhs .condition ++ leaves rhs .condition := by
  rcases hop with rfl | rfl <;> rfl

theorem setPredicate_bool {op : BoolCalc} (hop : op = .and ∨ op = .or) (value : Bool)
    (changed : Option (IValueProvider D F)) (lhs rhs : IValueProvider D F) :
    setPredicate value changed (.bool op lhs rhs) =
      (.bool op (setPredicate value changed lhs).1
          (setPredicate value (setPredicate value changed lhs).2 rhs).1,
        (setPredicate value (setPredicate value changed lhs).2 rhs).2) := by
  rcases hop with rfl | rfl <;> rfl

theorem setPredicate_not (value : Bool) (changed : Option (IValueProvider D F))
    (sub : IValueProvider D F) : setPredicate value changed (.not sub) =
      (.not (setPredicate value changed sub).1, (setPredicate value changed sub).2) := rfl

theorem setPredicate_changed (value : Bool) (leaf p : IValueProvider D F) (r : Reading) :
    setPredicate value (some leaf) p = (duplicate p, some leaf) := by
  induction p, r using leaves.induct with
  | case1 lhs rhs r ihl ihr => rw [setPredicate_bool (Or.inl rfl), ihl, ihr, duplicate]
  | case2 lhs rhs r ihl ihr => rw [setPredicate_bool (Or.inr rfl), ihl, ihr, duplicate]
  | case3 sub r ih => rw [setPredicate_not, ih, duplicate]
  | case4 e r h1 h2 h3 =>
    rw [setPredicate]
    · simp
    all_goals assumption

theorem setPredicate_of_leaves_nil (value : Bool) {p : IValueProvider D F} {r : Reading}
    (h : leaves p r = []) : setPredicate value none p = (duplicate p, none) := by
  induction p, r using leaves.induct with
  | case1 lhs rhs r ihl ihr =>
    rw [leaves, List.append_eq_nil_iff] at h
    rw [setPredicate_bool (Or.inl rfl), ihl h.1, ihr h.2, duplicate]
  | case2 lhs rhs r ihl ihr =>
    rw [leaves, List.append_eq_nil_iff] at h
    rw [setPredicate_bool (Or.inr rfl), ihl h.1, ihr h.2, duplicate]
  | case3 sub r ih =>
    rw [leaves] at h
    rw [setPredicate_not, ih h, duplicate]
  | case4 e r h1 h2 h3 =>
    rw [leaves] at h
    · have hq : queryOf e = none := by
        cases hq : queryOf e with
        | none => rfl
        | some query => rw [hq] at h; cases h
      rw [setPredicate]
      · simp [hq]
      all_goals assumption
    all_goals assumption

/-! ### Fresh predicates -/

/-- The predicate is as its constructors made it: nothing in it has been changed since. -/
def Fresh (p : IValueProvider D F) : Prop := duplicate p = p

theorem fresh_duplicate (p : IValueProvider D F) : Fresh (duplicate p) := duplicate_duplicate p

theorem fresh_bool {op : BoolCalc} {lhs rhs : IValueProvider D F} :
    Fresh (.bool op lhs rhs) ↔ Fresh lhs ∧ Fresh rhs := by
  unfold Fresh
  rw [duplicate, IValueProvider.bool.injEq]
  simp

theorem fresh_not {sub : IValueProvider D F} : Fresh (.not sub) ↔ Fresh sub := by
  unfold Fresh
  rw [duplicate, IValueProvider.not.injEq]

/-- `SetPredicateVisitor` makes its predicate anew. -/
theorem fresh_setPredicate (value : Bool) (p : IValueProvider D F) (r : Reading) :
    ∀ changed, Fresh (setPredicate value changed p).1 := by
  induction p, r using leaves.induct with
  | case1 lhs rhs r ihl ihr =>
    intro changed
    rw [setPredicate_bool (Or.inl rfl)]
    exact fresh_bool.mpr ⟨ihl _, ihr _⟩
  | case2 lhs rhs r ihl ihr =>
    intro changed
    rw [setPredicate_bool (Or.inr rfl)]
    exact fresh_bool.mpr ⟨ihl _, ihr _⟩
  | case3 sub r ih =>
    intro changed
    rw [setPredicate_not]
    exact fresh_not.mpr (ih _)
  | case4 e r h1 h2 h3 =>
    intro changed
    rw [setPredicate]
    · split_ifs
      · rfl
      · exact fresh_duplicate e
    all_goals assumption

/-- So does the optimiser, where it returns one. -/
theorem fresh_optimize {p x : IValueProvider D F} (h : (optimize p).2 = some x) : Fresh x := by
  have hfold : ∀ (fold : Fold) (q : IValueProvider D F), Fresh (fold.apply q) := by
    intro fold q
    cases fold with
    | constant b => rfl
    | operand => exact fresh_duplicate q
    | negation => exact fresh_not.mpr (fresh_duplicate q)
  cases p with
  | bool op lhs rhs =>
    have h : replaceBool op (optimized lhs) (optimized rhs) = some x := h
    rw [replaceBool] at h
    split at h
    · rw [← Option.some.inj h]
      exact hfold _ _
    · obtain ⟨r, -, rfl⟩ := Option.map_eq_some_iff.mp h
      exact hfold _ _
  | not sub =>
    have h : replaceNot (optimized sub) = some x := h
    unfold replaceNot at h
    split at h
    · rw [← Option.some.inj h]
      exact fresh_duplicate _
    · cases h
  | _ => cases h

theorem fresh_chosen {p : IValueProvider D F} (h : Fresh p) : Fresh (chosen p) := by
  rw [chosen]
  cases hx : (optimize (duplicate p)).2 with
  | none => exact h
  | some x => exact fresh_optimize hx

theorem fresh_nextChoose (value : Bool) (p : IValueProvider D F) : Fresh (nextChoose value p) :=
  fresh_chosen (fresh_setPredicate value _ .condition _)

mutual

/-- A fresh predicate is made again as it is. -/
theorem remade_of_fresh (json : D) : ∀ {p : IValueProvider D F}, Fresh p → Remade json p
  | .atom _, _ => trivial
  | .null, _ => trivial
  | .pointer _, _ => trivial
  | .bool _ _ _, h => by
    rw [Remade]
    exact ⟨remade_of_fresh json (fresh_bool.mp h).1, remade_of_fresh json (fresh_bool.mp h).2⟩
  | .not _, h => by
    rw [Remade]
    exact remade_of_fresh json (fresh_not.mp h)
  | .equality _ lhs rhs, h => by
    unfold Fresh at h
    rw [duplicate, IValueProvider.equality.injEq] at h
    rw [Remade]
    exact ⟨remade_of_fresh json h.2.1, remade_of_fresh json h.2.2⟩
  | .comparison _ lhs rhs, h => by
    unfold Fresh at h
    rw [duplicate, IValueProvider.comparison.injEq] at h
    rw [Remade]
    exact ⟨remade_of_fresh json h.2.1, remade_of_fresh json h.2.2⟩
  | .number _ _ lhs rhs, h => by
    unfold Fresh at h
    rw [duplicate, IValueProvider.number.injEq] at h
    rw [Remade]
    exact ⟨remade_of_fresh json h.2.2.1, remade_of_fresh json h.2.2.2⟩
  | .func _ made params, h => by
    unfold Fresh at h
    rw [duplicate, create, IValueProvider.func.injEq] at h
    rw [Remade]
    exact ⟨remadeParameters_of_fresh json h.2.2, by rw [h.2.1]⟩

theorem remadeParameters_of_fresh (json : D) : ∀ {params : List (IValueProvider D F)},
    duplicateParameters params = params → RemadeParameters json params
  | [], _ => trivial
  | _ :: _, h => by
    rw [duplicateParameters, List.cons.injEq] at h
    rw [RemadeParameters]
    exact ⟨remade_of_fresh json h.1, remadeParameters_of_fresh json h.2⟩

end

/-- `leaf` is replaced by the constant in a predicate: the predicate gets smaller, and where the
constant is read as the leaf was, so is the predicate. -/
structure Replaced (value : Bool) (p : IValueProvider D F) (r : Reading) (leaf : IValueProvider D F)
    (r' : Reading) : Prop where
  changed : (setPredicate value none p).2 = some leaf
  smaller : (setPredicate value none p).1.size < p.size
  kept : ∀ json : D, Kept json leaf (.atom (.bool value)) r' →
    Kept json p (setPredicate value none p).1 r

section Replaced

variable {value : Bool} {p leaf lhs rhs : IValueProvider D F} {r r' : Reading} {op : BoolCalc}

theorem Replaced.left (hop : op = .and ∨ op = .or) (hrhs : Fresh rhs)
    (h : Replaced value lhs .condition leaf r') : Replaced value (.bool op lhs rhs) r leaf r' := by
  have hset : setPredicate value none (.bool op lhs rhs) =
      (.bool op (setPredicate value none lhs).1 rhs, some leaf) := by
    rw [setPredicate_bool hop, h.changed, setPredicate_changed value leaf rhs .condition, hrhs]
  have hsize := h.smaller
  refine ⟨by rw [hset], by rw [hset]; simp only [size]; omega, fun json hk => ?_⟩
  have hl : RJValue.asBool (getValue json (setPredicate value none lhs).1) =
      RJValue.asBool (getValue json lhs) := h.kept json hk
  rw [hset]
  exact Kept.of_eq (by rw [getValue_bool, getValue_bool, hl]) rfl rfl

theorem Replaced.right (hop : op = .and ∨ op = .or) (hlhs : Fresh lhs)
    (hl : leaves lhs .condition = []) (h : Replaced value rhs .condition leaf r') :
    Replaced value (.bool op lhs rhs) r leaf r' := by
  have hset : setPredicate value none (.bool op lhs rhs) =
      (.bool op lhs (setPredicate value none rhs).1, some leaf) := by
    rw [setPredicate_bool hop, setPredicate_of_leaves_nil value hl, h.changed, hlhs]
  have hsize := h.smaller
  refine ⟨by rw [hset], by rw [hset]; simp only [size]; omega, fun json hk => ?_⟩
  have hr : RJValue.asBool (getValue json (setPredicate value none rhs).1) =
      RJValue.asBool (getValue json rhs) := h.kept json hk
  rw [hset]
  exact Kept.of_eq (by rw [getValue_bool, getValue_bool, hr]) rfl rfl

theorem Replaced.not (h : Replaced value p .negated leaf r') :
    Replaced value (.not p) r leaf r' := by
  have hset : setPredicate value none (.not p) =
      (.not (setPredicate value none p).1, some leaf) := by rw [setPredicate_not, h.changed]
  have hsize := h.smaller
  refine ⟨by rw [hset], by rw [hset]; simp only [size]; omega, fun json hk => ?_⟩
  have hp : boolOf (getValue json (setPredicate value none p).1) = boolOf (getValue json p) :=
    h.kept json hk
  rw [hset]
  exact Kept.of_eq (by rw [getValue_not, getValue_not, notValue_congr hp]) rfl rfl

end Replaced

/-- **The first leaf is replaced.** -/
theorem replaced_first (value : Bool) {p leaf : IValueProvider D F} {r r' : Reading}
    {query : AdaptiveIndexQuery} {rest : List (IValueProvider D F × AdaptiveIndexQuery × Reading)}
    (hfresh : Fresh p) (h : leaves p r = (leaf, query, r') :: rest) :
    Replaced value p r leaf r' := by
  -- the two connectives descend in the same way
  have connective : ∀ (op : BoolCalc) (lhs rhs : IValueProvider D F) (r : Reading)
      (rest : List (IValueProvider D F × AdaptiveIndexQuery × Reading)),
      op = .and ∨ op = .or → Fresh (.bool op lhs rhs) →
      (∀ rest, Fresh lhs → leaves lhs .condition = (leaf, query, r') :: rest →
        Replaced value lhs .condition leaf r') →
      (∀ rest, Fresh rhs → leaves rhs .condition = (leaf, query, r') :: rest →
        Replaced value rhs .condition leaf r') →
      leaves (.bool op lhs rhs) r = (leaf, query, r') :: rest →
      Replaced value (.bool op lhs rhs) r leaf r' := by
    intro op lhs rhs r rest hop hfresh ihl ihr h
    obtain ⟨hfl, hfr⟩ := fresh_bool.mp hfresh
    rw [leaves_bool hop] at h
    cases hl : leaves lhs .condition with
    | nil =>
      rw [hl, List.nil_append] at h
      exact Replaced.right hop hfl hl (ihr _ hfr h)
    | cons first more =>
      rw [hl, List.cons_append, List.cons.injEq] at h
      exact Replaced.left hop hfr (ihl more hfl (by rw [hl, h.1]))
  induction p, r using leaves.induct generalizing rest with
  | case1 lhs rhs r ihl ihr =>
    exact connective .and lhs rhs r rest (Or.inl rfl) hfresh (fun _ => ihl) (fun _ => ihr) h
  | case2 lhs rhs r ihl ihr =>
    exact connective .or lhs rhs r rest (Or.inr rfl) hfresh (fun _ => ihl) (fun _ => ihr) h
  | case3 sub r ih =>
    rw [leaves] at h
    exact (ih (fresh_not.mp hfresh) h).not
  | case4 e r h1 h2 h3 =>
    rw [leaves] at h
    · cases hq : queryOf e with
      | none => rw [hq] at h; cases h
      | some query' =>
        rw [hq] at h
        simp only [Option.map_some, Option.toList_some, List.cons.injEq, Prod.mk.injEq] at h
        obtain ⟨⟨rfl, rfl, rfl⟩, -⟩ := h
        have hset : setPredicate value none e = (.atom (.bool value), some e) := by
          rw [setPredicate]
          · simp [hq]
          all_goals assumption
        have hsize := one_lt_size_of_queryOf hq
        refine ⟨by rw [hset], by rw [hset]; simpa only [size] using hsize, fun json hk => ?_⟩
        rw [hset]
        exact hk
    all_goals assumption

/-- Where a leaf is asked for, there is a first one. -/
theorem leaves_of_nextPredicate {p used : IValueProvider D F} {query : AdaptiveIndexQuery}
    (h : nextPredicate none p = some (some (used, query))) (r : Reading) :
    ∃ leaf query' r' rest, leaves p r = (leaf, query', r') :: rest := by
  rw [nextPredicate_eq p r] at h
  split_ifs at h
  cases hl : leaves p r with
  | nil => rw [hl] at h; cases h
  | cons first rest => exact ⟨_, _, _, rest, rfl⟩

theorem nextChoose_size {p used : IValueProvider D F} {query : AdaptiveIndexQuery}
    (hfresh : Fresh p) (h : nextPredicate none p = some (some (used, query))) (value : Bool) :
    (nextChoose value p).size < p.size := by
  obtain ⟨leaf, query', r', rest, hl⟩ := leaves_of_nextPredicate h .condition
  have hsmaller := (replaced_first value hfresh hl).smaller
  rw [nextChoose, hfresh, chosen]
  cases ho : (optimize (duplicate (setPredicate value none p).1)).2 with
  | none => exact hsmaller
  | some x =>
    have hle := (size_optimize_le _).2 x ho
    rw [size_duplicate] at hle
    exact lt_of_le_of_lt hle hsmaller

/-! ### Splits -/

section Splits

variable (cont : List D) (executeQuery : AdaptiveIndexQuery → Option DocIndex)

/-- A state in which the index is asked for a leaf and answers. -/
structure SplitAt (pred used : IValueProvider D F) (query : AdaptiveIndexQuery) (res : DocIndex) :
    Prop where
  notConst : constBoolCheck pred = none
  next : nextPredicate none pred = some (some (used, query))
  answer : executeQuery query = some res

/-- From one call to the two calls it makes. -/
def Splits (s t : IValueProvider D F × DocIndex) : Prop :=
  ∃ used query res value, SplitAt executeQuery s.1 used query res ∧
    t = (nextChoose value s.1, if value then s.2 ∩ res else s.2 \ (s.2 ∩ res))

/-- The calls made below one. -/
def Reached : IValueProvider D F × DocIndex → IValueProvider D F × DocIndex → Prop :=
  Relation.ReflTransGen (Splits executeQuery)

/-- **What is asked of a call**: it returns the documents it was given for which `Query::check` holds,
and in all calls below it the leaf asked for is the leaf replaced. -/
structure Exact (pred : IValueProvider D F) (docIndex : DocIndex) : Prop where
  answer : Returns (fun fuel => executeNextMixedQuery cont executeQuery fuel pred docIndex)
    (forAll cont (check pred) docIndex)
  sameLeaf : ∀ p ids used query res, Reached executeQuery (pred, docIndex) (p, ids) →
    SplitAt executeQuery p used query res → ∀ value, (setPredicate value none p).2 = some used

/-- **The condition on a call** that asks for the leaf `used`: it is the first supported leaf as well;
on the documents of the call, the answer of the index is what the leaf is read as; and where the
predicate is optimised, the optimiser keeps it. -/
def SplitsWell (pred : IValueProvider D F) (docIndex : DocIndex) (used : IValueProvider D F)
    (query : AdaptiveIndexQuery) : Prop :=
  ∃ r rest, leaves pred .condition = (used, query, r) :: rest ∧
    ∀ i ∈ docIndex, ∀ json, cont[i]? = some json →
      Kept json used (.atom (.bool (documentSatisfies query json))) r ∧
        let p := (setPredicate (documentSatisfies query json) none pred).1
        (optimize p).2.isSome → Keeps json p .condition

/-- **The condition on all calls**: where the predicate is not constant, the queries of its leaves are
defined, and if the index answers for one, the call splits well. -/
def AllSplitWell (pred : IValueProvider D F) (docIndex : DocIndex) : Prop :=
  ∀ p ids, Reached executeQuery (pred, docIndex) (p, ids) → constBoolCheck p = none →
    leavesDefined p = true ∧
      ∀ used query res, SplitAt executeQuery p used query res → SplitsWell cont p ids used query

/-- `ContainerIndex::executeQuery` returns exactly the documents that satisfy the query. -/
def IndexExact : Prop :=
  ∀ query res, executeQuery query = some res → ∀ i json, cont[i]? = some json →
    (i ∈ res ↔ documentSatisfies query json = true)

end Splits

variable {cont : List D} {executeQuery : AdaptiveIndexQuery → Option DocIndex}

theorem AllSplitWell.of_splits {pred p : IValueProvider D F} {docIndex ids : DocIndex}
    (h : AllSplitWell cont executeQuery pred docIndex)
    (hs : Splits executeQuery (pred, docIndex) (p, ids)) : AllSplitWell cont executeQuery p ids :=
  fun _ _ hr => h _ _ (Relation.ReflTransGen.head hs hr)

/-- On either side of a split the documents are checked as before. -/
theorem check_nextChoose {pred used : IValueProvider D F} {docIndex : DocIndex}
    {query : AdaptiveIndexQuery} (hfresh : Fresh pred) (h : SplitsWell cont pred docIndex used query)
    {i : ℕ} (hi : i ∈ docIndex) {json : D} (hj : cont[i]? = some json) :
    check (nextChoose (documentSatisfies query json) pred) json = check pred json := by
  obtain ⟨r, rest, hl, hdocs⟩ := h
  obtain ⟨hk, ho⟩ := hdocs i hi json hj
  have hset : check (setPredicate (documentSatisfies query json) none pred).1 json =
      check pred json := (replaced_first (documentSatisfies query json) hfresh hl).kept json hk
  have hnew : Fresh (setPredicate (documentSatisfies query json) none pred).1 :=
    fresh_setPredicate _ pred .condition none
  have hchosen := check_chosen _ json (remade_of_fresh json hnew) (by rw [hnew]; exact ho)
  rw [← hset, nextChoose, hfresh]
  exact hchosen

theorem constBoolCheck_spec {pred : IValueProvider D F} {b : Bool} (h : constBoolCheck pred = some b)
    (json : D) : check pred json = b := by
  rw [constBoolCheck] at h
  split_ifs at h with hc
  simp only [Bool.and_eq_true] at hc
  rw [check, getValue_const hc.1.2 json RapidJsonDocument.empty, eq_of_boolOf h]
  rfl

theorem forAll_const {func : D → Bool} {docIndex : DocIndex} {b : Bool}
    (hids : docIndex ⊆ Finset.range cont.length) (h : ∀ json, func json = b) :
    forAll cont func docIndex = if b then docIndex else ∅ := by
  ext i
  rw [mem_forAll, passes]
  constructor
  · rintro ⟨hi, hp⟩
    have hlt := Finset.mem_range.mp (hids hi)
    rw [List.getElem?_eq_getElem hlt, Option.elim_some, h] at hp
    rwa [if_pos hp]
  · intro hi
    cases b with
    | false => cases hi
    | true =>
      have hlt := Finset.mem_range.mp (hids hi)
      exact ⟨hi, by rw [List.getElem?_eq_getElem hlt, Option.elim_some, h]⟩

/-- The two sides put together. -/
theorem forAll_split (hidx : IndexExact cont executeQuery) {pred used : IValueProvider D F}
    {docIndex res : DocIndex} {query : AdaptiveIndexQuery} (hfresh : Fresh pred)
    (hq : executeQuery query = some res) (h : SplitsWell cont pred docIndex used query) :
    forAll cont (check (nextChoose true pred)) (docIndex ∩ res) ∪
        forAll cont (check (nextChoose false pred)) (docIndex \ (docIndex ∩ res)) =
      forAll cont (check pred) docIndex := by
  ext i
  simp only [Finset.mem_union, mem_forAll, Finset.mem_inter, Finset.mem_sdiff, passes]
  cases hj : cont[i]? with
  | none => simp
  | some json =>
    simp only [Option.elim_some]
    by_cases hi : i ∈ docIndex
    · have hcheck := check_nextChoose hfresh h hi hj
      have hres := hidx query res hq i json hj
      cases hs : documentSatisfies query json with
      | true =>
        rw [hs] at hcheck
        have : i ∈ res := hres.mpr hs
        simp [hi, this, hcheck]
      | false =>
        rw [hs] at hcheck
        have : i ∉ res := fun hn => by rw [hres.mp hn] at hs; cases hs
        simp [hi, this, hcheck]
    · simp [hi]

/-- **A call whose splits are all good** returns the right documents, with more fuel than the
predicate is large. The induction is on the fuel. -/
theorem executeNextMixedQuery_spec (hidx : IndexExact cont executeQuery) : ∀ (fuel : ℕ)
    (pred : IValueProvider D F) (docIndex : DocIndex), pred.size < fuel → Fresh pred →
    docIndex ⊆ Finset.range cont.length → AllSplitWell cont executeQuery pred docIndex →
    executeNextMixedQuery cont executeQuery fuel pred docIndex =
      some (forAll cont (check pred) docIndex)
  | 0, _, _, hsize, _, _, _ => by omega
  | fuel + 1, pred, docIndex, hsize, hfresh, hids, hall => by
    rw [executeNextMixedQuery, hfresh]
    cases hc : constBoolCheck pred with
    | some b =>
      rw [forAll_const hids (constBoolCheck_spec hc)]
      cases b <;> rfl
    | none =>
      obtain ⟨hdefined, hwell⟩ := hall _ _ Relation.ReflTransGen.refl hc
      have hsome := nextPredicate_eq pred .condition none
      rw [if_pos hdefined] at hsome
      generalize Option.orElse _ _ = next at hsome
      simp only [hsome, Option.bind_some]
      rcases next with _ | ⟨used, query⟩
      · rfl
      rw [Option.bind_some]
      cases hq : executeQuery query with
      | none => rfl
      | some res =>
        have hsplit : SplitAt executeQuery pred used query res := ⟨hc, hsome, hq⟩
        have hT := executeNextMixedQuery_spec hidx fuel (nextChoose true pred) (docIndex ∩ res)
          (by have := nextChoose_size hfresh hsome true; omega) (fresh_nextChoose true pred)
          (Finset.inter_subset_left.trans hids)
          (hall.of_splits ⟨used, query, res, true, hsplit, rfl⟩)
        have hF := executeNextMixedQuery_spec hidx fuel (nextChoose false pred)
          (docIndex \ (docIndex ∩ res)) (by have := nextChoose_size hfresh hsome false; omega)
          (fresh_nextChoose false pred) (Finset.sdiff_subset.trans hids)
          (hall.of_splits ⟨used, query, res, false, hsplit, rfl⟩)
        simp only [hT, hF, Option.bind_some, Option.map_some,
          forAll_split hidx hfresh hq (hwell used query res hsplit)]

theorem fresh_of_reached {pred p : IValueProvider D F} {docIndex ids : DocIndex} (hfresh : Fresh pred)
    (h : Reached executeQuery (pred, docIndex) (p, ids)) : Fresh p := by
  rcases Relation.ReflTransGen.cases_tail h with heq | ⟨s, -, used, query, res, value, -, heq⟩
  · obtain ⟨rfl, -⟩ := Prod.mk.inj heq
    exact hfresh
  · obtain ⟨rfl, -⟩ := Prod.mk.inj heq
    exact fresh_nextChoose value s.1

/-- **A call ends** whatever the index answers, if the queries of the leaves are defined: the predicates
get smaller. -/
theorem mixed_returns (cont : List D) (executeQuery : AdaptiveIndexQuery → Option DocIndex) :
    ∀ (fuel : ℕ) (pred : IValueProvider D F) (docIndex : DocIndex), pred.size < fuel → Fresh pred →
      (∀ p ids, Reached executeQuery (pred, docIndex) (p, ids) → constBoolCheck p = none →
        leavesDefined p = true) →
      (executeNextMixedQuery cont executeQuery fuel pred docIndex).isSome
  | 0, _, _, hsize, _, _ => by omega
  | fuel + 1, pred, docIndex, hsize, hfresh, hdefined => by
    rw [executeNextMixedQuery, hfresh]
    cases hc : constBoolCheck pred with
    | some b => cases b <;> rfl
    | none =>
      have hsome := nextPredicate_eq pred .condition none
      rw [if_pos (hdefined _ _ Relation.ReflTransGen.refl hc)] at hsome
      generalize Option.orElse _ _ = next at hsome
      simp only [hsome, Option.bind_some]
      rcases next with _ | ⟨used, query⟩
      · rfl
      rw [Option.bind_some]
      cases hq : executeQuery query with
      | none => rfl
      | some res =>
        have hsplit : SplitAt executeQuery pred used query res := ⟨hc, hsome, hq⟩
        have hT := mixed_returns cont executeQuery fuel (nextChoose true pred) (docIndex ∩ res)
          (by have := nextChoose_size hfresh hsome true; omega) (fresh_nextChoose true pred)
          fun p ids hr => hdefined p ids
            (Relation.ReflTransGen.head ⟨used, query, res, true, hsplit, rfl⟩ hr)
        have hF := mixed_returns cont executeQuery fuel (nextChoose false pred)
          (docIndex \ (docIndex ∩ res)) (by have := nextChoose_size hfresh hsome false; omega)
          (fresh_nextChoose false pred) fun p ids hr => hdefined p ids
            (Relation.ReflTransGen.head ⟨used, query, res, false, hsplit, rfl⟩ hr)
        obtain ⟨resultT, hT⟩ := Option.isSome_iff_exists.mp hT
        obtain ⟨resultF, hF⟩ := Option.isSome_iff_exists.mp hF
        simp only [hT, hF, Option.bind_some, Option.map_some, Option.isSome_some]

/-- A call that asks for one leaf only. -/
theorem AllSplitWell.single {pred : IValueProvider D F} {docIndex : DocIndex}
    (hdefined : leavesDefined pred = true)
    (hwell : ∀ used query res, SplitAt executeQuery pred used query res →
      SplitsWell cont pred docIndex used query)
    (hnext : ∀ value, nextPredicate none (nextChoose value pred) = some none) :
    AllSplitWell cont executeQuery pred docIndex := by
  have stop : ∀ (value : Bool) (ids : DocIndex) (s : IValueProvider D F × DocIndex),
      Reached executeQuery (nextChoose value pred, ids) s → s.1 = nextChoose value pred := by
    intro value ids s hr
    rcases Relation.ReflTransGen.cases_head hr with rfl | ⟨t, ⟨used, query, res, v, hs, -⟩, -⟩
    · rfl
    · have := hs.next
      rw [hnext value] at this
      cases this
  intro p ids hr _
  rcases Relation.ReflTransGen.cases_head hr with heq | ⟨t, ⟨used', query', res', v, -, rfl⟩, hr⟩
  · obtain ⟨rfl, rfl⟩ := Prod.mk.inj heq
    exact ⟨hdefined, hwell⟩
  · have hp : p = nextChoose v pred := stop v _ _ hr
    have hd : leavesDefined p = true := by
      by_contra hd
      have hundefined := nextPredicate_eq p .condition none
      rw [if_neg hd, hp, hnext v] at hundefined
      cases hundefined
    refine ⟨hd, fun used query res hs => ?_⟩
    have := hs.next
    rw [hp, hnext v] at this
    cases this

/-! ### Examples -/

/-- The index that answers every query. -/
def index (cont : List D) (query : AdaptiveIndexQuery) : Option DocIndex :=
  some (checkDocuments cont (documentSatisfies query))

theorem indexExact_index (cont : List D) : IndexExact cont (index cont) := by
  intro query res h i json hj
  rw [← Option.some.inj h, checkDocuments, Finset.mem_filter, Finset.mem_range, passes, hj]
  have := (List.getElem?_eq_some_iff.mp hj).1
  simp [this]

def attr (name : String) : IValueProvider (FlatDocument Float) Float := .pointer (ascii name)

/-- An equality that the index supports. -/
def attributeIs (name value : String) : IValueProvider (FlatDocument Float) Float :=
  .equality .equal (attr name) (.atom (.string (ascii value)))

/-- An equality that it does not. -/
def attributesAgree (name name' : String) : IValueProvider (FlatDocument Float) Float :=
  .equality .equal (attr name) (attr name')

def documents : List (FlatDocument Float) :=
  [⟨[(ascii "/a", .string (ascii "x")), (ascii "/b", .string (ascii "z"))]⟩]

end Joda.Execution.MixedQuery
