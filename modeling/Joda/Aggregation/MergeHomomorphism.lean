import Joda.Aggregation.Accumulation
import Joda.Values.Doubles

/-! # Merging is a homomorphism

Accumulating two lists in two duplicates and merging them is as accumulating both lists in one, and a
fresh duplicate is neutral. This holds for all aggregators, groups of any depth included, as long as
the numbers are exact; the sum of doubles is rounded at each step, so a group over `SUM` depends on
where the list is cut (`not_homomorphic_sum`). -/

namespace Joda.Aggregation.MergeHomomorphism

open Joda.Lib.Table Joda.Lib.Rounding Joda.Values.Value Joda.Values.Provider Joda.Values.Doubles
open Joda.Aggregation.Aggregator Joda.Aggregation.Accumulation

variable {D F S : Type}

/-- An aggregator by what it does. -/
structure Operations (D S F : Type) where
  init : S
  accumulate : D → S → S
  merge : S → S → Option S
  terminate : S → RJValue F

/-- The documents are accumulated one after the other. -/
def Operations.run (ops : Operations D S F) (docs : List D) : S :=
  docs.foldl (fun s json => ops.accumulate json s) ops.init

/-- **`merge` is a homomorphism with identity**, up to `Same`, where a list is cut in two. -/
structure Homomorphic (ops : Operations D S F) (Same : RJValue F → RJValue F → Prop)
    (xs ys : List D) : Prop where
  merged : ∃ r, ops.merge (ops.run xs) (ops.run ys) = some r ∧
    Same (ops.terminate r) (ops.terminate (ops.run (xs ++ ys)))
  fresh_left : ∃ r, ops.merge ops.init (ops.run xs) = some r ∧
    Same (ops.terminate r) (ops.terminate (ops.run xs))
  fresh_right : ∃ r, ops.merge (ops.run xs) ops.init = some r ∧
    Same (ops.terminate r) (ops.terminate (ops.run xs))

/-! ### The aggregators -/

section Exact

variable [Double F] [RapidJsonDocument D F] [AddCommMonoid F] [LinearOrder F] [Library F]

def operations (agg : IAggregator D F) : Operations D (AggState F) F where
  init := Aggregator.init agg
  accumulate := Aggregator.accumulate agg
  merge := Aggregator.merge agg agg
  terminate := Aggregator.terminate agg

/-- **Merging is a homomorphism** for every aggregator, where the numbers are exact. -/
theorem merge_homomorphism (agg : IAggregator D F) (xs ys : List D) :
    Homomorphic (operations agg) (SameResult agg) xs ys := by
  have hxs := holds_run agg xs
  refine ⟨?_, ?_, ?_⟩
  · obtain ⟨r, hr, hholds⟩ := holds_merge hxs (holds_run agg ys)
    exact ⟨r, hr, sameResult hholds (holds_run agg (xs ++ ys))⟩
  · obtain ⟨r, hr, hholds⟩ := holds_merge (holds_init agg) hxs
    rw [zero_add] at hholds
    exact ⟨r, hr, sameResult hholds hxs⟩
  · obtain ⟨r, hr, hholds⟩ := holds_merge hxs (holds_init agg)
    rw [add_zero] at hholds
    exact ⟨r, hr, sameResult hholds hxs⟩

end Exact

/-! ### Sums of doubles -/

variable [Double F] [RapidJsonDocument D F]

section Grouped

variable [DecidableEq F]

/-- `GroupAggregator` over an inner aggregator. -/
def grouped (groupBy : IValueProvider D F) (result : GroupKey F × RJValue F → RJValue F)
    (inner : Operations D S F) : Operations D (List (GroupKey F × S)) F where
  init := []
  accumulate json groups :=
    match groupOf groupBy json with
    | some key => atKey Prod.fst key (key, inner.accumulate json inner.init)
        (fun e => (e.1, inner.accumulate json e.2)) groups
    | none => groups
  merge groups others :=
    mergeTable Prod.fst id (fun o e => (inner.merge e.2 o.2).map fun s => (e.1, s)) others groups
  terminate groups := .array (groups.map fun e => result (e.1, inner.terminate e.2))

end Grouped

section Groups

variable [AddCommMonoid F] [LinearOrder F] [Library F]

/-- The group aggregators are grouped aggregators. -/
theorem group_grouped (toPointer : Str) (groupBy : IValueProvider D F) (protoAgg : IAggregator D F)
    (groupAs : Str) :
    let ops := grouped groupBy (groupEntry groupBy protoAgg groupAs) (operations protoAgg)
    let agg := IAggregator.group toPointer groupBy protoAgg groupAs
    (∀ docs, Aggregator.run agg docs = .group (ops.run docs)) ∧
      (∀ groups others, Aggregator.merge agg agg (.group groups) (.group others) =
        (ops.merge groups others).map .group) ∧
      ∀ groups, Aggregator.terminate agg (.group groups) = ops.terminate groups := by
  intro ops agg
  refine ⟨?_, fun _ _ => rfl, fun _ => rfl⟩
  have hstep : ∀ json groups,
      Aggregator.accumulate agg json (.group groups) = .group (ops.accumulate json groups) := by
    intro json groups
    cases hkey : groupOf groupBy json with
    | none => simp only [agg, ops, Aggregator.accumulate, grouped, hkey]
    | some key => simp only [agg, ops, Aggregator.accumulate, grouped, hkey]; rfl
  have hfold : ∀ (docs : List D) (groups : List (GroupKey F × AggState F)),
      docs.foldl (fun s json => Aggregator.accumulate agg json s) (.group groups) =
        .group (docs.foldl (fun s json => ops.accumulate json s) groups) := by
    intro docs
    induction docs with
    | nil => exact fun _ => rfl
    | cons json docs ih =>
      intro groups
      rw [List.foldl_cons, List.foldl_cons, hstep, ih]
  exact fun docs => hfold docs []

end Groups

/-- `NumberAggregator<SumAggregatorFunc>` as it adds doubles. -/
def roundedSum (value : IValueProvider D F) : Operations D (Option F) F where
  init := none
  accumulate json s :=
    match valueOf value json with
    | some (.number n) => some (s.elim n.getDouble fun old => Double.add old n.getDouble)
    | _ => s
  merge s o := some (match s, o with
    | s, none => s
    | none, o => o
    | some s, some o => some (Double.add s o))
  terminate s := s.elim .null fun x => .number (.double x)

/-- A document of a group, with a double. -/
def summand (x : ℚ) : FlatDocument Rounded :=
  ⟨[(ascii "/k", .bool true), (ascii "/v", .number (.double ⟨x⟩))]⟩

/-- `GROUP SUM('/v') BY '/k'` -/
def sumByKey : Operations (FlatDocument Rounded) (List (GroupKey Rounded × Option Rounded)) Rounded :=
  grouped (.pointer (ascii "/k")) (fun e => .object [(ascii "group", keyValue e.1), (ascii "SUM", e.2)])
    (roundedSum (.pointer (ascii "/v")))

/-- The order of the entries is left open. -/
def SameEntries (v w : RJValue F) : Prop := ∃ vs ws, v = .array vs ∧ w = .array ws ∧ vs.Perm ws

/-- **The cut matters for rounded sums**: `2 ^ 53 + 1` is a tie, so 1 and 1 are lost if they are added
one after the other. -/
theorem not_homomorphic_sum :
    ¬ ∀ xs ys : List (FlatDocument Rounded), Homomorphic sumByKey SameEntries xs ys := by
  intro h
  obtain ⟨r, hr, vs, ws, hvs, hws, hperm⟩ := (h [summand (2 ^ 53)] [summand 1, summand 1]).merged
  have htie : roundTo 53 ((2 : ℚ) ^ 53 + 1) = 2 ^ 53 := roundTo_two_pow_add_one (by norm_num)
  have htwo : roundTo 53 ((1 : ℚ) + 1) = 2 := by
    have := roundTo_int (p := 53) (z := 2) (by norm_num) (by norm_num) (by norm_num)
    norm_num at this ⊢
    exact this
  have hmore : roundTo 53 ((2 : ℚ) ^ 53 + 2) ≠ 2 ^ 53 := by
    intro heq
    have herror := abs_roundTo_sub_le (p := 53) (by norm_num) (q := 2 ^ 53 + 2) (by norm_num)
    rw [heq] at herror
    norm_num at herror
  have hmerged : some r = some [(GroupKey.bool true, some (⟨roundTo 53 (2 ^ 53 + 2)⟩ : Rounded))] := by
    rw [← hr, ← htwo]
    rfl
  have hboth : sumByKey.run ([summand (2 ^ 53)] ++ [summand 1, summand 1]) =
      [(.bool true, some ⟨2 ^ 53⟩)] := by
    show [(GroupKey.bool true, some (⟨roundTo 53 (roundTo 53 (2 ^ 53 + 1) + 1)⟩ : Rounded))] = _
    rw [htie, htie]
  obtain rfl := Option.some.inj hmerged
  rw [hboth] at hws
  obtain rfl := RJValue.array.inj hvs
  obtain rfl := RJValue.array.inj hws
  have hentry := List.singleton_perm_singleton.mp hperm
  injection hentry with hmembers
  injection hmembers with _ hrest
  injection hrest with hmember
  injection hmember with _ hsum
  injection hsum with hnumber
  injection hnumber with hval
  exact hmore (Rounded.mk.inj hval)

end Joda.Aggregation.MergeHomomorphism
