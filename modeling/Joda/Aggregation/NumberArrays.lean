import Joda.Aggregation.Accumulation

/-! # Number aggregators over arrays

`SUM`, `AVG`, `MIN` and `MAX` read the numbers of a document with `GetDouble`: that of the value, or,
with the support of arrays, one for each element that is a number. In the loop over the elements it is
the array that is read, not the element (`readsOf`), so exactly the arrays with a number in them go
wrong. What is aggregated of the numbers that were read is right, and so are the merges. -/

namespace Joda.Aggregation.NumberArrays

open Joda.Values.Value Joda.Values.Provider Joda.Aggregation.Aggregator Joda.Aggregation.Accumulation
open Joda.Aggregation.AttributeStat hiding merge

variable {D F : Type}

/-! ### What is read -/

/-- The values `GetDouble` is called of, once for each number that is aggregated. -/
def readsIn (enableArray : Bool) : Option (RJValue F) → List (RJValue F)
  | some (.number n) => [.number n]
  | some (.array vs) => if enableArray then (vs.filter isNumber).map fun _ => .array vs else []
  | _ => []

/-- The number a value is. -/
def asNumber : RJValue F → Option (Number F)
  | .number n => some n
  | _ => none

/-- The numbers of a document: its value, or the elements of its array that are numbers. -/
def numbersIn : Option (RJValue F) → List (Number F)
  | some (.number n) => [n]
  | some (.array vs) => vs.filterMap asNumber
  | _ => []

/-- An array with a number in it. -/
def holdsNumbers : Option (RJValue F) → Bool
  | some (.array vs) => vs.any isNumber
  | _ => false

theorem filterMap_asNumber {vs : List (RJValue F)} (h : vs.any isNumber = false) :
    vs.filterMap asNumber = [] := by
  refine List.filterMap_eq_nil_iff.mpr fun v hv => ?_
  have hn := List.any_eq_false.mp h v hv
  cases v with
  | number n => exact absurd rfl hn
  | null | bool | string | array | object => rfl

/-- Where no array holds numbers, the numbers themselves are read. -/
theorem readsIn_eq {v : Option (RJValue F)} (h : holdsNumbers v = false) (enableArray : Bool) :
    readsIn enableArray v = (numbersIn v).map .number := by
  rcases v with _ | v
  · rfl
  cases v with
  | array vs =>
    have hany : vs.any isNumber = false := h
    have hnone : vs.filter isNumber = [] := List.filter_eq_nil_iff.mpr fun v hv => by
      simpa using List.any_eq_false.mp hany v hv
    rw [numbersIn, filterMap_asNumber hany, readsIn, hnone]
    simp
  | null | bool | number | string | object => rfl

/-- Where an array holds numbers, the array is read. -/
theorem array_mem_readsIn {v : Option (RJValue F)} (h : holdsNumbers v = true) :
    ∃ vs, RJValue.array vs ∈ readsIn true v := by
  rcases v with _ | v
  · cases h
  cases v with
  | array vs =>
    obtain ⟨w, hw, hn⟩ := List.any_eq_true.mp h
    exact ⟨vs, List.mem_map.mpr ⟨w, List.mem_filter.mpr ⟨hw, hn⟩, rfl⟩⟩
  | null | bool | number | string | object => cases h

variable [Double F] [RapidJsonDocument D F]

/-- What is read of a document. -/
def readsOf (params : List (IValueProvider D F)) (json : D) : List (RJValue F) :=
  readsIn (enableArray params) (param params 0 json)

section Read

variable [Library F]

/-- `GetDouble` -/
def getDouble : RJValue F → F
  | .number n => n.getDouble
  | .array vs => Library.arrayDouble vs
  | _ => Double.ofInt 0

/-- What is aggregated is `GetDouble` of what is read. -/
theorem numbersOf_eq (params : List (IValueProvider D F)) (json : D) :
    numbersOf params json = (readsOf params json).map getDouble := by
  unfold numbersOf readsOf
  rcases param params 0 json with _ | v
  · rfl
  cases v with
  | array vs =>
    simp only [readsIn]
    by_cases he : enableArray params = true
    · rw [if_pos he, if_pos he, List.map_map]
      rfl
    · rw [if_neg he, if_neg he, List.map_nil]
  | null | bool | number | string | object => rfl

end Read

/-! ### What is aggregated -/

variable [AddCommMonoid F] [LinearOrder F]

/-- What the aggregator is for: the value of at least one number. -/
def IsValue : NumberAggregatorFunc → List F → F → Prop
  | .sum, xs, x => x = xs.sum
  | .avg, xs, x => x = Double.div xs.sum (Double.ofInt xs.length)
  | .min, xs, x => x ∈ xs ∧ ∀ y ∈ xs, x ≤ y
  | .max, xs, x => x ∈ xs ∧ ∀ y ∈ xs, y ≤ x

/-- The result: null where there is no number. -/
def Summarises (T : NumberAggregatorFunc) (xs : List F) (v : RJValue F) : Prop :=
  (v = .null ↔ xs = []) ∧ (xs ≠ [] → ∃ x, v = .number (.double x) ∧ IsValue T xs x)

/-- The rep after the numbers `xs`. -/
def RepHolds (T : NumberAggregatorFunc) (xs : List F) (rep : AggRep F) : Prop :=
  rep.1 = xs.length ∧
    match T with
    | .sum | .avg => rep.2 = xs.sum
    | .min => rep.2 ∈ xs ∧ ∀ y ∈ xs, rep.2 ≤ y
    | .max => rep.2 ∈ xs ∧ ∀ y ∈ xs, y ≤ rep.2

omit [Double F] in
theorem repHolds_first (T : NumberAggregatorFunc) (x : F) :
    RepHolds T [x] (NumberAggregatorFunc.aggregateFirst x) := by
  refine ⟨rfl, ?_⟩
  cases T with
  | sum | avg => exact (List.sum_singleton).symm
  | min | max => exact ⟨List.mem_singleton_self x, fun y hy => le_of_eq (by rw [List.mem_singleton.mp hy]; rfl)⟩

omit [Double F] in
/-- **Step**: one more number. -/
theorem repHolds_aggregate {T : NumberAggregatorFunc} {xs : List F} {rep : AggRep F}
    (h : RepHolds T xs rep) (x : F) : RepHolds T (xs ++ [x]) (T.aggregate rep x) := by
  obtain ⟨hcount, hval⟩ := h
  have hlength : (T.aggregate rep x).1 = (xs ++ [x]).length := by
    rw [List.length_append, List.length_singleton, ← hcount]
    cases T <;> rfl
  refine ⟨hlength, ?_⟩
  cases T with
  | sum | avg =>
    have hsum : rep.2 = xs.sum := hval
    show rep.2 + x = (xs ++ [x]).sum
    rw [List.sum_append, List.sum_singleton, hsum]
  | min =>
    obtain ⟨hmem, hle⟩ := hval
    show min rep.2 x ∈ xs ++ [x] ∧ ∀ y ∈ xs ++ [x], min rep.2 x ≤ y
    refine ⟨?_, fun y hy => ?_⟩
    · rcases min_choice rep.2 x with hmin | hmin
      · rw [hmin]
        exact List.mem_append_left _ hmem
      · rw [hmin]
        exact List.mem_append_right _ (List.mem_singleton_self x)
    · rcases List.mem_append.mp hy with hy | hy
      · exact le_trans (min_le_left _ _) (hle y hy)
      · rw [List.mem_singleton.mp hy]
        exact min_le_right _ _
  | max =>
    obtain ⟨hmem, hle⟩ := hval
    show max rep.2 x ∈ xs ++ [x] ∧ ∀ y ∈ xs ++ [x], y ≤ max rep.2 x
    refine ⟨?_, fun y hy => ?_⟩
    · rcases max_choice rep.2 x with hmax | hmax
      · rw [hmax]
        exact List.mem_append_left _ hmem
      · rw [hmax]
        exact List.mem_append_right _ (List.mem_singleton_self x)
    · rcases List.mem_append.mp hy with hy | hy
      · exact le_trans (hle y hy) (le_max_left _ _)
      · rw [List.mem_singleton.mp hy]
        exact le_max_right _ _

omit [Double F] in
/-- **Run**: the numbers one after the other. -/
theorem repHolds_foldl {T : NumberAggregatorFunc} (ys : List F) : ∀ {xs : List F} {rep : AggRep F},
    RepHolds T xs rep → ∃ rep', ys.foldl T.take (some rep) = some rep' ∧ RepHolds T (xs ++ ys) rep' := by
  induction ys with
  | nil => exact fun h => ⟨_, rfl, by rwa [List.append_nil]⟩
  | cons y ys ih =>
    intro xs rep h
    obtain ⟨rep', hfold, hholds⟩ := ih (repHolds_aggregate h y)
    refine ⟨rep', hfold, ?_⟩
    rwa [List.append_assoc, List.singleton_append] at hholds

theorem isValue_getDouble {T : NumberAggregatorFunc} {xs : List F} {rep : AggRep F}
    (h : RepHolds T xs rep) : IsValue T xs (T.getDouble rep) := by
  obtain ⟨hcount, hval⟩ := h
  cases T with
  | sum => exact hval
  | avg =>
    have hsum : rep.2 = xs.sum := hval
    show Double.div rep.2 (Double.ofInt rep.1) = Double.div xs.sum (Double.ofInt xs.length)
    rw [hsum, hcount]
  | min => exact hval
  | max => exact hval

variable [Library F]

/-- The state after a list of documents. -/
theorem run_number (T : NumberAggregatorFunc) (toPointer : Str) (params : List (IValueProvider D F))
    (docs : List D) : run (.basic (.number T) toPointer params) docs =
      .basic (.number ((docs.flatMap (numbersOf params)).foldl T.take none)) := by
  have hfold : ∀ (docs : List D) (val : Option (AggRep F)),
      docs.foldl (fun s json => accumulate (.basic (.number T) toPointer params) json s)
        (.basic (.number val)) =
      .basic (.number ((docs.flatMap (numbersOf params)).foldl T.take val)) := by
    intro docs
    induction docs with
    | nil => exact fun _ => rfl
    | cons json docs ih =>
      intro val
      rw [List.foldl_cons, List.flatMap_cons, List.foldl_append]
      exact ih _
  exact hfold docs none

/-- **The result of the numbers that were aggregated.** -/
theorem summarises_run (T : NumberAggregatorFunc) (toPointer : Str) (params : List (IValueProvider D F))
    (docs : List D) : Summarises T (docs.flatMap (numbersOf params))
      (terminate (.basic (.number T) toPointer params) (run (.basic (.number T) toPointer params) docs)) := by
  rw [run_number, terminate]
  cases docs.flatMap (numbersOf params) with
  | nil => exact ⟨by simp [terminateBasic], fun h => absurd rfl h⟩
  | cons x xs =>
    obtain ⟨rep, hfold, hholds⟩ := repHolds_foldl xs (repHolds_first T x)
    have hval : (x :: xs).foldl T.take none = some rep := hfold
    rw [hval]
    exact ⟨by simp [terminateBasic], fun _ => ⟨_, rfl, isValue_getDouble hholds⟩⟩

/-! ### Every number once -/

/-- The numbers among the values and the elements of the arrays, in order. -/
def allNumbers (params : List (IValueProvider D F)) (docs : List D) : List (Number F) :=
  docs.flatMap fun json => numbersIn (param params 0 json)

/-- **Every number counts once**: what is read are the numbers, the result is theirs, and merging two
aggregators is as accumulating both lists. -/
structure CountsOnce (T : NumberAggregatorFunc) (toPointer : Str) (params : List (IValueProvider D F))
    (docs : List D) : Prop where
  read : docs.flatMap (readsOf params) = (allNumbers params docs).map .number
  result : Summarises T ((allNumbers params docs).map Number.getDouble)
    (terminate (.basic (.number T) toPointer params) (run (.basic (.number T) toPointer params) docs))
  merged : ∀ xs ys, docs = xs ++ ys → ∃ r,
    merge (.basic (.number T) toPointer params) (.basic (.number T) toPointer params)
      (run (.basic (.number T) toPointer params) xs) (run (.basic (.number T) toPointer params) ys) =
        some r ∧
    terminate (.basic (.number T) toPointer params) r =
      terminate (.basic (.number T) toPointer params) (run (.basic (.number T) toPointer params) docs)

theorem not_countsOnce {T : NumberAggregatorFunc} {toPointer : Str} {params : List (IValueProvider D F)}
    (henable : enableArray params = true) {docs : List D} {json : D} (hjson : json ∈ docs)
    (hnumbers : holdsNumbers (param params 0 json) = true) : ¬ CountsOnce T toPointer params docs := by
  intro h
  obtain ⟨vs, hvs⟩ := array_mem_readsIn hnumbers
  have hread : RJValue.array vs ∈ docs.flatMap (readsOf params) := by
    refine List.mem_flatMap.mpr ⟨json, hjson, ?_⟩
    rwa [readsOf, henable]
  rw [h.read] at hread
  obtain ⟨n, -, hn⟩ := List.mem_map.mp hread
  cases hn

theorem countsOnce (T : NumberAggregatorFunc) (toPointer : Str) {params : List (IValueProvider D F)}
    {docs : List D} (h : ∀ json ∈ docs, holdsNumbers (param params 0 json) = false) :
    CountsOnce T toPointer params docs := by
  have hread : ∀ json ∈ docs, readsOf params json = (numbersIn (param params 0 json)).map .number :=
    fun json hjson => readsIn_eq (h json hjson) _
  have hnumbers : docs.flatMap (numbersOf params) = (allNumbers params docs).map Number.getDouble := by
    unfold allNumbers
    rw [List.map_flatMap]
    refine List.flatMap_congr fun json hjson => ?_
    rw [numbersOf_eq, hread json hjson, List.map_map]
    rfl
  refine ⟨?_, ?_, ?_⟩
  · unfold allNumbers
    rw [List.map_flatMap]
    exact List.flatMap_congr hread
  · rw [← hnumbers]
    exact summarises_run T toPointer params docs
  · rintro xs ys rfl
    obtain ⟨r, hr, hholds⟩ := holds_merge (holds_run (.basic (.number T) toPointer params) xs)
      (holds_run (.basic (.number T) toPointer params) ys)
    exact ⟨r, hr, sameResult hholds (holds_run (.basic (.number T) toPointer params) (xs ++ ys))⟩

/-- **Number aggregators count every number once** exactly if no array holds a number. -/
theorem countsOnce_iff (T : NumberAggregatorFunc) (toPointer : Str)
    {params : List (IValueProvider D F)} (henable : enableArray params = true) (docs : List D) :
    CountsOnce T toPointer params docs ↔ ∀ json ∈ docs, holdsNumbers (param params 0 json) = false := by
  refine ⟨fun h json hjson => ?_, countsOnce T toPointer⟩
  by_contra hn
  exact not_countsOnce henable hjson (Bool.eq_true_of_not_eq_false hn) h

/-- `SUM('/a', true)` -/
def sumParams : List (IValueProvider (FlatDocument ℚ) ℚ) := [.pointer (ascii "/a"), .atom (.bool true)]

/-- A number, and an array with a string. -/
def scalarDocs : List (FlatDocument ℚ) :=
  [⟨[(ascii "/a", .number (.int 7))]⟩, ⟨[(ascii "/a", .array [.string (ascii "x")])]⟩]

theorem countsOnce_iff_scalar : CountsOnce .sum [] sumParams scalarDocs ↔
    ∀ json ∈ scalarDocs, holdsNumbers (param sumParams 0 json) = false :=
  countsOnce_iff .sum [] rfl scalarDocs

/-- The elements of an array are not read. -/
theorem not_countsOnce_array :
    ¬ CountsOnce .sum [] sumParams [⟨[(ascii "/a", .array [.number (.int 2), .number (.int 3)])]⟩] :=
  not_countsOnce rfl List.mem_cons_self rfl

end Joda.Aggregation.NumberArrays
