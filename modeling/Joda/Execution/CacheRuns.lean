import Joda.Execution.CacheExecutor
import Joda.Lib.Lookup
import Joda.Lib.Runs
import Joda.QueryParsing.Printing

/-! # Runs of the query cache

An answer out of the cache is right exactly if the predicate it was kept for selects the same
documents (`SelectsAlike`). The cache finds it by its text, and the texts do not tell all predicates
apart; those used are the same where their texts tell them (`Meets`). The invariant is that every entry
holds the selection of its predicate. -/

namespace Joda.Execution.CacheRuns

open Joda.Values.Value Joda.Values.Provider Joda.Values.Provider.IValueProvider
open Joda.Execution.Container Joda.Execution.CacheExecutor Joda.Lib.Runs
open Joda.Lib.Lookup (mem_of_lookup)
open Joda.QueryParsing.Printing

variable {D F : Type} [Double F] [RapidJsonDocument D F] {cont : List D} {cache : QueryCache D F}
  {pred : IValueProvider D F}

/-- Every entry holds the selection of its predicate. -/
def Faithful (cont : List D) (cache : QueryCache D F) : Prop :=
  ∀ text entry, cache.lookup text = some entry → entry.docs = select cont entry.predicate

/-- The entry of an operand of an `AND` that is used, with that operand and the other one. -/
def operandHit (cache : QueryCache D F) (lhs rhs : IValueProvider D F) :
    Option (CacheEntry D F × IValueProvider D F × IValueProvider D F) :=
  if cacheSize (getBestCache cache lhs) ≤ cacheSize (getBestCache cache rhs) then
    (getBestCache cache lhs).map fun entry => (entry, lhs, rhs)
  else (getBestCache cache rhs).map fun entry => (entry, rhs, lhs)

/-- The predicate of an entry that is used selects the same documents as the predicate it is found for,
as far as the other operand leaves them. The entry of an operand is used if it does not hold all
documents. -/
structure SelectsAlike (cont : List D) (cache : QueryCache D F) (pred : IValueProvider D F) : Prop where
  whole : ∀ entry, chooseIsConst pred = none → getBestCache cache pred = some entry →
    select cont entry.predicate = select cont pred
  operand : ∀ lhs rhs entry operand other, chooseIsConst pred = none →
    getBestCache cache pred = none → andOperands pred = some (lhs, rhs) →
    operandHit cache lhs rhs = some (entry, operand, other) → entry.docs.card < cont.length →
    forAll cont (check other) (select cont entry.predicate) =
      forAll cont (check other) (select cont operand)

/-- **The condition on a predicate** and the cache it finds: the predicate of an entry that is used and
the one it is found for are one expression, or their texts tell them. -/
structure Meets (functions : Str → Option (Func D F)) (cont : List D) (cache : QueryCache D F)
    (pred : IValueProvider D F) : Prop where
  whole : ∀ entry, getBestCache cache pred = some entry → Told functions entry.predicate pred
  operand : ∀ lhs rhs entry operand other, getBestCache cache pred = none →
    andOperands pred = some (lhs, rhs) → operandHit cache lhs rhs = some (entry, operand, other) →
    entry.docs.card < cont.length → Told functions entry.predicate operand

omit [Double F] [RapidJsonDocument D F] in
theorem andOperands_eq {lhs rhs : IValueProvider D F} (h : andOperands pred = some (lhs, rhs)) :
    pred = .bool .and lhs rhs := by
  unfold andOperands at h
  split at h
  · simp only [Option.some.injEq, Prod.mk.injEq] at h
    rw [h.1, h.2]
  · cases h

/-! ### The executors -/

theorem chooseExecutor_const {work : Executor → WithTop ℕ} (h : work .const = .some 0) :
    chooseExecutor work [.const] = some .const := by
  simp [chooseExecutor, h]

/-- Without a constant predicate, the cache is used if it has less work than all documents. -/
theorem chooseExecutor_default {work : Executor → WithTop ℕ} {n : ℕ} (hc : work .const = ⊤)
    (hd : work .default = .some n) :
    chooseExecutor work [.const, .default, .cache] =
      some (if work .cache < .some n then .cache else .default) := by
  have hn : WithTop.some n < ⊤ := WithTop.coe_lt_top n
  simp only [chooseExecutor, List.foldl, hc, hd, lt_irrefl, if_false, hn, if_true]
  split_ifs <;> rfl

theorem handleOne_const {b : Bool} (h : chooseIsConst pred = some b) :
    handleOne cont cache pred = some (select cont pred, cache) := by
  have hex : executors pred = [.const] := by rw [executors, h]; rfl
  have hwork : Executor.estimatedWork cont cache pred .const = .some 0 := by
    rw [Executor.estimatedWork, h]; rfl
  rw [handleOne, hex, chooseExecutor_const hwork, select_const h]
  simp [Executor.execute, constExecute, h, alwaysAfterSelect]

theorem handleOne_eq (h : chooseIsConst pred = none) :
    handleOne cont cache pred =
      (if cacheEstimatedWork cache pred < .some cont.length then cacheExecute cont cache pred
        else some (select cont pred)).map fun sel => (sel, addQueryResult cache sel pred) := by
  have hex : executors pred = [.const, .default, .cache] := by rw [executors, h]; rfl
  have hwork : Executor.estimatedWork cont cache pred .const = ⊤ := by
    rw [Executor.estimatedWork, h]; rfl
  have hafter : alwaysAfterSelect [.const, .default, .cache] cache = addQueryResult cache := by
    funext sel p
    rfl
  rw [handleOne, hex, chooseExecutor_default hwork rfl, hafter, Option.bind_some]
  by_cases hlt : cacheEstimatedWork cache pred < .some cont.length
  · have hcache : Executor.estimatedWork cont cache pred .cache < .some cont.length := hlt
    rw [if_pos hlt, if_pos hcache, Executor.execute]
  · have hcache : ¬ Executor.estimatedWork cont cache pred .cache < .some cont.length := hlt
    rw [if_neg hlt, if_neg hcache, Executor.execute]

theorem faithful_addQueryResult (h : Faithful cont cache) {sel : DocIndex}
    (hsel : sel = select cont pred) : Faithful cont (addQueryResult cache sel pred) := by
  intro text entry hl
  rw [addQueryResult] at hl
  split at hl
  · exact h text entry hl
  · rw [List.lookup_cons] at hl
    split at hl
    · obtain rfl := Option.some.inj hl
      exact hsel
    · exact h text entry hl

omit [RapidJsonDocument D F] in
/-- The work of the cache for an `AND` without an entry of its own. -/
theorem cacheEstimatedWork_and {lhs rhs : IValueProvider D F} (hb : getBestCache cache pred = none)
    (ha : andOperands pred = some (lhs, rhs)) : cacheEstimatedWork cache pred =
      cacheSize ((operandHit cache lhs rhs).map fun hit => hit.1) := by
  rw [cacheEstimatedWork, hb, ha, operandHit]
  simp only [Option.isSome_none, Bool.false_eq_true, if_false]
  split_ifs <;> simp [Option.map_map, Function.comp_def]

theorem cacheExecute_and {lhs rhs : IValueProvider D F} (hb : getBestCache cache pred = none)
    (ha : andOperands pred = some (lhs, rhs)) : cacheExecute cont cache pred =
      (operandHit cache lhs rhs).map fun hit => forAll cont (check hit.2.2) hit.1.docs := by
  rw [cacheExecute, hb, ha, operandHit]
  simp only [Option.bind_some]
  split_ifs <;> simp [Option.map_map, Function.comp_def]

theorem select_operandHit {lhs rhs operand other : IValueProvider D F} {entry : CacheEntry D F}
    (h : operandHit cache lhs rhs = some (entry, operand, other)) :
    select cont (.bool .and lhs rhs) = forAll cont (check other) (select cont operand) := by
  rw [operandHit] at h
  split_ifs at h
  · obtain ⟨e, -, he⟩ := Option.map_eq_some_iff.mp h
    simp only [Prod.mk.injEq] at he
    obtain ⟨-, rfl, rfl⟩ := he
    exact select_and
  · obtain ⟨e, -, he⟩ := Option.map_eq_some_iff.mp h
    simp only [Prod.mk.injEq] at he
    obtain ⟨-, rfl, rfl⟩ := he
    exact select_and_comm

theorem operandHit_faithful (h : Faithful cont cache) {lhs rhs operand other : IValueProvider D F}
    {entry : CacheEntry D F} (hh : operandHit cache lhs rhs = some (entry, operand, other)) :
    entry.docs = select cont entry.predicate := by
  rw [operandHit] at hh
  split_ifs at hh
  · obtain ⟨e, hl, he⟩ := Option.map_eq_some_iff.mp hh
    simp only [Prod.mk.injEq] at he
    exact he.1 ▸ h _ e hl
  · obtain ⟨e, hl, he⟩ := Option.map_eq_some_iff.mp hh
    simp only [Prod.mk.injEq] at he
    exact he.1 ▸ h _ e hl

/-- The answer before it is kept. -/
theorem answer_spec (hf : Faithful cont cache) (hc : chooseIsConst pred = none) :
    ∃ sel, (if cacheEstimatedWork cache pred < .some cont.length then cacheExecute cont cache pred
        else some (select cont pred)) = some sel ∧
      (sel = select cont pred ↔ SelectsAlike cont cache pred) := by
  cases hb : getBestCache cache pred with
  | some entry =>
    -- the predicate's own text
    have hentry : entry.docs = select cont entry.predicate := hf _ _ hb
    have halike : SelectsAlike cont cache pred ↔ select cont entry.predicate = select cont pred := by
      constructor
      · exact fun h => h.whole entry hc hb
      · refine fun h => ⟨fun e _ he => ?_, fun _ _ _ _ _ _ hn => ?_⟩
        · rw [hb] at he
          exact Option.some.inj he ▸ h
        · rw [hb] at hn; cases hn
    have hwork : cacheEstimatedWork cache pred = .some 0 := by rw [cacheEstimatedWork, hb]; rfl
    rw [hwork, halike]
    split_ifs with hlen
    · exact ⟨entry.docs, by rw [cacheExecute, hb], by rw [hentry]⟩
    · have hnil : cont = [] := by
        have : ¬ 0 < cont.length := fun h => hlen (WithTop.coe_lt_coe.mpr h)
        exact List.length_eq_zero_iff.mp (by omega)
      refine ⟨_, rfl, iff_of_true rfl ?_⟩
      subst hnil
      rfl
  | none =>
    cases ha : andOperands pred with
    | none =>
      have hwork : cacheEstimatedWork cache pred = ⊤ := by rw [cacheEstimatedWork, hb, ha]; rfl
      rw [hwork, if_neg (by simp)]
      refine ⟨_, rfl, iff_of_true rfl ⟨fun e _ he => ?_, fun _ _ _ _ _ _ _ hn => ?_⟩⟩
      · rw [hb] at he; cases he
      · rw [ha] at hn; cases hn
    | some operands =>
      obtain ⟨lhs, rhs⟩ := operands
      rw [cacheEstimatedWork_and hb ha, cacheExecute_and hb ha]
      have hpred := andOperands_eq ha
      have halike : SelectsAlike cont cache pred ↔ ∀ entry operand other,
          operandHit cache lhs rhs = some (entry, operand, other) →
          entry.docs.card < cont.length →
          forAll cont (check other) (select cont entry.predicate) =
            forAll cont (check other) (select cont operand) := by
        constructor
        · exact fun h entry operand other => h.operand lhs rhs entry operand other hc hb ha
        · refine fun h => ⟨fun e _ he => ?_, fun l r entry operand other _ _ hlr => ?_⟩
          · rw [hb] at he; cases he
          · rw [ha] at hlr
            simp only [Option.some.injEq, Prod.mk.injEq] at hlr
            obtain ⟨rfl, rfl⟩ := hlr
            exact h entry operand other
      rw [halike]
      cases hh : operandHit cache lhs rhs with
      | none =>
        rw [Option.map_none, cacheSize, if_neg (by simp)]
        exact ⟨_, rfl, iff_of_true rfl fun _ _ _ h => by cases h⟩
      | some hit =>
        obtain ⟨entry, operand, other⟩ := hit
        have hentry := operandHit_faithful hf hh
        simp only [Option.map_some, cacheSize, WithTop.coe_lt_coe, Option.some.injEq, Prod.mk.injEq]
        have hsel : select cont pred = forAll cont (check other) (select cont operand) := by
          rw [hpred, select_operandHit hh]
        split_ifs with hlen
        · refine ⟨_, rfl, ?_⟩
          rw [hsel, hentry]
          constructor
          · rintro h _ _ _ ⟨rfl, rfl, rfl⟩ -
            exact h
          · exact fun h => h entry operand other ⟨rfl, rfl, rfl⟩ hlen
        · refine ⟨_, rfl, iff_of_true rfl ?_⟩
          rintro _ _ _ ⟨rfl, rfl, rfl⟩ h
          exact absurd h hlen

/-- **One `CHOOSE`**: there is an answer, it is right exactly if the condition holds, and then the
cache stays faithful. -/
theorem handleOne_spec (hf : Faithful cont cache) (pred : IValueProvider D F) :
    ∃ sel cache', handleOne cont cache pred = some (sel, cache') ∧
      (sel = select cont pred → Faithful cont cache') ∧
      (sel = select cont pred ↔ SelectsAlike cont cache pred) := by
  cases hc : chooseIsConst pred with
  | some b =>
    refine ⟨_, _, handleOne_const hc, fun _ => hf, iff_of_true rfl ⟨fun _ h => ?_, ?_⟩⟩
    · rw [hc] at h; cases h
    · intro _ _ _ _ _ h
      rw [hc] at h; cases h
  | none =>
    obtain ⟨sel, hsel, hiff⟩ := answer_spec hf hc
    refine ⟨sel, _, ?_, fun h => faithful_addQueryResult hf h, hiff⟩
    rw [handleOne_eq hc, hsel, Option.map_some]

/-! ### Runs -/

def Step (cont : List D) (pred : IValueProvider D F) (cache cache' : QueryCache D F) : Prop :=
  ∃ sel, handleOne cont cache pred = some (sel, cache')

/-- The answer is the documents for which `Query::check` holds. -/
def RightAt (cont : List D) (cache : QueryCache D F) (pred : IValueProvider D F) : Prop :=
  ∃ cache', handleOne cont cache pred = some (select cont pred, cache')

/-- Every entry is found under the text of its predicate. -/
def Keyed (cache : QueryCache D F) : Prop := ∀ e ∈ cache, e.1 = e.2.predicate.toString

theorem keyed_step {cache' : QueryCache D F} (h : Keyed cache) (hs : Step cont pred cache cache') :
    Keyed cache' := by
  obtain ⟨sel, hs⟩ := hs
  obtain ⟨exec, -, hs⟩ := Option.bind_eq_some_iff.mp hs
  obtain ⟨sel', -, hs⟩ := Option.map_eq_some_iff.mp hs
  obtain ⟨-, rfl⟩ := Prod.mk.inj hs
  unfold alwaysAfterSelect addQueryResult
  split_ifs
  · cases getBestCache cache pred with
    | some entry => exact h
    | none => exact List.forall_mem_cons.mpr ⟨rfl, h⟩
  · exact h

theorem keyed_run {past : List (QueryCache D F × IValueProvider D F)}
    (h : Run (· = []) (Step cont) past cache) : Keyed cache ∧ ∀ p ∈ past, Keyed p.1 := by
  refine h.invariant Keyed (fun _ _ => True) ?_ (fun _ _ _ hk _ hs => keyed_step hk hs)
    fun _ _ => trivial
  rintro _ rfl
  exact List.forall_mem_nil _

omit [RapidJsonDocument D F] in
theorem operandHit_lookup {lhs rhs operand other : IValueProvider D F} {entry : CacheEntry D F}
    (hh : operandHit cache lhs rhs = some (entry, operand, other)) :
    getBestCache cache operand = some entry := by
  rw [operandHit] at hh
  split_ifs at hh
  · obtain ⟨e, hl, he⟩ := Option.map_eq_some_iff.mp hh
    simp only [Prod.mk.injEq] at he
    obtain ⟨rfl, rfl, -⟩ := he
    exact hl
  · obtain ⟨e, hl, he⟩ := Option.map_eq_some_iff.mp hh
    simp only [Prod.mk.injEq] at he
    obtain ⟨rfl, rfl, -⟩ := he
    exact hl

/-- What texts tell selects alike. -/
theorem Meets.selectsAlike {functions : Str → Option (Func D F)} (hk : Keyed cache)
    (h : Meets functions cont cache pred) : SelectsAlike cont cache pred := by
  refine ⟨fun entry _ hl => ?_, fun lhs rhs entry operand other _ hb ha hh hcard => ?_⟩
  · rw [(h.whole entry hl).eq (hk _ (mem_of_lookup hl)).symm]
  · have hl := operandHit_lookup hh
    rw [(h.operand lhs rhs entry operand other hb ha hh hcard).eq (hk _ (mem_of_lookup hl)).symm]

/-- Every `CHOOSE` of a run gets the right documents exactly if every entry used selects alike. -/
theorem choices_right_iff (cont : List D) (past : List (QueryCache D F × IValueProvider D F))
    (cache : QueryCache D F) (h : Run (· = []) (Step cont) past cache) :
    (∀ p ∈ past, RightAt cont p.1 p.2) ↔ ∀ p ∈ past, SelectsAlike cont p.1 p.2 := by
  refine h.each_iff (Faithful cont) _ _ ?_ (fun pred cache cache' hf hr hs => ?_)
    fun pred cache hf => ?_
  · rintro _ rfl text entry hl
    cases hl
  · obtain ⟨sel, c, h1, h2, -⟩ := handleOne_spec hf pred
    obtain ⟨c', hr⟩ := hr
    obtain ⟨sel', hs⟩ := hs
    have e1 := h1.symm.trans hr
    have e2 := h1.symm.trans hs
    simp only [Option.some.injEq, Prod.mk.injEq] at e1 e2
    exact e2.2 ▸ h2 e1.1
  · obtain ⟨sel, c, h1, -, h3⟩ := handleOne_spec hf pred
    rw [← h3]
    constructor
    · rintro ⟨c', hr⟩
      have e1 := h1.symm.trans hr
      simp only [Option.some.injEq, Prod.mk.injEq] at e1
      exact e1.1
    · rintro rfl
      exact ⟨c, h1⟩

def pointer (name : String) : IValueProvider (FlatDocument Float) Float := .pointer (ascii name)

/-- `'/a' == "x"` -/
def isX : IValueProvider (FlatDocument Float) Float :=
  .equality .equal (pointer "/a") (.atom (.string (ascii "x")))

/-- Two documents, `'/a' == "x"` holds for the first one. -/
def documents : List (FlatDocument Float) :=
  [⟨[(ascii "/a", .string (ascii "x")), (ascii "/c", .bool true)]⟩,
    ⟨[(ascii "/a", .string (ascii "y")), (ascii "/c", .bool true)]⟩]

def withC : IValueProvider (FlatDocument Float) Float := .bool .and isX (pointer "/c")

/-- The cache after `CHOOSE '/a' == "x"`. -/
def cachedX : QueryCache (FlatDocument Float) Float := [(isX.toString, ⟨{0}, isX⟩)]

def cachedWithC : QueryCache (FlatDocument Float) Float := (withC.toString, ⟨{0}, withC⟩) :: cachedX

theorem run_hits : Run (· = []) (Step documents) [(cachedX, withC), (cachedX, isX), ([], isX)]
    cachedWithC :=
  .step (.step (.step (.start rfl) ⟨{0}, rfl⟩) ⟨{0}, rfl⟩) ⟨{0}, rfl⟩

theorem unambiguous_isX : Unambiguous (fun _ => none) isX := by
  have hpointer : (39 : UInt8) ∉ ascii "/a" := by decide
  have hstring : (34 : UInt8) ∉ ascii "x" := by decide
  exact ⟨trivial, hpointer, hstring⟩

def document : FlatDocument Float :=
  ⟨[(ascii "/a", .string (ascii "x")), (ascii "/b", .string (ascii "x")), (ascii "/c", .bool true)]⟩

/-- `EQUAL(EQUAL('/a', '/b'), '/c')` -/
def leftNested : IValueProvider (FlatDocument Float) Float :=
  .equality .equal (.equality .equal (pointer "/a") (pointer "/b")) (pointer "/c")

/-- `EQUAL('/a', EQUAL('/b', '/c'))` -/
def rightNested : IValueProvider (FlatDocument Float) Float :=
  .equality .equal (pointer "/a") (.equality .equal (pointer "/b") (pointer "/c"))

/-- The cache after `CHOOSE EQUAL(EQUAL('/a', '/b'), '/c')`. -/
def leftCached : QueryCache (FlatDocument Float) Float := [(leftNested.toString, ⟨{0}, leftNested⟩)]

theorem run_left : Run (· = []) (Step [document]) [([], leftNested)] leftCached :=
  .step (.start rfl) ⟨{0}, rfl⟩

end Joda.Execution.CacheRuns
