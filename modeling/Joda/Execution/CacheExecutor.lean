import Joda.Execution.Container
import Mathlib.Data.Finset.Card
import Mathlib.Order.WithBot

/-! # The query cache

`ChooseExec::handleOne` gives the predicate of a `CHOOSE` to the executor that expects the least work
in the container. `CacheExecutor` answers it from the selections of earlier predicates, which it finds
by their texts: the one of the predicate itself, or the one of an operand of an `AND` at its root, on
which the other operand is then evaluated. -/

namespace Joda.Execution.CacheExecutor

open Joda.Values.Value Joda.Values.Provider Joda.Values.Provider.IValueProvider
open Joda.Execution.Container

variable {D F : Type} [Double F] [RapidJsonDocument D F]

/-! ### `QueryCache` -/

structure CacheEntry (D F : Type) where
  docs : DocIndex
  predicate : IValueProvider D F

/-- `queryMap` -/
abbrev QueryCache (D F : Type) := List (Str × CacheEntry D F)

def getBestCache (cache : QueryCache D F) (pred : IValueProvider D F) : Option (CacheEntry D F) :=
  cache.lookup pred.toString

/-- An entry that is there already stays. -/
def addQueryResult (cache : QueryCache D F) (docs : DocIndex) (pred : IValueProvider D F) :
    QueryCache D F :=
  match getBestCache cache pred with
  | some _ => cache
  | none => (pred.toString, ⟨docs, pred⟩) :: cache

/-! ### The executors -/

/-- `count()`, or `NOT_APPLICABLE` (`⊤`) where there is no selection. -/
def cacheSize : Option (CacheEntry D F) → WithTop ℕ
  | some entry => .some entry.docs.card
  | none => ⊤

/-- `dynamic_cast<AndProvider*>` -/
def andOperands : IValueProvider D F → Option (IValueProvider D F × IValueProvider D F)
  | .bool .and lhs rhs => some (lhs, rhs)
  | _ => none

def cacheEstimatedWork (cache : QueryCache D F) (pred : IValueProvider D F) : WithTop ℕ :=
  if (getBestCache cache pred).isSome then .some 0
  else
    match andOperands pred with
    | none => ⊤
    | some (lhs, rhs) =>
      let lhscacheSize := cacheSize (getBestCache cache lhs)
      let rhscacheSize := cacheSize (getBestCache cache rhs)
      if lhscacheSize ≤ rhscacheSize then lhscacheSize else rhscacheSize

/-- `CacheExecutor::execute`, `none` where it would follow a null pointer. -/
def cacheExecute (cont : List D) (cache : QueryCache D F) (pred : IValueProvider D F) :
    Option DocIndex :=
  match getBestCache cache pred with
  | some wholecache => some wholecache.docs
  | none =>
    (andOperands pred).bind fun (lhs, rhs) =>
      let lhscache := getBestCache cache lhs
      let rhscache := getBestCache cache rhs
      if cacheSize lhscache ≤ cacheSize rhscache then
        lhscache.map fun entry => forAll cont (check rhs) entry.docs
      else rhscache.map fun entry => forAll cont (check lhs) entry.docs

/-- `ConstExecutor::execute`; no selection is the empty one. -/
def constExecute (cont : List D) (pred : IValueProvider D F) : Option DocIndex :=
  (chooseIsConst pred).map fun all => if all then Finset.range cont.length else ∅

inductive Executor where
  | const | default | cache
  deriving DecidableEq, Repr

def Executor.estimatedWork (cont : List D) (cache : QueryCache D F) (pred : IValueProvider D F) :
    Executor → WithTop ℕ
  | .const => if (chooseIsConst pred).isSome then .some 0 else ⊤
  | .default => .some cont.length
  | .cache => cacheEstimatedWork cache pred

def Executor.execute (cont : List D) (cache : QueryCache D F) (pred : IValueProvider D F) :
    Executor → Option DocIndex
  | .const => constExecute cont pred
  | .default => some (select cont pred)
  | .cache => cacheExecute cont cache pred

/-- `PipelineQueryPlan::planCHOOSE` -/
def executors (pred : IValueProvider D F) : List Executor :=
  if (chooseIsConst pred).isSome then [.const] else [.const, .default, .cache]

/-- The executor with the least work, the first of those with the same. -/
def chooseExecutor (work : Executor → WithTop ℕ) (execs : List Executor) : Option Executor :=
  (execs.foldl (fun (best : WithTop ℕ × Option Executor) executor =>
    if work executor < best.1 then (work executor, some executor) else best) (⊤, none)).2

/-- `alwaysAfterSelect` of all executors. -/
def alwaysAfterSelect (execs : List Executor) (cache : QueryCache D F) (sel : DocIndex)
    (pred : IValueProvider D F) : QueryCache D F :=
  if Executor.cache ∈ execs then addQueryResult cache sel pred else cache

/-- **`ChooseExec::handleOne`**: the selection, and the cache of the container afterwards. -/
def handleOne (cont : List D) (cache : QueryCache D F) (pred : IValueProvider D F) :
    Option (DocIndex × QueryCache D F) :=
  (chooseExecutor (Executor.estimatedWork cont cache pred) (executors pred)).bind fun exec =>
    (exec.execute cont cache pred).map fun sel =>
      (sel, alwaysAfterSelect (executors pred) cache sel pred)

end Joda.Execution.CacheExecutor
