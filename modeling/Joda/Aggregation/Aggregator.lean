import Joda.Aggregation.AttributeStat
import Joda.Values.Provider
import Mathlib.Algebra.Group.Defs
import Mathlib.Algebra.BigOperators.Group.Multiset.Basic
import Mathlib.Data.Rat.Floor

/-! # Aggregators

An aggregator takes documents one by one, is merged with another one of its kind and ends in a value.
The numbers are exact here: they are added and compared as elements of an ordered commutative monoid.
What an aggregator holds is a matter of the documents it has taken, whatever their order (`Holds`). -/

namespace Joda.Aggregation.Aggregator

open Joda.Lib.Table Joda.Values.Value Joda.Values.Provider Joda.Aggregation.AttributeStat

/-- The exact numbers, as far as they are rational. -/
instance : Double ℚ where
  ofInt z := z
  add := (· + ·)
  sub := (· - ·)
  mul := (· * ·)
  div := (· / ·)
  fmod a b := a - b * (if a / b < 0 then ⌈a / b⌉ else ⌊a / b⌋)
  pow a b := a ^ b.num
  atan2 _ _ := 0
  isZero a := decide (a = 0)
  isFinite _ := true
  less a b := decide (a < b)
  lessEq a b := decide (a ≤ b)
  near a b := decide (a = b)
  print a := ascii (toString a)

/-- A regular axis of boost with the buckets below and above: the bucket of a number, and the bounds of
a bucket where they are finite. -/
structure Axis (F : Type) where
  size : ℕ
  index : F → ℕ
  lower : ℕ → Option F
  upper : ℕ → Option F

/-- What the aggregators use of the libraries. -/
class Library (F : Type) where
  /-- `axis::regular<>(bins, min, max)` -/
  regular : ℤ → F → F → Axis F
  /-- `GetDouble` of an array. -/
  arrayDouble : List (RJValue F) → F

instance : Library ℚ where
  regular bins min max :=
    { size := bins.toNat + 2
      index := fun x =>
        if x < min then 0 else if max ≤ x then bins.toNat + 1
        else ⌊(x - min) / (max - min) * bins⌋.toNat + 1
      lower := fun i => if i = 0 then none else some (min + (max - min) * ((i - 1 : ℕ) / bins))
      upper := fun i => if i = bins.toNat + 1 then none else some (min + (max - min) * (i / bins)) }
  arrayDouble vs := vs.length

/-! ### The classes -/

inductive NumberAggregatorFunc where
  | min | max | sum | avg
  deriving DecidableEq, Repr

inductive AggregatorClass where
  | count
  | number (T : NumberAggregatorFunc)
  | collect
  | distinct (stringEnabled boolEnabled numEnabled : Bool)
  | histogram
  | attStat
  deriving DecidableEq, Repr

/-- **An aggregator.** -/
inductive IAggregator (D F : Type) where
  | basic (c : AggregatorClass) (toPointer : Str) (params : List (IValueProvider D F))
  | group (toPointer : Str) (groupBy : IValueProvider D F) (protoAgg : IAggregator D F) (groupAs : Str)

namespace AggregatorClass

def getName : AggregatorClass → Str
  | count => ascii "COUNT"
  | number .min => ascii "MIN"
  | number .max => ascii "MAX"
  | number .sum => ascii "SUM"
  | number .avg => ascii "AVG"
  | collect => ascii "COLLECT"
  | distinct .. => ascii "DISTINCT"
  | histogram => ascii "HISTOGRAM"
  | attStat => ascii "ATTSTAT"

/-- Whether `dynamic_cast` to the class succeeds. -/
def castable : AggregatorClass → AggregatorClass → Bool
  | distinct .., distinct .. => true
  | c, c' => decide (c = c')

theorem castable_self (c : AggregatorClass) : castable c c = true := by
  cases c <;> simp [castable]

end AggregatorClass

variable {D F : Type} [Double F] [RapidJsonDocument D F]

namespace IAggregator

def getDestPointer : IAggregator D F → Str
  | basic _ toPointer _ => toPointer
  | group toPointer .. => toPointer

def getName : IAggregator D F → Str
  | basic c _ _ => c.getName
  | group _ _ protoAgg _ => ascii "GROUP " ++ getName protoAgg

def getParameterStringRepresentation : IAggregator D F → Str
  | basic _ _ params => List.intercalate (ascii ", ") (IValueProvider.toStrings params)
  | group .. => []

/-- **The text of an aggregator.** -/
def toString : IAggregator D F → Str
  | basic c toPointer params =>
    ascii "'" ++ toPointer ++ ascii "':" ++ c.getName ++ ascii "(" ++
      List.intercalate (ascii ", ") (IValueProvider.toStrings params) ++ ascii ")"
  | group toPointer groupBy protoAgg groupAs =>
    ascii "'" ++ toPointer ++ ascii "':" ++ ascii "GROUP " ++ protoAgg.getName ++ ascii "(" ++
      protoAgg.getParameterStringRepresentation ++ ascii ") " ++
      (if groupAs = [] then [] else ascii "AS " ++ groupAs ++ ascii " ") ++ ascii "BY " ++
      groupBy.toString

/-- The pointers that are materialised for an aggregator; `ATTSTAT` has none. -/
def getAttributes : IAggregator D F → List Str
  | basic .attStat _ _ => []
  | basic _ _ params => IValueProvider.attributesOf params
  | group _ groupBy protoAgg _ => protoAgg.getAttributes ++ groupBy.getAttributes

/-- The name of the member for the result of a group. -/
def getGroupName (protoAgg : IAggregator D F) (groupAs : Str) : Str :=
  if groupAs = [] then
    protoAgg.getName ++ ascii "(" ++ protoAgg.getParameterStringRepresentation ++ ascii ")"
  else groupAs

end IAggregator

/-! ### What is read of a document -/

/-- `getAtomValue` of an atom, `getValue` of the others. -/
def valueOf (p : IValueProvider D F) (json : D) : Option (RJValue F) :=
  if p.isAtom then some ((p.getValue json).getD .null) else p.getValue json

/-- The value of the parameter at a place. -/
def param (params : List (IValueProvider D F)) (i : ℕ) (json : D) : Option (RJValue F) :=
  params[i]?.bind fun p => valueOf p json

/-- What `ValueAccepter::Accept` sends of the first parameter: a pointer that finds nothing sends null. -/
def accepted (params : List (IValueProvider D F)) (json : D) : Option (RJValue F) :=
  match params with
  | .pointer ptrStr :: _ => some (RapidJsonDocument.accept json ptrStr)
  | _ => param params 0 json

def counts (params : List (IValueProvider D F)) (json : D) : Bool :=
  params.isEmpty || (param params 0 json).isSome

def isNumber : RJValue F → Bool
  | .number _ => true
  | _ => false

/-- The second parameter, if there is one, says whether arrays are read. -/
def enableArray (params : List (IValueProvider D F)) : Bool :=
  RJValue.asBool (param params 1 RapidJsonDocument.empty)

/-- The numbers that are aggregated: one for each number in an array, but it is `GetDouble` of the
array. -/
def numbersOf [Library F] (params : List (IValueProvider D F)) (json : D) : List F :=
  match param params 0 json with
  | some (.number n) => [n.getDouble]
  | some (.array vs) =>
    if enableArray params then (vs.filter isNumber).map fun _ => Library.arrayDouble vs else []
  | _ => []

/-- `COLLECT` has null for a missing value. -/
def collected (params : List (IValueProvider D F)) (json : D) : RJValue F :=
  (param params 0 json).getD .null

def stringsOf (stringEnabled : Bool) (params : List (IValueProvider D F)) (json : D) : List Str :=
  match param params 0 json with
  | some (.string s) => if stringEnabled then [cString s] else []
  | _ => []

def distinctNumbers (numEnabled : Bool) (params : List (IValueProvider D F)) (json : D) : List F :=
  match param params 0 json with
  | some (.number n) => if numEnabled then [n.getDouble] else []
  | _ => []

/-- Whether the value is this boolean. -/
def isThe (b boolEnabled : Bool) (params : List (IValueProvider D F)) (json : D) : Bool :=
  match param params 0 json with
  | some (.bool b') => boolEnabled && b' == b
  | _ => false

def doubleOf : Option (RJValue F) → F
  | some (.number n) => n.getDouble
  | _ => Double.ofInt 0

def intOf : Option (RJValue F) → ℤ
  | some (.number n) => n.getInt
  | _ => 0

/-- The axis of a histogram, by its constant parameters. -/
def axisOf [Library F] (params : List (IValueProvider D F)) : Axis F :=
  Library.regular (intOf (param params 1 RapidJsonDocument.empty))
    (doubleOf (param params 2 RapidJsonDocument.empty))
    (doubleOf (param params 3 RapidJsonDocument.empty))

/-- The bucket of a document. -/
def bucketOf [Library F] (params : List (IValueProvider D F)) (json : D) : Option ℕ :=
  match param params 0 json with
  | some (.number n) => some ((axisOf params).index n.getDouble)
  | _ => none

/-- What a group is named by. -/
inductive GroupKey (F : Type) where
  | str (s : Str)
  | num (x : F)
  | bool (b : Bool)
  deriving DecidableEq

/-- The group of a document, if it is in one. -/
def groupOf (groupBy : IValueProvider D F) (json : D) : Option (GroupKey F) :=
  match valueOf groupBy json with
  | some (.string s) => some (.str (cString s))
  | some (.number n) => some (.num n.getDouble)
  | some (.bool b) => some (.bool b)
  | _ => none

/-! ### States -/

/-- The rep of a number aggregator is its second component; `AVG` uses the first one too. -/
abbrev AggRep (F : Type) := ℕ × F

inductive BasicState (F : Type) where
  | count (n : ℕ)
  | number (val : Option (AggRep F))
  | collect (list : List (RJValue F))
  | distinct (strSet : List Str) (numSet : List F) (hasTrue hasFalse : Bool)
  | histogram (hist : List ℕ)
  | attStat (handler : Node F)

/-- **What an aggregator has accumulated.** The groups of all types are in one table. -/
inductive AggState (F : Type) where
  | basic (s : BasicState F)
  | group (groups : List (GroupKey F × AggState F))

variable [AddCommMonoid F] [LinearOrder F]

namespace NumberAggregatorFunc

def aggregateFirst (val : F) : AggRep F := (1, val)

def aggregateRep : NumberAggregatorFunc → AggRep F → AggRep F → AggRep F
  | min, old, val => (old.1 + val.1, Min.min old.2 val.2)
  | max, old, val => (old.1 + val.1, Max.max old.2 val.2)
  | sum, old, val => (old.1 + val.1, old.2 + val.2)
  | avg, old, val => (old.1 + val.1, old.2 + val.2)

def aggregate : NumberAggregatorFunc → AggRep F → F → AggRep F
  | min, old, val => (old.1 + 1, Min.min old.2 val)
  | max, old, val => (old.1 + 1, Max.max old.2 val)
  | sum, old, val => (old.1 + 1, old.2 + val)
  | avg, old, val => (old.1 + 1, old.2 + val)

def getDouble : NumberAggregatorFunc → AggRep F → F
  | avg, val => Double.div val.2 (Double.ofInt val.1)
  | _, val => val.2

/-- `merge`, where nothing was aggregated too. -/
def combine (T : NumberAggregatorFunc) : Option (AggRep F) → Option (AggRep F) → Option (AggRep F)
  | none, o => o
  | s, none => s
  | some s, some o => some (T.aggregateRep s o)

omit [Double F] in
theorem combine_comm (T : NumberAggregatorFunc) (s o : Option (AggRep F)) :
    T.combine s o = T.combine o s := by
  rcases s with _ | s <;> rcases o with _ | o
  · rfl
  · rfl
  · rfl
  · cases T <;> simp only [combine, aggregateRep, min_comm, max_comm, add_comm]

omit [Double F] in
theorem combine_assoc (T : NumberAggregatorFunc) (s t u : Option (AggRep F)) :
    T.combine (T.combine s t) u = T.combine s (T.combine t u) := by
  rcases s with _ | s <;> rcases t with _ | t <;> rcases u with _ | u <;> try rfl
  cases T <;> simp only [combine, aggregateRep, min_assoc, max_assoc, add_assoc]

omit [Double F] in
@[simp] theorem combine_none (T : NumberAggregatorFunc) (s : Option (AggRep F)) :
    T.combine s none = s := by
  rcases s with _ | s <;> rfl

instance (T : NumberAggregatorFunc) : Std.Commutative (T.combine (F := F)) := ⟨T.combine_comm⟩

instance (T : NumberAggregatorFunc) : Std.Associative (T.combine (F := F)) := ⟨T.combine_assoc⟩

/-- One more number. -/
def take (T : NumberAggregatorFunc) (s : Option (AggRep F)) (x : F) : Option (AggRep F) :=
  match s with
  | some old => some (T.aggregate old x)
  | none => some (aggregateFirst x)

omit [Double F] in
theorem take_eq (T : NumberAggregatorFunc) (s : Option (AggRep F)) (x : F) :
    T.take s x = T.combine s (some (aggregateFirst x)) := by
  rcases s with _ | s
  · rfl
  · cases T <;> rfl

end NumberAggregatorFunc

variable [Library F]

/-! ### `accumulate`, `merge`, `terminate` -/

section Basic

variable (params : List (IValueProvider D F))

/-- A new aggregator. -/
def initBasic : AggregatorClass → BasicState F
  | .count => .count 0
  | .number _ => .number none
  | .collect => .collect []
  | .distinct .. => .distinct [] [] false false
  | .histogram => .histogram (List.replicate (axisOf params).size 0)
  | .attStat => .attStat (.empty [])

def accumulateBasic (json : D) : AggregatorClass → BasicState F → BasicState F
  | .count, .count n => .count (if counts params json then n + 1 else n)
  | .number T, .number val => .number ((numbersOf params json).foldl T.take val)
  | .collect, .collect list => .collect (list ++ [collected params json])
  | .distinct stringEnabled boolEnabled numEnabled, .distinct strSet numSet hasTrue hasFalse =>
    .distinct ((stringsOf stringEnabled params json).foldl (fun l s => l.insert s) strSet)
      ((distinctNumbers numEnabled params json).foldl (fun l x => l.insert x) numSet)
      (hasTrue || isThe true boolEnabled params json)
      (hasFalse || isThe false boolEnabled params json)
  | .histogram, .histogram hist => .histogram
      (match bucketOf params json with
        | some i => hist.modify i (· + 1)
        | none => hist)
  | .attStat, .attStat handler => .attStat ((accepted params json).elim handler fun v => addValue v handler)
  | _, s => s

def mergeBasic : AggregatorClass → BasicState F → BasicState F → Option (BasicState F)
  | .count, .count n, .count m => some (.count (n + m))
  | .number T, .number val, .number val' => some (.number (T.combine val val'))
  | .collect, .collect list, .collect list' => some (.collect (list ++ list'))
  | .distinct .., .distinct strSet numSet hasTrue hasFalse,
      .distinct strSet' numSet' hasTrue' hasFalse' =>
    some (.distinct (strSet'.foldl (fun l s => l.insert s) strSet)
      (numSet'.foldl (fun l x => l.insert x) numSet) (hasTrue || hasTrue') (hasFalse || hasFalse'))
  | .histogram, .histogram hist, .histogram hist' => some (.histogram (List.zipWith (· + ·) hist hist'))
  | .attStat, .attStat handler, .attStat handler' => some (.attStat (AttributeStat.merge handler' handler))
  | _, _, _ => none

/-- A bucket of the result; an empty one without bound is skipped. -/
def bucket (axis : Axis F) (i n : ℕ) : Option (RJValue F) :=
  if n = 0 ∧ (axis.lower i = none ∨ axis.upper i = none) then none
  else some (ofEntries ((axis.lower i).toList.map (fun x => (ascii "lower", .number (.double x))) ++
    (axis.upper i).toList.map (fun x => (ascii "upper", .number (.double x))) ++
    [(ascii "value", .number (.int n))]))

def terminateBasic : AggregatorClass → BasicState F → RJValue F
  | _, .count n => .number (.int n)
  | .number T, .number val => val.elim .null fun val => .number (.double (T.getDouble val))
  | _, .number _ => .null
  | _, .collect list => .array list
  | .distinct stringEnabled boolEnabled numEnabled, .distinct strSet numSet hasTrue hasFalse =>
    .array ((if stringEnabled then strSet.map .string else []) ++
      (if numEnabled then numSet.map (fun x => .number (.double x)) else []) ++
      (if boolEnabled && hasTrue then [.bool true] else []) ++
      (if boolEnabled && hasFalse then [.bool false] else []))
  | _, .distinct .. => .null
  | _, .histogram hist => .array (hist.zipIdx.filterMap fun e => bucket (axisOf params) e.2 e.1)
  | _, .attStat handler => toValue handler

end Basic

/-- `duplicate`: a new aggregator with the same parameters. -/
def init : IAggregator D F → AggState F
  | .basic c _ params => .basic (initBasic params c)
  | .group .. => .group []

/-- **`accumulate`** -/
def accumulate : IAggregator D F → D → AggState F → AggState F
  | .basic c _ params, json, .basic s => .basic (accumulateBasic params json c s)
  | .group _ groupBy protoAgg _, json, .group groups =>
    match groupOf groupBy json with
    | some key => .group (atKey Prod.fst key (key, accumulate protoAgg json (init protoAgg))
        (fun e => (e.1, accumulate protoAgg json e.2)) groups)
    | none => .group groups
  | _, _, s => s

/-- **`merge`** of the second into the first, `none` where the `dynamic_cast` fails. -/
def merge : IAggregator D F → IAggregator D F → AggState F → AggState F → Option (AggState F)
  | .basic c _ _, .basic c' _ _, .basic s, .basic o =>
    if c.castable c' then (mergeBasic c s o).map .basic else none
  | .group _ _ protoAgg _, .group _ _ protoAgg' _, .group groups, .group others =>
    (mergeTable Prod.fst id (fun o e => (merge protoAgg protoAgg' e.2 o.2).map fun s => (e.1, s)) others
      groups).map .group
  | _, _, _, _ => none

def keyValue : GroupKey F → RJValue F
  | .str s => .string s
  | .num x => .number (.double x)
  | .bool b => .bool b

/-- The result of one group. -/
def groupEntry (groupBy : IValueProvider D F) (protoAgg : IAggregator D F) (groupAs : Str)
    (e : GroupKey F × RJValue F) : RJValue F :=
  .object [(ascii "group", keyValue e.1), (ascii "groupedBy", .string groupBy.toString),
    (IAggregator.getGroupName protoAgg groupAs, e.2)]

/-- **`terminate`** -/
def terminate : IAggregator D F → AggState F → RJValue F
  | .basic c _ params, .basic s => terminateBasic params c s
  | .group _ groupBy protoAgg groupAs, .group groups =>
    .array (groups.map fun e => groupEntry groupBy protoAgg groupAs (e.1, terminate protoAgg e.2))
  | _, _ => .null

/-- The documents are accumulated one after the other. -/
def run (agg : IAggregator D F) (docs : List D) : AggState F :=
  docs.foldl (fun s json => accumulate agg json s) (init agg)

end Joda.Aggregation.Aggregator
