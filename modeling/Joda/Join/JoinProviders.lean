import Joda.Storage.ViewedDocuments

/-! # The expressions of a join

The expressions a join is on. A function looks at the values of its parameters or takes the events that
are sent of them; a `UnaryPointerAcceptProvider` looks at the value of a pointer into a view only if the
pointer is a view path, and takes the events otherwise.

The iterator functions (`ANY`, `ALL`, `MAP`, `FILTER`) go through the elements of an array or the members
of an object and read their second parameter once for each: its prefixed pointers `$'…'` are followed
from the element, the others from the document. -/

namespace Joda.Join.JoinProviders

open Joda.Values.Value Joda.Values.Pointer Joda.Values.PointerSet Joda.Values.Provider
open Joda.Storage.View
open Joda.Storage.ViewedDocuments

variable {F : Type}

/-! ### The expressions -/

/-- A function of its parameters, made with what its constructor has read of these. Of some of them it
looks at the value, of the others it takes the events through a `ValueAccepter`. -/
structure Function (F : Type) where
  returnType : IValueType
  isAtom : Bool
  accepts : ℕ → Bool
  calculate : List (Param F) → Option (RJValue F)

/-- The calculator of a `UnaryPointerAcceptProvider`: what it makes of a value, and of the events of one. -/
structure AcceptCalc (F : Type) where
  returnType : IValueType
  pointer : Option (RJValue F) → RJValue F
  accept : RJValue F → RJValue F

/-- The functions of `IteratorProvider`. -/
inductive IteratorCalc where
  | any | all | map | filter
  deriving DecidableEq, Repr

/-- **An expression**; a prefixed pointer has the prefix it was given, if any. The first parameter of an
iterator function is a pointer. -/
inductive JoinProvider (F : Type) where
  | atom (val : Atom F)
  | null
  | pointer (ptrStr : Str)
  | prefixedPointer (given : Option Str) (ptrStr : Str)
  | bool (op : BoolCalc) (lhs rhs : JoinProvider F)
  | not (sub : JoinProvider F)
  | equality (op : EqualityCalc) (lhs rhs : JoinProvider F)
  | comparison (op : ComparisonCalc) (lhs rhs : JoinProvider F)
  | number (op : NumberCalc) (lhs rhs : JoinProvider F)
  | func (f : Function F) (params : List (JoinProvider F))
  | accepter (f : AcceptCalc F) (param : JoinProvider F)
  | iterator (iter : IteratorCalc) (state : Str) (param : JoinProvider F)

namespace JoinProvider

def getReturnType : JoinProvider F → IValueType
  | atom val => val.returnType
  | null => .IV_Null
  | pointer _ => .IV_Any
  | prefixedPointer .. => .IV_Any
  | bool .. => .IV_Bool
  | not _ => .IV_Bool
  | equality .. => .IV_Bool
  | comparison .. => .IV_Bool
  | number .. => .IV_Number
  | func f _ => f.returnType
  | accepter f _ => f.returnType
  | iterator .any .. => .IV_Bool
  | iterator .all .. => .IV_Bool
  | iterator .map .. => .IV_Array
  | iterator .filter .. => .IV_Array

def isAtom : JoinProvider F → Bool
  | pointer _ => false
  | prefixedPointer .. => false
  | func f _ => f.isAtom
  | _ => true

mutual

/-- The pointers an expression uses; the prefixed ones are not listed. -/
def getAttributes : JoinProvider F → List Str
  | atom _ => []
  | null => []
  | pointer ptrStr => [ptrStr]
  | prefixedPointer .. => []
  | bool _ lhs rhs => getAttributes lhs ++ getAttributes rhs
  | not sub => getAttributes sub
  | equality _ lhs rhs => getAttributes lhs ++ getAttributes rhs
  | comparison _ lhs rhs => getAttributes lhs ++ getAttributes rhs
  | number _ lhs rhs => getAttributes lhs ++ getAttributes rhs
  | func _ params => attributesOf params
  | accepter .. => []
  | iterator _ state param => state :: getAttributes param

def attributesOf : List (JoinProvider F) → List Str
  | [] => []
  | p :: params => getAttributes p ++ attributesOf params

end

mutual

/-- **`prependAttributes`**: only prefixed pointers can be prefixed. -/
def prependAttributes (pre : Str) : JoinProvider F → JoinProvider F
  | atom val => atom val
  | null => null
  | pointer ptrStr => pointer ptrStr
  | prefixedPointer _ ptrStr => prefixedPointer (some pre) ptrStr
  | bool op lhs rhs => bool op (prependAttributes pre lhs) (prependAttributes pre rhs)
  | not sub => not (prependAttributes pre sub)
  | equality op lhs rhs => equality op (prependAttributes pre lhs) (prependAttributes pre rhs)
  | comparison op lhs rhs => comparison op (prependAttributes pre lhs) (prependAttributes pre rhs)
  | number op lhs rhs => number op (prependAttributes pre lhs) (prependAttributes pre rhs)
  | func f params => func f (prependParams pre params)
  | accepter f param => accepter f (prependAttributes pre param)
  | iterator iter state param => iterator iter state (prependAttributes pre param)

def prependParams (pre : Str) : List (JoinProvider F) → List (JoinProvider F)
  | [] => []
  | p :: params => prependAttributes pre p :: prependParams pre params

end

/-! ### Values -/

/-- `ViewLayer::pointerIsOverwritten` of the first layer, and `objIsPointerEvaluatable`. -/
def objIsPointerEvaluatable (json : ViewedDocument F) (ptrStr : Str) : Bool :=
  json.view.head?.all fun layer => layer.viewPaths.any fun path => stringify path = ptrStr

/-- `getAttributes` of `ExtractIteratorHandler`, after the events of a value. -/
def extracted (v : RJValue F) : List Str :=
  match v with
  | .object ms => ms.map Prod.fst
  | .array vs => (List.range vs.length).map fun i => ascii (ToString.toString i)
  | _ => []

/-- The pointer of a prefixed one: after `duplicate`, it has the prefix of the element only; one that was
given none is the default pointer. -/
def prefixedPtr (element given : Option Str) (ptrStr : Str) : Str :=
  match element with
  | some pre => pre ++ ptrStr
  | none => given.elim [] (· ++ ptrStr)

/-- The prefix for an element. -/
def elementPrefix (state attr : Str) : Str := state ++ 47 :: attr

/-- The pointer an expression is, if it is one. -/
def pointerOf (element : Option Str) : JoinProvider F → Option Str
  | pointer ptrStr => some ptrStr
  | prefixedPointer given ptrStr => some (prefixedPtr element given ptrStr)
  | _ => none

/-- **`getAtomValue` of a `UnaryPointerAcceptProvider`**, with the value of its parameter. -/
def calculateAccepter (json : ViewedDocument F) (ptr : Option Str) (isAtom : Bool)
    (value : Option (RJValue F)) (f : AcceptCalc F) : RJValue F :=
  if isAtom then f.pointer value
  else
    match if ptr.all (objIsPointerEvaluatable json) then value else none with
    | some v => f.pointer (some v)
    | none => f.accept (ptr.elim (value.getD .null) (RapidJsonDocument.accept json))

variable [Double F]

/-- **`calculate` of the iterator functions**, with the value of the parameter for an element. -/
def calculateIterator (json : ViewedDocument F) (state : Str) (value : Str → Option (RJValue F)) :
    IteratorCalc → RJValue F
  | .any => .bool ((extracted (RapidJsonDocument.accept json state)).any fun attr =>
      RJValue.asBool (value (elementPrefix state attr)))
  | .all => .bool ((extracted (RapidJsonDocument.accept json state)).all fun attr =>
      RJValue.asBool (value (elementPrefix state attr)))
  | .map => .array ((extracted (RapidJsonDocument.accept json state)).filterMap fun attr =>
      value (elementPrefix state attr))
  | .filter =>
    match RapidJsonDocument.get json state with
    | none => .null
    | some (.array vs) => .array ((vs.zipIdx.filter fun e =>
        RJValue.asBool (value (elementPrefix state (ascii (ToString.toString e.2))))).map Prod.fst)
    | some _ => .array []

mutual

/-- **The value of an expression** on a document, for an element if it is the parameter of an iterator
function: `getAtomValue` of an atom, `getValue` of the others. -/
def getValue (json : ViewedDocument F) (element : Option Str) : JoinProvider F → Option (RJValue F)
  | atom val => some val.getAtomValue
  | null => some .null
  | pointer ptrStr => RapidJsonDocument.get json ptrStr
  | prefixedPointer given ptrStr => RapidJsonDocument.get json (prefixedPtr element given ptrStr)
  | bool op lhs rhs => some (.bool (op.calculate (RJValue.asBool (getValue json element lhs))
      (RJValue.asBool (getValue json element rhs))))
  | not sub => some (IValueProvider.notValue (getValue json element sub))
  | equality op lhs rhs => some (.bool (op.calculate
      (RJValue.equal (getValue json element lhs) (getValue json element rhs))))
  | comparison op lhs rhs => some (IValueProvider.comparisonValue op (getValue json element lhs)
      (getValue json element rhs))
  | number op lhs rhs => some (IValueProvider.numberValue op (getValue json element lhs)
      (getValue json element rhs))
  | func f params => f.calculate (getParams json element f.accepts params)
  | accepter f param =>
    some (calculateAccepter json (pointerOf element param) (isAtom param)
      (getValue json element param) f)
  | iterator iter state param =>
    some (calculateIterator json state (fun pre => getValue json (some pre) param) iter)

def getParams (json : ViewedDocument F) (element : Option Str) (accepts : ℕ → Bool) :
    List (JoinProvider F) → List (Param F)
  | [] => []
  | p :: params =>
    { type := getReturnType p
      isAtom := isAtom p
      value := if accepts 0 then some ((pointerOf element p).elim ((getValue json element p).getD .null)
          (RapidJsonDocument.accept json))
        else getValue json element p } :: getParams json element (fun k => accepts (k + 1)) params

end

end JoinProvider

end Joda.Join.JoinProviders
