import Joda.Text
import Mathlib.Data.Int.Notation

/-! # JSON values

The values documents have and functions return, and how they are compared. A number is an integer or
a double; the doubles are a parameter (`Double`). The comparison of arrays and objects is the one of
RapidJSON. -/

namespace Joda.Values.Value

/-- The floating-point numbers, as far as they are used. -/
class Double (F : Type) where
  ofInt : ℤ → F
  add : F → F → F
  sub : F → F → F
  mul : F → F → F
  div : F → F → F
  fmod : F → F → F
  pow : F → F → F
  atan2 : F → F → F
  isZero : F → Bool
  isFinite : F → Bool
  less : F → F → Bool
  lessEq : F → F → Bool
  /-- `fabs(lhs - rhs) < epsilon` -/
  near : F → F → Bool
  /-- `std::to_string` -/
  print : F → Str

instance : Double Float where
  ofInt z := .ofInt z
  add := (· + ·)
  sub := (· - ·)
  mul := (· * ·)
  div := (· / ·)
  fmod a b := a - b * (if a / b < 0 then (a / b).ceil else (a / b).floor)
  pow := Float.pow
  atan2 := Float.atan2
  isZero a := a == 0
  isFinite := Float.isFinite
  less a b := a < b
  lessEq a b := a ≤ b
  near a b := (a - b).abs < 2.220446049250313e-16
  print a := ascii a.toString

inductive Number (F : Type) where
  | int (z : ℤ)
  | double (x : F)

variable {F : Type} [Double F]

namespace Number

def isUint64 : Number F → Bool
  | int z => decide (0 ≤ z ∧ z < 2 ^ 64)
  | double _ => false

def isInt64 : Number F → Bool
  | int z => decide (-2 ^ 63 ≤ z ∧ z < 2 ^ 63)
  | double _ => false

def getDouble : Number F → F
  | int z => Double.ofInt z
  | double x => x

def getInt : Number F → ℤ
  | int z => z
  | double _ => 0

end Number

/-- An object is the list of its members. -/
inductive RJValue (F : Type) where
  | null
  | bool (b : Bool)
  | number (n : Number F)
  | string (s : Str)
  | array (vs : List (RJValue F))
  | object (ms : List (Str × RJValue F))

namespace RJValue

def numberEqual : Number F → Number F → Bool
  | .int a, .int b => a == b
  | a, b => Double.lessEq b.getDouble a.getDouble && Double.lessEq a.getDouble b.getDouble

mutual

/-- RapidJSON's `operator==`. -/
def deepEqual : RJValue F → RJValue F → Bool
  | null, null => true
  | bool a, bool b => a == b
  | number a, number b => numberEqual a b
  | string a, string b => a == b
  | array vs, array ws => arrayEqual vs ws
  | object ms, object ns => ms.length == ns.length && membersEqual ms ns
  | _, _ => false

def arrayEqual : List (RJValue F) → List (RJValue F) → Bool
  | [], [] => true
  | v :: vs, w :: ws => deepEqual v w && arrayEqual vs ws
  | _, _ => false

/-- Every member of the left object is found in the right one. -/
def membersEqual : List (Str × RJValue F) → List (Str × RJValue F) → Bool
  | (name, v) :: ms, ns =>
    (match ns.lookup name with
      | some w => deepEqual v w
      | none => false) && membersEqual ms ns
  | [], _ => true

end

/-- `IsBool() && GetBool()`, false where there is no value. -/
def asBool : Option (RJValue F) → Bool
  | some (bool b) => b
  | _ => false

/-- `IValueProvider::equal`: no answer where one of the values is missing. -/
def equal : Option (RJValue F) → Option (RJValue F) → Option Bool
  | some lhs, some rhs =>
    some (match lhs, rhs with
      | number a, number b =>
        if a.isUint64 && b.isUint64 || a.isInt64 && b.isInt64 then a.getInt == b.getInt
        else Double.near a.getDouble b.getDouble
      | string a, string b => cString a == cString b
      | lhs, rhs => deepEqual lhs rhs)
  | _, _ => none

end RJValue

end Joda.Values.Value
