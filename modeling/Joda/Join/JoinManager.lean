import Joda.Values.Value

/-! # Join managers

A join manager groups documents by the values its value provider gives for them. Documents are an
arbitrary type, of which the managers use what is in `Documents`. -/

namespace Joda.Join.JoinManager

open Joda.Values.Value

/-- **What the managers use of a document**: the join value (`valProv`), the JSON it holds (`getJson`),
and its content, which is what `Accept` writes. They are the same unless it is a document of a view. -/
structure Documents (Doc F : Type) where
  valProv : Doc → Option (RJValue F)
  getJson : Doc → RJValue F
  content : Doc → RJValue F

/-- A value that can be hashed. -/
inductive JoinValue where
  | bool (b : Bool)
  | int (d : ℤ)
  | string (s : Str)
  deriving DecidableEq

def JoinValue.toJson {F : Type} : JoinValue → RJValue F
  | bool b => .bool b
  | int d => .number (.int d)
  | string s => .string s

/-- The value as it is read by `getJoinVal`, a string as a C string. -/
def JoinValue.read : JoinValue → JoinValue
  | string s => string (cString s)
  | v => v

/-- The cases of `getJoinVal`; `none` is `NOT_HASHABLE`. -/
def hashable {F : Type} [Double F] : RJValue F → Option JoinValue
  | .bool b => some (.bool b)
  | .number n => if n.isInt64 then some (.int n.getInt) else none
  | .string s => some (.string s)
  | _ => none

variable {Doc F : Type} [Double F]

/-- The join value of a document, if it has one that can be hashed. -/
def Documents.joinValue (D : Documents Doc F) (doc : Doc) : Option JoinValue :=
  (D.valProv doc).bind hashable

/-! ### `JoinVals` -/

def falseVal : ℕ := 1

def trueVal : ℕ := 2

def startNormalVal : ℕ := 3

end Joda.Join.JoinManager
