import Joda.Values.Provider

/-! # Queries of the index

`AdaptiveQueryCreator` makes a query of the adaptive index out of an expression, where there is one:
out of a comparison of an attribute with a constant, and of some functions. -/

namespace Joda.Index.Query

open Joda.Values.Value Joda.Values.Provider Joda.Values.Provider.IValueProvider

inductive CmpType where
  | EQUALS | NOT_EQUALS | STARTS_WITH | LT | LTE | GT | GTE
  deriving DecidableEq, Repr

inductive FunctionType where
  | ISNULL | ISBOOL | ISNUMBER | ISSTRING | ISOBJECT | EXISTS | TYPE | NONE
  deriving DecidableEq, Repr

/-- The value of a query, by its `contentType`. -/
inductive Content where
  | STRING (strValue : Str)
  | INT (intVal : ℤ)
  | BOOL (boolVal : Bool)
  | NONE
  deriving DecidableEq

/-- The comparison of a function other than `TYPE` is not set by the source. -/
structure AdaptiveIndexQuery where
  propertyPath : Str
  content : Content
  cmpType : CmpType
  functionType : FunctionType
  deriving DecidableEq

variable {D F : Type} [Double F] [RapidJsonDocument D F]

/-! ### What a query asks for -/

def Content.value : Content → RJValue F
  | STRING strValue => .string strValue
  | INT intVal => .number (.int intVal)
  | BOOL boolVal => .bool boolVal
  | NONE => .null

/-- The name of the type of a value. -/
def typeName : RJValue F → Str
  | .null => ascii "NULL"
  | .bool _ => ascii "BOOL"
  | .number _ => ascii "NUMBER"
  | .string _ => ascii "STRING"
  | .array _ => ascii "ARRAY"
  | .object .. => ascii "OBJECT"

def startsWith : RJValue F → RJValue F → Bool
  | .string s, .string t => (cString t).isPrefixOf (cString s)
  | _, _ => false

def compares (cmpType : CmpType) (v w : RJValue F) : Bool :=
  match cmpType with
  | .EQUALS => EqualityCalc.equal.calculate (RJValue.equal (some v) (some w))
  | .NOT_EQUALS => EqualityCalc.unEqual.calculate (RJValue.equal (some v) (some w))
  | .STARTS_WITH => startsWith v w
  | .LT => RJValue.asBool (some (comparisonValue .less (some v) (some w)))
  | .LTE => RJValue.asBool (some (comparisonValue .lessEqual (some v) (some w)))
  | .GT => RJValue.asBool (some (comparisonValue .greater (some v) (some w)))
  | .GTE => RJValue.asBool (some (comparisonValue .greaterEqual (some v) (some w)))

/-- **Whether a value satisfies a query.** -/
def satisfies (query : AdaptiveIndexQuery) (v : RJValue F) : Bool :=
  match query.functionType with
  | .ISNULL => typeName v == ascii "NULL"
  | .ISBOOL => typeName v == ascii "BOOL"
  | .ISNUMBER => typeName v == ascii "NUMBER"
  | .ISSTRING => typeName v == ascii "STRING"
  | .ISOBJECT => typeName v == ascii "OBJECT"
  | .EXISTS => true
  | .TYPE => compares query.cmpType (.string (typeName v) : RJValue F) query.content.value
  | .NONE => compares query.cmpType v query.content.value

/-- Whether a document does; without the attribute it does not. -/
def documentSatisfies (query : AdaptiveIndexQuery) (json : D) : Bool :=
  match RapidJsonDocument.get json query.propertyPath with
  | some v => satisfies query v
  | none => false

/-! ### `AdaptiveQueryCreator` -/

def isAny (p : IValueProvider D F) : Bool := p.getReturnType == .IV_Any

/-- The text without its quotes. -/
def toJsonPropPath (p : IValueProvider D F) : Str := (p.toString.drop 1).dropLast

def getAtomValue (p : IValueProvider D F) : RJValue F :=
  if p.isAtom then (getValue (RapidJsonDocument.empty : D) p).getD .null else .null

/-- `GetString`, which is not defined where the value is no string. -/
def getString : RJValue F → Option Str
  | .string s => some (cString s)
  | _ => none

/-- The attribute and the constant of a comparison. -/
def simpleComparison (lhs rhs : IValueProvider D F) : Option (Str × RJValue F) :=
  if isAny rhs && lhs.isAtom && lhs.isConst then some (toJsonPropPath rhs, getAtomValue lhs)
  else if isAny lhs && rhs.isAtom && rhs.isConst then some (toJsonPropPath lhs, getAtomValue rhs)
  else none

/-- A comparison of the type of an attribute. -/
def typeQuery (cmpType : CmpType) (attributes : List Str) (val : RJValue F) :
    Option (Option AdaptiveIndexQuery) :=
  (getString val).bind fun val =>
    if val = ascii "ARRAY" then some none
    else attributes.head?.map fun path => some ⟨path, .STRING val, cmpType, .TYPE⟩

/-- The value of an equality; an integer is taken with `GetInt`, which keeps its last 32 bits. -/
def equalityContent : RJValue F → Option Content
  | .string s => some (.STRING (cString s))
  | .number n => if n.isInt64 then some (.INT (n.getInt.bmod (2 ^ 32))) else none
  | .bool b => some (.BOOL b)
  | _ => none

def createQueryFromEQ (cmpType : CmpType) (lhs rhs : IValueProvider D F) :
    Option (Option AdaptiveIndexQuery) :=
  match simpleComparison lhs rhs with
  | some (path, value) =>
    some ((equalityContent value).map fun content => ⟨path, content, cmpType, .NONE⟩)
  | none =>
    if lhs.getName = ascii "TYPE" ∧ 0 < lhs.getAttributes.length then
      typeQuery cmpType lhs.getAttributes (getAtomValue rhs)
    else if rhs.getName = ascii "TYPE" ∧ 0 < rhs.getAttributes.length then
      typeQuery cmpType rhs.getAttributes (getAtomValue lhs)
    else some none

def comparisonContent : RJValue F → Option Content
  | .string s => some (.STRING (cString s))
  | .number n => if n.isInt64 then some (.INT n.getInt) else none
  | _ => none

/-- The sides of a comparison are not told apart. -/
def createQueryFromComp (cmpType : CmpType) (lhs rhs : IValueProvider D F) :
    Option AdaptiveIndexQuery :=
  (simpleComparison lhs rhs).bind fun (path, value) =>
    (comparisonContent value).map fun content => ⟨path, content, cmpType, .NONE⟩

def equalityCmpType : EqualityCalc → CmpType
  | .equal => .EQUALS
  | .unEqual => .NOT_EQUALS

def comparisonCmpType : ComparisonCalc → CmpType
  | .less => .LT
  | .lessEqual => .LTE
  | .greaterEqual => .GTE
  | .greater => .GT

/-- The functions with a query of their own. -/
def functionTypes : List (Str × FunctionType) :=
  [(ascii "ISNULL", .ISNULL), (ascii "ISBOOL", .ISBOOL), (ascii "ISNUMBER", .ISNUMBER),
    (ascii "ISSTRING", .ISSTRING), (ascii "ISOBJECT", .ISOBJECT), (ascii "EXISTS", .EXISTS)]

/-- What stands between the first quote of a text and its last two characters. -/
def quoted (text : Str) : Str :=
  match text.idxOf? 34 with
  | some i => (text.drop (i + 1)).take (text.length - (i + 3))
  | none => text.take (text.length - 2)

/-- **`createQuery`**: the query, `none` inside for the null pointer, where the index has no query for
the expression. It is `none` where an element of an empty vector or the text of a value that is no string
is read, which is undefined. -/
def createQuery (e : IValueProvider D F) : Option (Option AdaptiveIndexQuery) :=
  match e with
  | .equality op lhs rhs => createQueryFromEQ (equalityCmpType op) lhs rhs
  | .comparison op lhs rhs => some (createQueryFromComp (comparisonCmpType op) lhs rhs)
  | .func f made params =>
    match functionTypes.lookup f.name with
    | some fType =>
      (getAttributes (.func f made params)).head?.map fun path =>
        some ⟨path, .NONE, .EQUALS, fType⟩
    | none =>
      if f.name = ascii "STARTSWITH" then
        (getAttributes (.func f made params)).head?.map fun path =>
          some ⟨path, .STRING (quoted e.toString), .STARTS_WITH, .NONE⟩
      else some none
  | _ => some none

/-- The query of an expression that has one. -/
def queryOf (e : IValueProvider D F) : Option AdaptiveIndexQuery := (createQuery e).join

theorem queryOf_eq_some {e : IValueProvider D F} {query : AdaptiveIndexQuery} :
    queryOf e = some query ↔ createQuery e = some (some query) :=
  Option.join_eq_some_iff

/-- An expression with a query is not a single node. -/
theorem one_lt_size_of_queryOf {e : IValueProvider D F} {query : AdaptiveIndexQuery}
    (h : queryOf e = some query) : 1 < e.size := by
  rw [queryOf_eq_some] at h
  cases e with
  | equality op lhs rhs =>
    have := lhs.size_pos
    rw [size]; omega
  | comparison op lhs rhs =>
    have := lhs.size_pos
    rw [size]; omega
  | func f made params =>
    cases params with
    | nil =>
      have hnil : getAttributes (.func f made ([] : List (IValueProvider D F))) = [] := by
        rw [getAttributes, attributesOf, ite_self]
      rw [createQuery] at h
      simp only [hnil, List.head?_nil, Option.map_none] at h
      split at h
      · cases h
      · split_ifs at h
        cases h
    | cons p params =>
      have := p.size_pos
      rw [size, sizes]; omega
  | _ => cases h

end Joda.Index.Query
