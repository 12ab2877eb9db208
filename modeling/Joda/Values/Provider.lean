import Joda.Values.Value

/-! # Value providers

The expressions of the query language: their text, their value on a document and what a `CHOOSE`
reads off it. The functions other than the operators are a parameter (`Func`): a function returns
whatever it makes of the document, of its parameters and of what its constructor has read of these.
The constructor runs again when an expression is duplicated. -/

namespace Joda.Values.Provider

open Joda.Values.Value

inductive IValueType where
  | IV_String | IV_Number | IV_Bool | IV_Object | IV_Array | IV_Any | IV_Null
  deriving DecidableEq, Repr

/-- What the providers read of a document. -/
class RapidJsonDocument (D : Type) (F : outParam Type) where
  /-- The document of the default constructor. -/
  empty : D
  /-- `Get`: the value a pointer leads to, if any. -/
  get : D → Str → Option (RJValue F)
  /-- `PointerProvider::Accept`: the value that is sent, null where there is none. -/
  accept : D → Str → RJValue F

/-- A document that is an object, given by the values at its pointers. -/
structure FlatDocument (F : Type) where
  members : List (Str × RJValue F)

instance {F : Type} : RapidJsonDocument (FlatDocument F) F where
  empty := ⟨[]⟩
  get json ptrStr := json.members.lookup ptrStr
  accept json ptrStr := (json.members.lookup ptrStr).getD .null

/-- A parameter as a function sees it. -/
structure Param (F : Type) where
  type : IValueType
  isAtom : Bool
  value : Option (RJValue F)

/-- A parameter as the constructor of a function sees it, with its value if it is constant. -/
structure Made (F : Type) where
  type : IValueType
  isConst : Bool
  value : Option (RJValue F)

/-- The parameters that are constant are the same. -/
def SameConstants {F : Type} : List Bool → List (Param F) → List (Param F) → Prop
  | [], [], [] => True
  | c :: consts, p :: params, p' :: params' =>
    (c = true → p = p') ∧ SameConstants consts params params'
  | _, _, _ => False

/-- A function of the query language. A function that is constant has the same value for all
documents. -/
structure Func (D F : Type) where
  name : Str
  returnType : IValueType
  isAtom : Bool
  /-- The function reads its parameter through an accepter and lists no attributes. -/
  listsNone : Bool
  /-- Whether the function is constant, with what its constructor read and whether the parameters
  are. -/
  isConst : List (Made F) → List Bool → Bool
  calculate : List (Made F) → D → List (Param F) → Option (RJValue F)
  atom : returnType = .IV_String ∨ returnType = .IV_Number ∨ returnType = .IV_Bool → isAtom = true
  const_calculate : ∀ made consts, isConst made consts = true → ∀ d d' params params',
    SameConstants consts params params' → calculate made d params = calculate made d' params'

theorem SameConstants.eq {F : Type} : ∀ {consts : List Bool} {params params' : List (Param F)},
    consts.all id = true → SameConstants consts params params' → params = params'
  | [], [], [], _, _ => rfl
  | c :: consts, p :: params, p' :: params', hall, h => by
    rw [List.all_cons, Bool.and_eq_true] at hall
    rw [h.1 hall.1, SameConstants.eq hall.2 h.2]

/-! ### The operators -/

/-- The constants: `AtomProvider<T>`. -/
inductive Atom (F : Type) where
  | double (x : F)
  | int64 (z : ℤ)
  | uint64 (n : ℕ)
  | bool (b : Bool)
  | string (s : Str)

inductive BoolCalc where
  | and | or | xor | implication
  deriving DecidableEq, Repr

namespace BoolCalc

def name : BoolCalc → Str
  | and => ascii "AND"
  | or => ascii "OR"
  | xor => ascii "XOR"
  | implication => ascii "IMPLICATION"

/-- Empty where the function has no operator. -/
def symbol : BoolCalc → Str
  | and => ascii "&&"
  | or => ascii "||"
  | xor => []
  | implication => []

def calculate : BoolCalc → Bool → Bool → Bool
  | and, lhs, rhs => lhs && rhs
  | or, lhs, rhs => lhs || rhs
  | xor, lhs, rhs => (lhs || rhs) && !(lhs && rhs)
  | implication, lhs, rhs => !lhs || rhs

end BoolCalc

inductive EqualityCalc where
  | equal | unEqual
  deriving DecidableEq, Repr

namespace EqualityCalc

def name : EqualityCalc → Str
  | equal => ascii "EQUAL"
  | unEqual => ascii "UNEQUAL"

def symbol : EqualityCalc → Str
  | equal => ascii "=="
  | unEqual => ascii "!="

def calculate : EqualityCalc → Option Bool → Bool
  | equal, ret => ret.getD false
  | unEqual, some ret => !ret
  | unEqual, none => false

end EqualityCalc

inductive ComparisonCalc where
  | less | greater | lessEqual | greaterEqual
  deriving DecidableEq, Repr

namespace ComparisonCalc

def name : ComparisonCalc → Str
  | less => ascii "LESS"
  | greater => ascii "GREATER"
  | lessEqual => ascii "LESSEQ"
  | greaterEqual => ascii "GREATEREQ"

def symbol : ComparisonCalc → Str
  | less => ascii "<"
  | greater => ascii ">"
  | lessEqual => ascii "<="
  | greaterEqual => ascii ">="

def calculateString : ComparisonCalc → Str → Str → Bool
  | less, lhs, rhs => decide (lhs < rhs)
  | greater, lhs, rhs => decide (rhs < lhs)
  | lessEqual, lhs, rhs => !decide (rhs < lhs)
  | greaterEqual, lhs, rhs => !decide (lhs < rhs)

def calculateDouble {F : Type} [Double F] : ComparisonCalc → F → F → Bool
  | less, lhs, rhs => Double.less lhs rhs
  | greater, lhs, rhs => Double.less rhs lhs
  | lessEqual, lhs, rhs => Double.lessEq lhs rhs
  | greaterEqual, lhs, rhs => Double.lessEq rhs lhs

end ComparisonCalc

inductive NumberCalc where
  | sum | sub | div | prod | mod | pow | atan2
  deriving DecidableEq, Repr

namespace NumberCalc

variable {F : Type} [Double F]

def name : NumberCalc → Str
  | sum => ascii "SUM"
  | sub => ascii "SUB"
  | div => ascii "DIV"
  | prod => ascii "PROD"
  | mod => ascii "MOD"
  | pow => ascii "POW"
  | atan2 => ascii "ATAN2"

/-- The operator; `NOOP` where there is none. -/
def op : NumberCalc → Str
  | sum => ascii "+"
  | sub => ascii "-"
  | div => ascii "/"
  | prod => ascii "*"
  | mod => ascii "%"
  | pow => ascii "NOOP"
  | atan2 => ascii "NOOP"

def finite (x : F) : Option (Number F) := if Double.isFinite x then some (.double x) else none

def calculateDouble : NumberCalc → F → F → Option (Number F)
  | sum, lhs, rhs => some (.double (Double.add lhs rhs))
  | sub, lhs, rhs => some (.double (Double.sub lhs rhs))
  | div, lhs, rhs => if Double.isZero rhs then none else some (.double (Double.div lhs rhs))
  | prod, lhs, rhs => some (.double (Double.mul lhs rhs))
  | mod, lhs, rhs => if Double.isZero rhs then none else some (.double (Double.fmod lhs rhs))
  | pow, lhs, rhs => finite (Double.pow lhs rhs)
  | atan2, lhs, rhs => some (.double (Double.atan2 lhs rhs))

/-- On `u_int64_t`. A difference below zero becomes an `int64_t`. -/
def calculateUint64 : NumberCalc → ℤ → ℤ → Option (Number F)
  | sum, lhs, rhs => some (.int ((lhs + rhs) % 2 ^ 64))
  | sub, lhs, rhs => some (.int (if lhs < rhs then (lhs - rhs).bmod (2 ^ 64) else lhs - rhs))
  | div, lhs, rhs => if rhs = 0 then none else some (.int (lhs / rhs))
  | prod, lhs, rhs => some (.int (lhs * rhs % 2 ^ 64))
  | mod, lhs, rhs => if rhs = 0 then none else some (.int (lhs % rhs))
  | pow, lhs, rhs => finite (Double.pow (Double.ofInt lhs) (Double.ofInt rhs))
  | atan2, lhs, rhs => some (.double (Double.atan2 (Double.ofInt lhs) (Double.ofInt rhs)))

/-- On `int64_t`, which wraps around. -/
def calculateInt64 : NumberCalc → ℤ → ℤ → Option (Number F)
  | sum, lhs, rhs => some (.int ((lhs + rhs).bmod (2 ^ 64)))
  | sub, lhs, rhs => some (.int ((lhs - rhs).bmod (2 ^ 64)))
  | div, lhs, rhs => if rhs = 0 then none else some (.int ((lhs.tdiv rhs).bmod (2 ^ 64)))
  | prod, lhs, rhs => some (.int ((lhs * rhs).bmod (2 ^ 64)))
  | mod, lhs, rhs => if rhs = 0 then none else some (.int (lhs.tmod rhs))
  | pow, lhs, rhs => finite (Double.pow (Double.ofInt lhs) (Double.ofInt rhs))
  | atan2, lhs, rhs => some (.double (Double.atan2 (Double.ofInt lhs) (Double.ofInt rhs)))

def calculate (op : NumberCalc) (lhs rhs : Number F) : Option (Number F) :=
  if lhs.isUint64 && rhs.isUint64 then op.calculateUint64 lhs.getInt rhs.getInt
  else if lhs.isInt64 && rhs.isInt64 then op.calculateInt64 lhs.getInt rhs.getInt
  else op.calculateDouble lhs.getDouble rhs.getDouble

end NumberCalc

/-! ### The expressions -/

/-- **An expression.** A function has what its constructor read of its parameters (`made`); they may
have been optimised since. -/
inductive IValueProvider (D F : Type) where
  | atom (val : Atom F)
  | null
  | pointer (ptrStr : Str)
  | bool (op : BoolCalc) (lhs rhs : IValueProvider D F)
  | not (sub : IValueProvider D F)
  | equality (op : EqualityCalc) (lhs rhs : IValueProvider D F)
  | comparison (op : ComparisonCalc) (lhs rhs : IValueProvider D F)
  | number (op : NumberCalc) (opMode : Bool) (lhs rhs : IValueProvider D F)
  | func (f : Func D F) (made : List (Made F)) (params : List (IValueProvider D F))

variable {D F : Type} [Double F] [RapidJsonDocument D F]

def Atom.returnType : Atom F → IValueType
  | double _ => .IV_Number
  | int64 _ => .IV_Number
  | uint64 _ => .IV_Number
  | bool _ => .IV_Bool
  | string _ => .IV_String

def Atom.getAtomValue : Atom F → RJValue F
  | double x => .number (.double x)
  | int64 z => .number (.int z)
  | uint64 n => .number (.int n)
  | bool b => .bool b
  | string s => .string (cString s)

def Atom.toString : Atom F → Str
  | double x => Double.print x
  | int64 z => ascii (ToString.toString z)
  | uint64 n => ascii (ToString.toString n)
  | bool b => if b then ascii "true" else ascii "false"
  | string s => ascii "\"" ++ s ++ ascii "\""

namespace IValueProvider

def getReturnType : IValueProvider D F → IValueType
  | atom val => val.returnType
  | null => .IV_Null
  | pointer _ => .IV_Any
  | bool .. => .IV_Bool
  | not _ => .IV_Bool
  | equality .. => .IV_Bool
  | comparison .. => .IV_Bool
  | number .. => .IV_Number
  | func f _ _ => f.returnType

def isBool (p : IValueProvider D F) : Bool := p.getReturnType == .IV_Bool

def isAtom : IValueProvider D F → Bool
  | pointer _ => false
  | func f _ _ => f.isAtom
  | _ => true

omit [Double F] [RapidJsonDocument D F] in
theorem isAtom_of_isBool {p : IValueProvider D F} (h : p.getReturnType = .IV_Bool) :
    p.isAtom = true := by
  cases p with
  | pointer ptrStr => cases h
  | func f made params => exact f.atom (Or.inr (Or.inr h))
  | _ => rfl

mutual

def isConst : IValueProvider D F → Bool
  | atom _ => true
  | null => true
  | pointer _ => false
  | bool _ lhs rhs => isConst lhs && isConst rhs
  | not sub => isConst sub
  | equality _ lhs rhs => isConst lhs && isConst rhs
  | comparison _ lhs rhs => isConst lhs && isConst rhs
  | number _ _ lhs rhs => isConst lhs && isConst rhs
  | func f made params => f.isConst made (areConst params)

def areConst : List (IValueProvider D F) → List Bool
  | [] => []
  | p :: params => isConst p :: areConst params

end

/-- The text of a function of two parameters: in the middle if it has a symbol. -/
def binaryText (name symbol lhs rhs : Str) : Str :=
  if symbol = [] then name ++ ascii "(" ++ lhs ++ ascii ", " ++ rhs ++ ascii ")"
  else lhs ++ ascii " " ++ symbol ++ ascii " " ++ rhs

mutual

/-- **The text of an expression.** -/
def toString : IValueProvider D F → Str
  | atom val => val.toString
  | null => ascii "NULL()"
  | pointer ptrStr => ascii "'" ++ ptrStr ++ ascii "'"
  | bool op lhs rhs =>
    if op.symbol = [] then binaryText op.name [] (toString lhs) (toString rhs)
    else ascii "(" ++ binaryText op.name op.symbol (toString lhs) (toString rhs) ++ ascii ")"
  | not sub => ascii "!" ++ toString sub
  | equality op lhs rhs => toString lhs ++ ascii " " ++ op.symbol ++ ascii " " ++ toString rhs
  | comparison op lhs rhs => toString lhs ++ ascii " " ++ op.symbol ++ ascii " " ++ toString rhs
  | number op opMode lhs rhs =>
    binaryText op.name (if opMode then op.op else []) (toString lhs) (toString rhs)
  | func f _ params =>
    f.name ++ ascii "(" ++ List.intercalate (ascii ", ") (toStrings params) ++ ascii ")"

def toStrings : List (IValueProvider D F) → List Str
  | [] => []
  | p :: params => toString p :: toStrings params

end

def getName : IValueProvider D F → Str
  | atom val => val.toString
  | null => ascii "NULL"
  | pointer _ => []
  | bool op _ _ => op.name
  | not _ => ascii "NOT"
  | equality op _ _ => op.name
  | comparison op _ _ => op.name
  | number op opMode _ _ => if opMode then op.op else op.name
  | func f _ _ => f.name

mutual

/-- The pointers an expression uses. -/
def getAttributes : IValueProvider D F → List Str
  | atom _ => []
  | null => []
  | pointer ptrStr => [ptrStr]
  | bool _ lhs rhs => getAttributes lhs ++ getAttributes rhs
  | not sub => getAttributes sub
  | equality _ lhs rhs => getAttributes lhs ++ getAttributes rhs
  | comparison _ lhs rhs => getAttributes lhs ++ getAttributes rhs
  | number _ _ lhs rhs => getAttributes lhs ++ getAttributes rhs
  | func f _ params => if f.listsNone then [] else attributesOf params

def attributesOf : List (IValueProvider D F) → List Str
  | [] => []
  | p :: params => getAttributes p ++ attributesOf params

end

mutual

/-- The number of nodes. -/
def size : IValueProvider D F → ℕ
  | atom _ => 1
  | null => 1
  | pointer _ => 1
  | bool _ lhs rhs => size lhs + size rhs + 1
  | not sub => size sub + 1
  | equality _ lhs rhs => size lhs + size rhs + 1
  | comparison _ lhs rhs => size lhs + size rhs + 1
  | number _ _ lhs rhs => size lhs + size rhs + 1
  | func _ _ params => sizes params + 1

def sizes : List (IValueProvider D F) → ℕ
  | [] => 0
  | p :: params => size p + sizes params

end

omit [Double F] [RapidJsonDocument D F] in
theorem size_pos (p : IValueProvider D F) : 0 < p.size := by
  cases p <;> simp [size]

/-! ### Values -/

/-- `NotProvider::getAtomValue` -/
def notValue : Option (RJValue F) → RJValue F
  | some (.bool b) => .bool !b
  | _ => .null

/-- `ComparisonProvider::getAtomValue` -/
def comparisonValue (op : ComparisonCalc) : Option (RJValue F) → Option (RJValue F) → RJValue F
  | some (.string s), some (.string t) => .bool (op.calculateString (cString s) (cString t))
  | some (.number a), some (.number b) => .bool (op.calculateDouble a.getDouble b.getDouble)
  | some _, some _ => .bool false
  | _, _ => .null

/-- `BinaryNumberProvider::getAtomValue` -/
def numberValue (op : NumberCalc) : Option (RJValue F) → Option (RJValue F) → RJValue F
  | some (.number a), some (.number b) =>
    match op.calculate a b with
    | some n => .number n
    | none => .null
  | _, _ => .null

mutual

/-- **The value of an expression** on a document, `none` for the null pointer: `getAtomValue` of an
atom, `getValue` of the others. -/
def getValue (json : D) : IValueProvider D F → Option (RJValue F)
  | atom val => some val.getAtomValue
  | null => some .null
  | pointer ptrStr => RapidJsonDocument.get json ptrStr
  | bool op lhs rhs =>
    some (.bool (op.calculate (RJValue.asBool (getValue json lhs)) (RJValue.asBool (getValue json rhs))))
  | not sub => some (notValue (getValue json sub))
  | equality op lhs rhs =>
    some (.bool (op.calculate (RJValue.equal (getValue json lhs) (getValue json rhs))))
  | comparison op lhs rhs => some (comparisonValue op (getValue json lhs) (getValue json rhs))
  | number op _ lhs rhs => some (numberValue op (getValue json lhs) (getValue json rhs))
  | func f made params => f.calculate made json (getParams json params)

def getParams (json : D) : List (IValueProvider D F) → List (Param F)
  | [] => []
  | p :: params => ⟨getReturnType p, isAtom p, getValue json p⟩ :: getParams json params

end

/-- What a constructor reads of a parameter. -/
def madeOf (p : IValueProvider D F) : Made F where
  type := p.getReturnType
  isConst := p.isConst
  value := if p.isConst then getValue (RapidJsonDocument.empty : D) p else none

/-- A function of parameters, as its constructor makes it. -/
def create (f : Func D F) (params : List (IValueProvider D F)) : IValueProvider D F :=
  func f (params.map madeOf) params

mutual

/-- **`duplicate`**: the constructors of the functions run again. -/
def duplicate : IValueProvider D F → IValueProvider D F
  | atom val => atom val
  | null => null
  | pointer ptrStr => pointer ptrStr
  | bool op lhs rhs => bool op (duplicate lhs) (duplicate rhs)
  | not sub => not (duplicate sub)
  | equality op lhs rhs => equality op (duplicate lhs) (duplicate rhs)
  | comparison op lhs rhs => comparison op (duplicate lhs) (duplicate rhs)
  | number op opMode lhs rhs => number op opMode (duplicate lhs) (duplicate rhs)
  | func f _ params => create f (duplicateParameters params)

def duplicateParameters : List (IValueProvider D F) → List (IValueProvider D F)
  | [] => []
  | p :: params => duplicate p :: duplicateParameters params

end

section Values

variable (json : D) (lhs rhs : IValueProvider D F)

theorem getValue_bool (op : BoolCalc) : getValue json (bool op lhs rhs) =
    some (.bool (op.calculate (RJValue.asBool (getValue json lhs))
      (RJValue.asBool (getValue json rhs)))) := rfl

theorem getValue_not : getValue json (not lhs) = some (notValue (getValue json lhs)) := rfl

theorem getValue_equality (op : EqualityCalc) : getValue json (equality op lhs rhs) =
    some (.bool (op.calculate (RJValue.equal (getValue json lhs) (getValue json rhs)))) := rfl

theorem getValue_comparison (op : ComparisonCalc) : getValue json (comparison op lhs rhs) =
    some (comparisonValue op (getValue json lhs) (getValue json rhs)) := rfl

theorem getValue_number (op : NumberCalc) (opMode : Bool) :
    getValue json (number op opMode lhs rhs) =
      some (numberValue op (getValue json lhs) (getValue json rhs)) := rfl

theorem getValue_func (f : Func D F) (made : List (Made F)) (params : List (IValueProvider D F)) :
    getValue json (func f made params) = f.calculate made json (getParams json params) := rfl

end Values

/-- **`Query::check`** of the predicate of a `CHOOSE`. -/
def check (pred : IValueProvider D F) (json : D) : Bool := RJValue.asBool (getValue json pred)

/-- `Query::chooseIsConst`: whether the predicate is constant, and the answer then. -/
def chooseIsConst (pred : IValueProvider D F) : Option Bool :=
  if isConst pred then some (check pred RapidJsonDocument.empty) else none

/-! ### Constant expressions -/

mutual

theorem getValue_const : ∀ {p : IValueProvider D F} (_ : isConst p = true) (d d' : D),
    getValue d p = getValue d' p
  | atom _, _, _, _ => rfl
  | null, _, _, _ => rfl
  | pointer _, h, _, _ => by simp [isConst] at h
  | bool _ lhs rhs, h, d, d' => by
    simp only [isConst, Bool.and_eq_true] at h
    rw [getValue_bool, getValue_bool, getValue_const h.1 d d', getValue_const h.2 d d']
  | not sub, h, d, d' => by
    simp only [isConst] at h
    rw [getValue_not, getValue_not, getValue_const h d d']
  | equality _ lhs rhs, h, d, d' => by
    simp only [isConst, Bool.and_eq_true] at h
    rw [getValue_equality, getValue_equality, getValue_const h.1 d d', getValue_const h.2 d d']
  | comparison _ lhs rhs, h, d, d' => by
    simp only [isConst, Bool.and_eq_true] at h
    rw [getValue_comparison, getValue_comparison, getValue_const h.1 d d', getValue_const h.2 d d']
  | number _ _ lhs rhs, h, d, d' => by
    simp only [isConst, Bool.and_eq_true] at h
    rw [getValue_number, getValue_number, getValue_const h.1 d d', getValue_const h.2 d d']
  | func f made params, h, d, d' => by
    simp only [isConst] at h
    rw [getValue_func, getValue_func]
    exact f.const_calculate made _ h d d' _ _ (getParams_const params d d')

theorem getParams_const : ∀ (params : List (IValueProvider D F)) (d d' : D),
    SameConstants (areConst params) (getParams d params) (getParams d' params)
  | [], _, _ => trivial
  | p :: params, d, d' => by
    rw [getParams, getParams, areConst]
    exact ⟨fun h => by rw [getValue_const h d d'], getParams_const params d d'⟩

end

/-! ### Duplicates -/

theorem getReturnType_duplicate (p : IValueProvider D F) :
    (duplicate p).getReturnType = p.getReturnType := by
  cases p <;> rw [duplicate] <;> rfl

theorem isAtom_duplicate (p : IValueProvider D F) : (duplicate p).isAtom = p.isAtom := by
  cases p <;> rw [duplicate] <;> rfl

mutual

theorem size_duplicate : ∀ p : IValueProvider D F, (duplicate p).size = p.size
  | atom _ => rfl
  | null => rfl
  | pointer _ => rfl
  | bool _ lhs rhs => by rw [duplicate, size, size, size_duplicate lhs, size_duplicate rhs]
  | not sub => by rw [duplicate, size, size, size_duplicate sub]
  | equality _ lhs rhs => by rw [duplicate, size, size, size_duplicate lhs, size_duplicate rhs]
  | comparison _ lhs rhs => by rw [duplicate, size, size, size_duplicate lhs, size_duplicate rhs]
  | number _ _ lhs rhs => by rw [duplicate, size, size, size_duplicate lhs, size_duplicate rhs]
  | func _ _ params => by rw [duplicate, create, size, size, sizes_duplicateParameters params]

theorem sizes_duplicateParameters : ∀ params : List (IValueProvider D F),
    sizes (duplicateParameters params) = sizes params
  | [] => rfl
  | p :: params => by
    rw [duplicateParameters, sizes, sizes, size_duplicate p, sizes_duplicateParameters params]

end

mutual

theorem duplicate_duplicate : ∀ p : IValueProvider D F, duplicate (duplicate p) = duplicate p
  | atom _ => rfl
  | null => rfl
  | pointer _ => rfl
  | bool _ lhs rhs => by
    rw [duplicate, duplicate, duplicate_duplicate lhs, duplicate_duplicate rhs]
  | not sub => by rw [duplicate, duplicate, duplicate_duplicate sub]
  | equality _ lhs rhs => by
    rw [duplicate, duplicate, duplicate_duplicate lhs, duplicate_duplicate rhs]
  | comparison _ lhs rhs => by
    rw [duplicate, duplicate, duplicate_duplicate lhs, duplicate_duplicate rhs]
  | number _ _ lhs rhs => by
    rw [duplicate, duplicate, duplicate_duplicate lhs, duplicate_duplicate rhs]
  | func _ _ params => by
    rw [duplicate, create, duplicate, duplicateParameters_duplicateParameters params, create]

theorem duplicateParameters_duplicateParameters : ∀ params : List (IValueProvider D F),
    duplicateParameters (duplicateParameters params) = duplicateParameters params
  | [] => rfl
  | p :: params => by
    rw [duplicateParameters, duplicateParameters, duplicate_duplicate p,
      duplicateParameters_duplicateParameters params]

end

/-- A constant predicate has one answer for all documents. -/
theorem check_of_chooseIsConst {pred : IValueProvider D F} {b : Bool} (h : chooseIsConst pred = some b)
    (json : D) : check pred json = b := by
  rw [chooseIsConst] at h
  split_ifs at h with hc
  rw [← Option.some.inj h, check, check, getValue_const hc]

end IValueProvider

end Joda.Values.Provider
