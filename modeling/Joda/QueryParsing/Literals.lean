import Joda.Lib.Peg
import Joda.Values.Provider
import Joda.Values.Pointer

/-! # Literals of the query language

Pointers, numbers, strings, truth values and `null`, as the grammar reads them and as the actions
turn what was read into value providers. A pointer with a prefix (`$'...'`) is one of the functions that
go through the elements of a value, and is not read here. An integer that is too large for both integer
types becomes a double; `std::stod` is a parameter (`DoubleText`). -/

namespace Joda.QueryParsing.Literals

open Joda.Lib.Peg Joda.Values.Value Joda.Values.Provider
open Joda.Values.Pointer (isDigit digits)

/-- Reading a double. -/
class DoubleText (F : Type) where
  /-- `std::stod`, `none` where it throws. -/
  stod : Str → Option F

instance : DoubleText Float where
  stod str :=
    let int := str.takeWhile (· ≠ 46)
    let frac := str.drop (int.length + 1)
    let x := Float.ofScientific (digits ((int ++ frac).filter isDigit)) true frac.length
    some (if int.head? = some 45 then -x else x)

/-! ### Characters -/

/-- One of the given bytes. -/
def one (cs : String) : Rule UInt8 UInt8 := sat fun c => (ascii cs).contains c

def digit : Rule UInt8 UInt8 := sat isDigit

def identifierOther (c : UInt8) : Bool :=
  isDigit c || (65 ≤ c && c ≤ 90) || (97 ≤ c && c ≤ 122) || c == 95

/-- A word that does not go on. -/
def keyword (word : Str) : Rule UInt8 Str :=
  thenLeft (string word) (notAt (sat identifierOther))

def continuation (c : UInt8) : Bool := 128 ≤ c && c < 192

/-- The first character of a text in UTF-8, and what comes after it. -/
def peekUtf8 : Str → Option (ℕ × Str)
  | [] => none
  | c₀ :: s =>
    if c₀ < 128 then some (c₀.toNat, s)
    else if 192 ≤ c₀ && c₀ < 224 then
      match s with
      | c₁ :: s =>
        let code := c₀.toNat % 32 * 64 + c₁.toNat % 64
        if continuation c₁ && decide (128 ≤ code) then some (code, s) else none
      | _ => none
    else if 224 ≤ c₀ && c₀ < 240 then
      match s with
      | c₁ :: c₂ :: s =>
        let code := (c₀.toNat % 16 * 64 + c₁.toNat % 64) * 64 + c₂.toNat % 64
        if continuation c₁ && continuation c₂ && decide (2048 ≤ code) &&
          !decide (55296 ≤ code ∧ code ≤ 57343) then some (code, s) else none
      | _ => none
    else if 240 ≤ c₀ && c₀ < 248 then
      match s with
      | c₁ :: c₂ :: c₃ :: s =>
        let code := ((c₀.toNat % 8 * 64 + c₁.toNat % 64) * 64 + c₂.toNat % 64) * 64 + c₃.toNat % 64
        if continuation c₁ && continuation c₂ && continuation c₃ &&
          decide (65536 ≤ code ∧ code ≤ 1114111) then some (code, s) else none
      | _ => none
    else none

/-- A character that is none of the given ones. -/
def notOne (cs : String) : Rule UInt8 ℕ := fun s =>
  match peekUtf8 s with
  | some (code, rest) => if (cs.toList.map Char.toNat).contains code then .fail else .ok code rest
  | none => .fail

/-! ### The grammar -/

def escapedToken : Rule UInt8 Unit := act (fun _ => ()) (seq (one "~") (one "01"))

def unescapedToken : Rule UInt8 Unit := act (fun _ => ()) (notOne "/~'")

def referenceToken : Rule UInt8 (List Unit) := star (sor unescapedToken escapedToken)

def pointerRaw : Rule UInt8 Unit :=
  ifMust (one "'") (act (fun _ => ()) (seq (star (seq (one "/") referenceToken)) (one "'")))

def sign : Rule UInt8 (Option UInt8) := opt (one "+-")

def floatText : Rule UInt8 Unit :=
  act (fun _ => ()) (seq (seq sign (plus digit)) (seq (one ".") (plus digit)))

def intText : Rule UInt8 Unit := act (fun _ => ()) (seq sign (plus digit))

def escapedChar : Rule UInt8 Unit := act (fun _ => ()) (seq (one "\\") (one "\"\\"))

def unescapedChar : Rule UInt8 Unit := act (fun _ => ()) (notOne "\\\"")

def stringText : Rule UInt8 Unit :=
  ifMust (one "\"") (act (fun _ => ()) (seq (star (sor escapedChar unescapedChar)) (one "\"")))

/-! ### The actions -/

/-- `str.substr(1, str.size() - 2)` -/
def inner (str : Str) : Str := (str.drop 1).take (str.length - 2)

/-- The integer that a sign and digits stand for. -/
def readInt : Str → ℤ
  | 45 :: str => -digits str
  | 43 :: str => digits str
  | str => digits str

/-- `std::stol`, `none` where it throws. -/
def stol (str : Str) : Option ℤ :=
  if -2 ^ 63 ≤ readInt str ∧ readInt str < 2 ^ 63 then some (readInt str) else none

/-- `std::stoul`, which takes a sign and wraps around. -/
def stoul (str : Str) : Option ℕ :=
  if (readInt str).natAbs < 2 ^ 64 then some ((readInt str) % 2 ^ 64).toNat else none

/-- Takes the backslashes away. -/
def unescape : Str → Str
  | [] => []
  | [c] => [c]
  | c :: d :: str =>
    if c = 92 then if d = 92 ∨ d = 34 then d :: unescape str else unescape str
    else c :: unescape (d :: str)

variable {D F : Type} [DoubleText F]

def intAtom (str : Str) : Option (Atom F) :=
  match stol str with
  | some z => some (.int64 z)
  | none =>
    match stoul str with
    | some n => some (.uint64 n)
    | none => (DoubleText.stod str).map .double

def unprefixedPointer : Rule UInt8 (IValueProvider D F) :=
  act (fun str => .pointer (inner str)) (matched pointerRaw)

def floatNumber : Rule UInt8 (IValueProvider D F) :=
  actIf (fun str => (DoubleText.stod str).map fun x => .atom (.double x)) (matched floatText)

def intNumber : Rule UInt8 (IValueProvider D F) :=
  actIf (fun str => (intAtom str).map .atom) (matched intText)

def numberAtom : Rule UInt8 (IValueProvider D F) := sor floatNumber intNumber

def stringAtom : Rule UInt8 (IValueProvider D F) :=
  act (fun str => .atom (.string (unescape (inner str)))) (matched stringText)

def boolAtom : Rule UInt8 (IValueProvider D F) :=
  sor (act (fun _ => .atom (.bool true)) (keyword (ascii "true")))
    (act (fun _ => .atom (.bool false)) (keyword (ascii "false")))

def nullAtom : Rule UInt8 (IValueProvider D F) :=
  act (fun _ => .null) (sor (keyword (ascii "null")) (keyword (ascii "NULL")))

def varExp : Rule UInt8 (IValueProvider D F) :=
  sor numberAtom (sor stringAtom (sor boolAtom (sor nullAtom unprefixedPointer)))

end Joda.QueryParsing.Literals
