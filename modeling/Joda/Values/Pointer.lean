import Joda.Values.Value
import Mathlib.Data.List.Basic

/-! # JSON pointers

A pointer is the list of its tokens; a token is the name of a member or the index of an element. `get`
is RapidJSON's `Pointer::Get`, `stringify` the text of a pointer. -/

namespace Joda.Values.Pointer

open Joda.Values.Value

variable {F : Type}

abbrev RJPointer := List Str

/-- In the text of a pointer, `~` is written `~0` and `/` is written `~1`. -/
def escape (token : Str) : Str :=
  token.flatMap fun c => if c = 126 then [126, 48] else if c = 47 then [126, 49] else [c]

/-- `Stringify` -/
def stringify (ptr : RJPointer) : Str := ptr.flatMap fun token => 47 :: escape token

def isDigit (c : UInt8) : Bool := 48 ≤ c && c ≤ 57

def digits (s : Str) : ℕ := s.foldl (fun n c => 10 * n + (c.toNat - 48)) 0

/-- The index a token stands for, if it does. -/
def arrayIndex (token : Str) : Option ℕ :=
  if token ≠ [] ∧ token.all isDigit = true ∧ (token.length = 1 ∨ token.head? ≠ some 48) ∧
    digits token < 2 ^ 32 - 1 then some (digits token) else none

theorem toNat_digit {c : Char} (h : c.isDigit = true) : c.toNat.toUInt8.toNat = c.toNat := by
  have := Char.isDigit_iff_toNat.mp h
  have h9 : '9'.toNat = 57 := rfl
  simp only [Nat.toUInt8, UInt8.toNat_ofNat']
  omega

theorem isDigit_ascii {c : Char} (h : c.isDigit = true) : isDigit c.toNat.toUInt8 = true := by
  have h1 := toNat_digit h
  have h2 := Char.isDigit_iff_toNat.mp h
  have h0 : '0'.toNat = 48 := rfl
  have h9 : '9'.toNat = 57 := rfl
  simp only [isDigit, Bool.and_eq_true, decide_eq_true_eq, UInt8.le_iff_toNat_le, h1]
  exact ⟨by simpa using (by omega : 48 ≤ c.toNat), by simpa using (by omega : c.toNat ≤ 57)⟩

theorem digits_toString (n : ℕ) : digits (ascii (ToString.toString n)) = n := by
  have key : ∀ (cs : List Char) (init : ℕ), (∀ c ∈ cs, c.isDigit = true) →
      (cs.map fun c => c.toNat.toUInt8).foldl (fun n c => 10 * n + (c.toNat - 48)) init =
        Nat.ofDigitChars 10 cs init := by
    intro cs
    induction cs with
    | nil => intro init _; simp
    | cons c cs ih =>
      intro init h
      obtain ⟨hc, hcs⟩ := List.forall_mem_cons.mp h
      rw [List.map_cons, List.foldl_cons, ih _ hcs, Nat.ofDigitChars_cons, toNat_digit hc]
      rfl
  have he : (ToString.toString n).toList = Nat.toDigits 10 n := by
    rw [Nat.toString_eq_repr, Nat.toList_repr]
  unfold digits ascii
  rw [he, key _ _ fun c hc => Nat.isDigit_of_mem_toDigits (by omega) (by omega) hc,
    Nat.ofDigitChars_ten_toDigits]

theorem head_toDigits {n : ℕ} (h : 0 < n) : (Nat.toDigits 10 n).head? ≠ some '0' := by
  induction n using Nat.strong_induction_on with
  | _ n ih =>
    rcases Nat.lt_or_ge n 10 with hlt | hge
    · rw [Nat.toDigits_of_lt_base hlt, List.head?_cons]
      have hzero : ∀ m < 10, 0 < m → m.digitChar ≠ '0' := by decide
      exact fun heq => hzero n hlt h (Option.some.inj heq)
    · rw [Nat.toDigits_of_base_le (by omega) hge, List.head?_append_of_ne_nil _ Nat.toDigits_ne_nil]
      exact ih (n / 10) (by omega) (by omega)

/-- The text of an index is its token. -/
theorem arrayIndex_toString {n : ℕ} (h : n < 2 ^ 32 - 1) :
    arrayIndex (ascii (ToString.toString n)) = some n := by
  have he : (ToString.toString n).toList = Nat.toDigits 10 n := by
    rw [Nat.toString_eq_repr, Nat.toList_repr]
  have hall : ∀ c ∈ Nat.toDigits 10 n, c.isDigit = true := fun c hc =>
    Nat.isDigit_of_mem_toDigits (by omega) (by omega) hc
  unfold arrayIndex
  rw [digits_toString, if_pos]
  refine ⟨?_, ?_, ?_, h⟩
  · unfold ascii
    rw [he]
    simp [Nat.toDigits_ne_nil]
  · unfold ascii
    rw [he, List.all_map]
    exact List.all_eq_true.mpr fun c hc => isDigit_ascii (hall c hc)
  · rcases Nat.eq_zero_or_pos n with rfl | hpos
    · exact Or.inl rfl
    · refine Or.inr fun hhead => head_toDigits hpos ?_
      unfold ascii at hhead
      rw [he, List.head?_map] at hhead
      obtain ⟨c, hc, h48⟩ := Option.map_eq_some_iff.mp hhead
      rw [hc]
      have hdigit := hall c (List.mem_of_mem_head? hc)
      have hnat := toNat_digit hdigit
      rw [h48] at hnat
      exact congrArg some (Char.toNat_inj.mp hnat.symm)

/-- The members of an object. -/
def members : RJValue F → List (Str × RJValue F)
  | .object ms => ms
  | _ => []

/-- One step of a pointer. -/
def child : RJValue F → Str → Option (RJValue F)
  | .object ms, token => ms.lookup token
  | .array vs, token => (arrayIndex token).bind fun i => vs[i]?
  | _, _ => none

/-- `Get`: the value a pointer leads to, if any. -/
def get : RJValue F → RJPointer → Option (RJValue F)
  | v, [] => some v
  | v, token :: ptr => (child v token).bind fun w => get w ptr

@[simp] theorem get_nil (v : RJValue F) : get v [] = some v := by cases v <;> rfl

@[simp] theorem get_cons (v : RJValue F) (token : Str) (ptr : RJPointer) :
    get v (token :: ptr) = (child v token).bind fun w => get w ptr := by cases v <;> rfl

theorem get_append (ptr rest : RJPointer) : ∀ v : RJValue F,
    get v (ptr ++ rest) = (get v ptr).bind fun w => get w rest := by
  induction ptr with
  | nil => intro v; simp
  | cons token ptr ih =>
    intro v
    rw [List.cons_append, get_cons, get_cons]
    cases child v token with
    | none => rfl
    | some w => exact ih w

theorem get_concat (v : RJValue F) (ptr : RJPointer) (token : Str) :
    get v (ptr ++ [token]) = (get v ptr).bind fun w => child w token := by
  rw [get_append]
  cases get v ptr with
  | none => rfl
  | some w => simp only [Option.bind_some, get_cons, get_nil, Option.bind_fun_some]

/-! ### What is found at a pointer -/

/-- What a value is, apart from what is in it. -/
inductive Kind (F : Type) where
  | null
  | bool (b : Bool)
  | number (n : Number F)
  | string (s : Str)
  | array
  | object

def kind : RJValue F → Kind F
  | .null => .null
  | .bool b => .bool b
  | .number n => .number n
  | .string s => .string s
  | .array _ => .array
  | .object _ => .object

/-- **A JSON value as pointers see it.** The order of the members does not matter. -/
def kindAt (v : Option (RJValue F)) (ptr : RJPointer) : Option (Kind F) :=
  (v.bind fun w => get w ptr).map kind

def Kind.isArray : Option (Kind F) → Bool
  | some .array => true
  | _ => false

def Kind.isObject : Option (Kind F) → Bool
  | some .object => true
  | _ => false

theorem isObject_iff {k : Option (Kind F)} : Kind.isObject k = true ↔ k = some .object := by
  rcases k with _ | _ | _ | _ | _ | _ | _ <;> simp [Kind.isObject]

@[simp] theorem kindAt_none (ptr : RJPointer) : kindAt (none : Option (RJValue F)) ptr = none := rfl

@[simp] theorem kindAt_nil (v : RJValue F) : kindAt (some v) [] = some (kind v) := by
  simp [kindAt]

theorem kindAt_append (v : Option (RJValue F)) (ptr rest : RJPointer) :
    kindAt v (ptr ++ rest) = kindAt (v.bind fun w => get w ptr) rest := by
  cases v with
  | none => rfl
  | some w => simp only [kindAt, Option.bind_some, get_append]

theorem kindAt_cons (v : RJValue F) (token : Str) (ptr : RJPointer) :
    kindAt (some v) (token :: ptr) = kindAt (child v token) ptr := by
  simp only [kindAt, Option.bind_some, get_cons]

theorem child_object {v : RJValue F} (h : kind v = .object) (token : Str) :
    child v token = (members v).lookup token := by
  cases v with
  | object ms => rfl
  | _ => cases h

/-- A value that is neither an object nor an array has no children. -/
theorem child_scalar {v : RJValue F} (ho : kind v ≠ .object) (ha : kind v ≠ .array) (token : Str) :
    child v token = none := by
  cases v with
  | object ms => exact absurd rfl ho
  | array vs => exact absurd rfl ha
  | _ => rfl

end Joda.Values.Pointer
