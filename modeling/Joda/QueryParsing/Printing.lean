import Joda.Lib.Printed
import Joda.QueryParsing.LiteralTexts

/-! # Expressions and their texts

`toString` prints comparisons, equalities and arithmetic operators without brackets, strings and pointers
without escapes, and doubles with six decimals, so different expressions can have one text. Those that
are `Unambiguous` are told by their texts (`toString_injective`): an expression is a term of the printed
language (`termOf`), and is read back from it (`providerOf`). -/

namespace Joda.QueryParsing.Printing

open Joda.Lib.Printed (Term text argsText furtherText isWordByte IsWord Primary Readable AllReadable
  text_injective)
open Joda.Values.Value Joda.Values.Provider Joda.Values.Provider.IValueProvider
open Joda.Values.Pointer (isDigit)
open Joda.QueryParsing.Literals Joda.QueryParsing.LiteralTexts

variable {D F : Type}

/-! ### The condition -/

/-- The functions of two parameters that are operators of the language, and `NULL`. -/
def operatorNames : List Str :=
  [ascii "NULL", ascii "XOR", ascii "IMPLICATION", ascii "SUM", ascii "SUB", ascii "DIV", ascii "PROD",
    ascii "MOD", ascii "POW", ascii "ATAN2"]

/-- A constant that is told by its text: an integer of the type the text is read as, or a string without
quotes. -/
def AtomPlain : Atom F → Prop
  | .double _ => False
  | .int64 z => -2 ^ 63 ≤ z ∧ z < 2 ^ 63
  | .uint64 n => 2 ^ 63 ≤ n ∧ n < 2 ^ 64
  | .bool _ => True
  | .string s => (34 : UInt8) ∉ s

/-- The text ends with the expression: no operator without brackets and no `!` at its root. -/
def Closed : IValueProvider D F → Prop
  | .not _ => False
  | .equality .. => False
  | .comparison .. => False
  | .number _ opMode _ _ => opMode = false
  | _ => True

section Unambiguous

variable [Double F] [RapidJsonDocument D F] (functions : Str → Option (Func D F))

mutual

/-- **An expression that is told by its text**: no doubles, no quotes in strings and pointers, the left
operand of an operator without brackets ends by itself, and the functions are those of their names, as
their constructors made them. -/
def Unambiguous : IValueProvider D F → Prop
  | .atom val => AtomPlain val
  | .null => True
  | .pointer ptrStr => (39 : UInt8) ∉ ptrStr
  | .bool _ lhs rhs => Unambiguous lhs ∧ Unambiguous rhs
  | .not sub => Unambiguous sub
  | .equality _ lhs rhs => Closed lhs ∧ Unambiguous lhs ∧ Unambiguous rhs
  | .comparison _ lhs rhs => Closed lhs ∧ Unambiguous lhs ∧ Unambiguous rhs
  | .number op opMode lhs rhs =>
    (opMode = true → op ≠ .pow ∧ op ≠ .atan2 ∧ Closed lhs) ∧ Unambiguous lhs ∧ Unambiguous rhs
  | .func f made params =>
    functions f.name = some f ∧ IsWord f.name ∧ f.name ∉ operatorNames ∧ made = params.map madeOf ∧
      AllUnambiguous params

def AllUnambiguous : List (IValueProvider D F) → Prop
  | [] => True
  | p :: params => Unambiguous p ∧ AllUnambiguous params

end

/-- The two are one expression, or the texts of both tell them. -/
def Told (p q : IValueProvider D F) : Prop :=
  p = q ∨ Unambiguous functions p ∧ Unambiguous functions q

end Unambiguous

/-! ### Terms -/

/-- The operators with brackets. -/
def Grouped (op : Str) : Prop := op = ascii "&&" ∨ op = ascii "||"

section TermOf

variable [Double F]

def atomTerm : Atom F → Term
  | .string s => .quoted 34 s
  | val => .word val.toString

mutual

/-- An expression as a term of the printed language. -/
def termOf : IValueProvider D F → Term
  | .atom val => atomTerm val
  | .null => .call (ascii "NULL") []
  | .pointer ptrStr => .quoted 39 ptrStr
  | .bool op lhs rhs =>
    if op.symbol = [] then .call op.name [termOf lhs, termOf rhs]
    else .group op.symbol (termOf lhs) (termOf rhs)
  | .not sub => .sign (termOf sub)
  | .equality op lhs rhs => .binary op.symbol (termOf lhs) (termOf rhs)
  | .comparison op lhs rhs => .binary op.symbol (termOf lhs) (termOf rhs)
  | .number op opMode lhs rhs =>
    if opMode then .binary op.op (termOf lhs) (termOf rhs) else .call op.name [termOf lhs, termOf rhs]
  | .func f _ params => .call f.name (termsOf params)

def termsOf : List (IValueProvider D F) → List Term
  | [] => []
  | p :: params => termOf p :: termsOf params

end

/-- The text of two terms as the arguments of a function. -/
theorem text_call_two (name : Str) (l r : Term) :
    text (.call name [l, r]) = name ++ ascii "(" ++ text l ++ ascii ", " ++ text r ++ ascii ")" := by
  rw [text, argsText, furtherText, furtherText]
  simp [ascii]

theorem atomTerm_text (val : Atom F) : text (atomTerm val) = val.toString := by
  cases val with
  | string s =>
    rw [atomTerm, text, Atom.toString]
    rfl
  | _ => rfl

mutual

/-- **The text of an expression is that of its term.** -/
theorem text_termOf : ∀ p : IValueProvider D F, text (termOf p) = p.toString
  | .atom val => by rw [termOf, atomTerm_text, IValueProvider.toString]
  | .null => by
    rw [termOf, text, argsText, IValueProvider.toString]
    rfl
  | .pointer ptrStr => by
    rw [termOf, text, IValueProvider.toString]
    rfl
  | .bool op lhs rhs => by
    rw [termOf, IValueProvider.toString, ← text_termOf lhs, ← text_termOf rhs]
    split_ifs with hop
    · rw [text_call_two, binaryText, if_pos rfl]
    · rw [text, binaryText, if_neg hop]
      simp [ascii]
  | .not sub => by
    rw [termOf, text, IValueProvider.toString, ← text_termOf sub]
    rfl
  | .equality op lhs rhs => by
    rw [termOf, text, IValueProvider.toString, ← text_termOf lhs, ← text_termOf rhs]
    simp [ascii]
  | .comparison op lhs rhs => by
    rw [termOf, text, IValueProvider.toString, ← text_termOf lhs, ← text_termOf rhs]
    simp [ascii]
  | .number op opMode lhs rhs => by
    have hne : op.op ≠ [] := by cases op <;> decide
    rw [termOf, IValueProvider.toString, ← text_termOf lhs, ← text_termOf rhs]
    split_ifs
    · rw [text, binaryText, if_neg hne]
      simp [ascii]
    · rw [text_call_two, binaryText, if_pos rfl]
  | .func f made params => by
    rw [termOf, text, IValueProvider.toString, argsText_termsOf params]
    simp [ascii]

theorem argsText_termsOf : ∀ params : List (IValueProvider D F), argsText (termsOf params) =
    List.intercalate (ascii ", ") (toStrings params) ++ ascii ")"
  | [] => rfl
  | [p] => by
    rw [termsOf, termsOf, argsText, furtherText, text_termOf p]
    simp [toStrings, ascii]
  | p :: q :: params => by
    have ih := argsText_termsOf (q :: params)
    rw [termsOf, argsText] at ih
    rw [termsOf, argsText, text_termOf p, termsOf, furtherText, ih]
    simp [toStrings, ascii, List.intercalate]

end

end TermOf

/-! ### Unambiguous expressions are readable -/

section Unambiguous

variable [Double F]

theorem isWordByte_digit {c : UInt8} (h : isDigit c = true) : isWordByte c = true := by
  unfold isWordByte
  simp only [Bool.not_eq_true', Bool.or_eq_false_iff, beq_eq_false_iff_ne]
  refine ⟨⟨⟨⟨⟨⟨?_, ?_⟩, ?_⟩, ?_⟩, ?_⟩, ?_⟩, ?_⟩ <;> rintro rfl <;> exact absurd h (by decide)

theorem isWord_digits {ds : Str} (h : IsDigits ds) : IsWord ds :=
  ⟨h.1, fun c hc => isWordByte_digit (h.2 c hc)⟩

theorem isWord_int (z : ℤ) : IsWord (ascii (ToString.toString z)) := by
  obtain ⟨sg, ds, htext, hsg, hds, -⟩ := int_text z
  rw [htext]
  refine ⟨fun h => hds.1 (List.append_eq_nil_iff.mp h).2, fun c hc => ?_⟩
  rcases List.mem_append.mp hc with hc | hc
  · rcases hsg with rfl | rfl | rfl
    · cases hc
    · rw [List.mem_singleton.mp hc]
      decide
    · rw [List.mem_singleton.mp hc]
      decide
  · exact isWordByte_digit (hds.2 c hc)

theorem isWord_bytes {s : Str} (h : s ≠ [] ∧ s.all isWordByte = true) : IsWord s :=
  ⟨h.1, fun _ hc => List.all_eq_true.mp h.2 _ hc⟩

theorem readable_atom {val : Atom F} (h : AtomPlain val) : Readable Grouped (atomTerm val) := by
  cases val with
  | double x => exact h.elim
  | int64 z => rw [atomTerm, Readable]; exact isWord_int z; simp
  | uint64 n =>
    rw [atomTerm, Readable, Atom.toString]
    exact isWord_digits (isDigits_toString n)
    simp
  | bool b =>
    rw [atomTerm, Readable, Atom.toString]
    cases b <;> exact isWord_bytes (by decide)
    simp
  | string s =>
    rw [atomTerm, Readable]
    exact ⟨Or.inl rfl, h⟩

theorem primary_termOf {p : IValueProvider D F} (h : Closed p) : Primary (termOf p) := by
  cases p with
  | atom val => cases val <;> exact trivial
  | bool op lhs rhs =>
    rw [termOf]
    split_ifs <;> exact trivial
  | number op opMode lhs rhs =>
    rw [termOf, if_neg (by rw [show opMode = false from h]; exact Bool.false_ne_true)]
    exact trivial
  | not sub => exact h.elim
  | equality op lhs rhs => exact h.elim
  | comparison op lhs rhs => exact h.elim
  | _ => exact trivial

variable [RapidJsonDocument D F] {functions : Str → Option (Func D F)}

mutual

theorem readable_termOf : ∀ {p : IValueProvider D F}, Unambiguous functions p →
    Readable Grouped (termOf p)
  | .atom val, h => by
    rw [termOf]
    exact readable_atom h
  | .null, _ => by
    rw [termOf, Readable]
    exact ⟨isWord_bytes (by decide), trivial⟩
  | .pointer ptrStr, h => by
    rw [termOf, Readable]
    exact ⟨Or.inr rfl, h⟩
  | .bool op lhs rhs, h => by
    rw [Unambiguous] at h
    have hl := readable_termOf h.1
    have hr := readable_termOf h.2
    cases op with
    | and => exact ⟨by decide, Or.inl rfl, hl, hr⟩
    | or => exact ⟨by decide, Or.inr rfl, hl, hr⟩
    | xor => exact ⟨isWord_bytes (by decide), hl, hr, trivial⟩
    | implication => exact ⟨isWord_bytes (by decide), hl, hr, trivial⟩
  | .not sub, h => by
    rw [Unambiguous] at h
    rw [termOf, Readable]
    exact readable_termOf h
  | .equality op lhs rhs, h => by
    rw [Unambiguous] at h
    rw [termOf, Readable]
    refine ⟨?_, ?_, primary_termOf h.1, readable_termOf h.2.1, readable_termOf h.2.2⟩
    · cases op <;> decide
    · cases op <;> exact fun hg => absurd hg (by unfold Grouped; decide)
  | .comparison op lhs rhs, h => by
    rw [Unambiguous] at h
    rw [termOf, Readable]
    refine ⟨?_, ?_, primary_termOf h.1, readable_termOf h.2.1, readable_termOf h.2.2⟩
    · cases op <;> decide
    · cases op <;> exact fun hg => absurd hg (by unfold Grouped; decide)
  | .number op opMode lhs rhs, h => by
    rw [Unambiguous] at h
    have hl := readable_termOf h.2.1
    have hr := readable_termOf h.2.2
    cases opMode with
    | false =>
      refine ⟨?_, hl, hr, trivial⟩
      cases op <;> exact isWord_bytes (by decide)
    | true =>
      refine ⟨?_, ?_, primary_termOf (h.1 rfl).2.2, hl, hr⟩
      · cases op <;> decide
      · cases op <;> exact fun hg => absurd hg (by unfold Grouped; decide)
  | .func f made params, h => by
    rw [Unambiguous] at h
    rw [termOf, Readable]
    exact ⟨h.2.1, allReadable_termsOf h.2.2.2.2⟩

theorem allReadable_termsOf : ∀ {params : List (IValueProvider D F)}, AllUnambiguous functions params →
    AllReadable Grouped (termsOf params)
  | [], _ => trivial
  | p :: params, h => by
    rw [AllUnambiguous] at h
    exact ⟨readable_termOf h.1, allReadable_termsOf h.2⟩

end

end Unambiguous

/-! ### Reading terms back -/

section ProviderOf

variable [Double F] [RapidJsonDocument D F] (functions : Str → Option (Func D F))

def atomOf (s : Str) : Atom F :=
  if s = ascii "true" then .bool true
  else if s = ascii "false" then .bool false
  else if readInt s < 2 ^ 63 then .int64 (readInt s)
  else .uint64 (readInt s).toNat

def binaryOf (op : Str) (lhs rhs : IValueProvider D F) : Option (IValueProvider D F) :=
  (([.equal, .unEqual] : List EqualityCalc).find? (·.symbol == op)).map (.equality · lhs rhs) <|>
  (([.less, .greater, .lessEqual, .greaterEqual] : List ComparisonCalc).find? (·.symbol == op)).map
    (.comparison · lhs rhs) <|>
  (([.sum, .sub, .div, .prod, .mod] : List NumberCalc).find? (·.op == op)).map (.number · true lhs rhs)

/-- An operator of two parameters that is printed as a function. -/
def functionOf (name : Str) (lhs rhs : IValueProvider D F) : Option (IValueProvider D F) :=
  (([.xor, .implication] : List BoolCalc).find? (·.name == name)).map (.bool · lhs rhs) <|>
  (([.sum, .sub, .div, .prod, .mod, .pow, .atan2] : List NumberCalc).find? (·.name == name)).map
    (.number · false lhs rhs)

def callOf (name : Str) (params : List (IValueProvider D F)) : Option (IValueProvider D F) :=
  if name ∈ operatorNames then
    match params with
    | [] => some .null
    | [lhs, rhs] => functionOf name lhs rhs
    | _ => none
  else (functions name).map (create · params)

mutual

/-- **The expression of a term.** -/
def providerOf : Term → Option (IValueProvider D F)
  | .word s => some (.atom (atomOf s))
  | .quoted quote s => some (if quote = 34 then .atom (.string s) else .pointer s)
  | .call name args => (providersOf args).bind (callOf functions name)
  | .sign t => (providerOf t).map .not
  | .group op lhs rhs => (providerOf lhs).bind fun l => (providerOf rhs).map fun r =>
    .bool (if op = ascii "&&" then .and else .or) l r
  | .binary op lhs rhs => (providerOf lhs).bind fun l => (providerOf rhs).bind fun r => binaryOf op l r

def providersOf : List Term → Option (List (IValueProvider D F))
  | [] => some []
  | t :: ts => (providerOf t).bind fun p => (providersOf ts).map (p :: ·)

end

variable {functions}

theorem atomOf_toString {val : Atom F} (h : AtomPlain val) (hs : ∀ s, val ≠ .string s) :
    atomOf val.toString = val := by
  have hword : ∀ z : ℤ, ascii (ToString.toString z) ≠ ascii "true" ∧
      ascii (ToString.toString z) ≠ ascii "false" := by
    intro z
    obtain ⟨sg, ds, htext, hsg, hds, -⟩ := int_text z
    obtain ⟨d, ds', rfl⟩ := List.exists_cons_of_ne_nil hds.1
    have hd := hds.2 d List.mem_cons_self
    rw [htext]
    rcases hsg with rfl | rfl | rfl
    · constructor <;> intro heq <;> rw [List.nil_append] at heq <;>
        obtain ⟨rfl, -⟩ := List.cons.inj heq <;> exact absurd hd (by decide)
    · constructor <;> intro heq <;> exact absurd (List.cons.inj heq).1 (by decide)
    · constructor <;> intro heq <;> exact absurd (List.cons.inj heq).1 (by decide)
  cases val with
  | double x => exact h.elim
  | int64 z =>
    obtain ⟨sg, ds, -, -, -, hread⟩ := int_text z
    rw [Atom.toString, atomOf, if_neg (hword z).1, if_neg (hword z).2, hread, if_pos h.2]
  | uint64 n =>
    obtain ⟨sg, ds, -, -, -, hread⟩ := int_text (n : ℤ)
    have hn : ToString.toString n = ToString.toString (n : ℤ) := rfl
    have hle : ¬ (n : ℤ) < 2 ^ 63 := by
      have := h.1
      omega
    rw [Atom.toString, hn, atomOf, if_neg (hword n).1, if_neg (hword n).2, hread, if_neg hle,
      Int.toNat_natCast]
  | bool b => cases b <;> rfl
  | string s => exact absurd rfl (hs s)

theorem providerOf_atomTerm {val : Atom F} (h : AtomPlain val) :
    providerOf functions (atomTerm val) = some (.atom val) := by
  cases val with
  | string s => rfl
  | double x => exact h.elim
  | _ =>
    rw [atomTerm, providerOf, atomOf_toString h (fun s hs => by cases hs)]
    intro s hs
    cases hs

theorem providersOf_two {l r : Term} {lhs rhs : IValueProvider D F}
    (hl : providerOf functions l = some lhs) (hr : providerOf functions r = some rhs) :
    providersOf functions [l, r] = some [lhs, rhs] := by
  rw [providersOf, providersOf, providersOf, hl, hr]
  rfl

mutual

/-- **An unambiguous expression is read back.** -/
theorem providerOf_termOf : ∀ {p : IValueProvider D F}, Unambiguous functions p →
    providerOf functions (termOf p) = some p
  | .atom val, h => by
    rw [termOf]
    exact providerOf_atomTerm h
  | .null, _ => rfl
  | .pointer ptrStr, _ => rfl
  | .bool op lhs rhs, h => by
    rw [Unambiguous] at h
    have hl := providerOf_termOf h.1
    have hr := providerOf_termOf h.2
    cases op with
    | and =>
      rw [termOf, if_neg (by decide), providerOf, hl, hr]
      rfl
    | or =>
      rw [termOf, if_neg (by decide), providerOf, hl, hr]
      rfl
    | xor =>
      rw [termOf, if_pos (by decide), providerOf, providersOf_two hl hr]
      rfl
    | implication =>
      rw [termOf, if_pos (by decide), providerOf, providersOf_two hl hr]
      rfl
  | .not sub, h => by
    rw [Unambiguous] at h
    rw [termOf, providerOf, providerOf_termOf h]
    rfl
  | .equality op lhs rhs, h => by
    rw [Unambiguous] at h
    rw [termOf, providerOf, providerOf_termOf h.2.1, providerOf_termOf h.2.2]
    cases op <;> rfl
  | .comparison op lhs rhs, h => by
    rw [Unambiguous] at h
    rw [termOf, providerOf, providerOf_termOf h.2.1, providerOf_termOf h.2.2]
    cases op <;> rfl
  | .number op opMode lhs rhs, h => by
    rw [Unambiguous] at h
    have hl := providerOf_termOf h.2.1
    have hr := providerOf_termOf h.2.2
    cases opMode with
    | false =>
      rw [termOf, if_neg Bool.false_ne_true, providerOf, providersOf_two hl hr]
      cases op <;> rfl
    | true =>
      obtain ⟨hpow, hatan2, -⟩ := h.1 rfl
      rw [termOf, if_pos rfl, providerOf, hl, hr]
      cases op with
      | pow => exact absurd rfl hpow
      | atan2 => exact absurd rfl hatan2
      | _ => rfl
  | .func f made params, h => by
    rw [Unambiguous] at h
    obtain ⟨hf, -, hname, rfl, hparams⟩ := h
    have hcall : callOf functions f.name params = (functions f.name).map (create · params) := by
      unfold callOf
      exact if_neg hname
    rw [termOf, providerOf, providersOf_termsOf hparams, Option.bind_some, hcall, hf]
    rfl

theorem providersOf_termsOf : ∀ {params : List (IValueProvider D F)}, AllUnambiguous functions params →
    providersOf functions (termsOf params) = some params
  | [], _ => rfl
  | p :: params, h => by
    rw [AllUnambiguous] at h
    rw [termsOf, providersOf, providerOf_termOf h.1, providersOf_termsOf h.2]
    rfl

end

/-- **Unambiguous expressions with one text are one expression.** -/
theorem toString_injective {p q : IValueProvider D F} (hp : Unambiguous functions p)
    (hq : Unambiguous functions q) (h : p.toString = q.toString) : p = q := by
  rw [← text_termOf p, ← text_termOf q] at h
  have hterm := text_injective (readable_termOf hp) (readable_termOf hq) h
  have hread := providerOf_termOf hp
  rw [hterm, providerOf_termOf hq] at hread
  exact (Option.some.inj hread).symm

theorem Told.eq {p q : IValueProvider D F} (ht : Told functions p q) (h : p.toString = q.toString) :
    p = q := by
  rcases ht with rfl | ⟨hp, hq⟩
  · rfl
  · exact toString_injective hp hq h

end ProviderOf

end Joda.QueryParsing.Printing
