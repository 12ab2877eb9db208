import Joda.Index.Query
import Mathlib.Data.List.TakeWhile

/-! # Leaves as queries

What `AdaptiveQueryCreator` makes of a comparison, an equality, `TYPE`, `STARTSWITH`, `EXISTS` and
`ISxxx` of a pointer and a constant, and when the query asks for what the predicate says. -/

namespace Joda.Index.QueryLeaves

open Joda.Values.Value Joda.Values.Provider Joda.Values.Provider.IValueProvider Joda.Index.Query

variable {D F : Type} [Double F] [RapidJsonDocument D F]

/-! ### The functions -/

def hasType : IValueType → RJValue F → Bool
  | .IV_Null, .null => true
  | .IV_Bool, .bool _ => true
  | .IV_Number, .number _ => true
  | .IV_String, .string _ => true
  | .IV_Object, .object .. => true
  | .IV_Array, .array _ => true
  | .IV_Any, _ => true
  | _, _ => false

/-- `IsXBoolProvider::getName` -/
def isXName : IValueType → Str
  | .IV_Null => ascii "ISNULL"
  | .IV_Bool => ascii "ISBOOL"
  | .IV_Any => ascii "EXISTS"
  | .IV_Object => ascii "ISOBJECT"
  | .IV_Array => ascii "ISARRAY"
  | .IV_Number => ascii "ISNUMBER"
  | .IV_String => ascii "ISSTRING"

/-- The field `cons`, set by the constructor. -/
def cons (made : List (Made F)) : Bool :=
  made.head?.elim false fun param => param.type != .IV_Any && param.isConst

/-- **`IsXBoolProvider<T>`**; the answer for a constant is that for its declared type. -/
def isXBool (type : IValueType) : Func D F where
  name := isXName type
  returnType := .IV_Bool
  isAtom := true
  listsNone := false
  isConst made _ := cons made
  calculate made _ params :=
    if cons made then
      some (.bool (type == .IV_Any || made.head?.elim false fun param => type == param.type))
    else some (.bool ((params.head?.bind Param.value).elim false (hasType type)))
  atom _ := rfl
  const_calculate made _ h _ _ _ _ _ := by rw [h, if_pos rfl, if_pos rfl]

def typeOfName : IValueType → Str
  | .IV_Number => ascii "NUMBER"
  | .IV_Bool => ascii "BOOL"
  | .IV_String => ascii "STRING"
  | .IV_Array => ascii "ARRAY"
  | .IV_Object => ascii "OBJECT"
  | _ => ascii "NULL"

/-- The value of `TYPE`, null where the parameter has no value. -/
def typeValue (param : Param F) : RJValue F :=
  if param.type = .IV_Any then param.value.elim .null fun v => .string (typeName v)
  else .string (typeOfName param.type)

/-- **`TypeProvider`** -/
def typeProvider : Func D F where
  name := ascii "TYPE"
  returnType := .IV_String
  isAtom := true
  listsNone := false
  isConst _ _ := false
  calculate _ _ params := some (params.head?.elim .null typeValue)
  atom _ := rfl
  const_calculate _ _ h := by cases h

/-- `getParamString` -/
def getParamString (param : Param F) : Option Str :=
  match param.value with
  | some (.string s) =>
    if !param.isAtom || param.type == .IV_String then some (cString s) else none
  | _ => none

/-- **`STARTSWITHProvider`** -/
def startsWithProvider : Func D F where
  name := ascii "STARTSWITH"
  returnType := .IV_Bool
  isAtom := true
  listsNone := false
  isConst _ consts := consts.all id
  calculate _ _ params :=
    match params.map getParamString with
    | [some lhsStr, some rhsStr] => some (.bool (rhsStr.isPrefixOf lhsStr))
    | _ => some .null
  atom _ := rfl
  const_calculate _ _ h _ _ _ _ hsame := by rw [hsame.eq h]

/-! ### The predicates -/

/-- **A constant** of a predicate: any constant expression that uses no attribute. -/
structure Constant (D F : Type) [Double F] [RapidJsonDocument D F] where
  provider : IValueProvider D F
  isConst : provider.isConst = true
  noAttributes : provider.getAttributes = []

/-- The value the index takes; null for what is no atom. -/
def Constant.value (constant : Constant D F) : RJValue F := getAtomValue constant.provider

/-- **A predicate** of a pointer, with a constant on its other side. The constructor of `STARTSWITH`
refuses literals that are no strings. -/
inductive Leaf (D F : Type) [Double F] [RapidJsonDocument D F] where
  | comparison (op : ComparisonCalc) (constantLeft : Bool) (ptrStr : Str) (constant : Constant D F)
  | equality (op : EqualityCalc) (constantLeft : Bool) (ptrStr : Str) (constant : Constant D F)
  | typeIs (op : EqualityCalc) (constantLeft : Bool) (ptrStr : Str) (constant : Constant D F)
  | startsWith (constantLeft : Bool) (ptrStr text : Str)
  | isX (type : IValueType) (ptrStr : Str)

namespace Leaf

/-- The call of a function. -/
def call (f : Func D F) (ptrStr : Str) : IValueProvider D F := create f [.pointer ptrStr]

def provider : Leaf D F → IValueProvider D F
  | comparison op true ptrStr constant => .comparison op constant.provider (.pointer ptrStr)
  | comparison op false ptrStr constant => .comparison op (.pointer ptrStr) constant.provider
  | equality op true ptrStr constant => .equality op constant.provider (.pointer ptrStr)
  | equality op false ptrStr constant => .equality op (.pointer ptrStr) constant.provider
  | typeIs op true ptrStr constant => .equality op constant.provider (call typeProvider ptrStr)
  | typeIs op false ptrStr constant => .equality op (call typeProvider ptrStr) constant.provider
  | startsWith true ptrStr text => create startsWithProvider [.atom (.string text), .pointer ptrStr]
  | startsWith false ptrStr text => create startsWithProvider [.pointer ptrStr, .atom (.string text)]
  | isX type ptrStr => call (isXBool type) ptrStr

end Leaf

/-- **What is asked of a predicate** on a document: its query is defined, and if there is one, it asks
for what the predicate says. -/
structure Preserved (leaf : Leaf D F) (json : D) : Prop where
  defined : (createQuery leaf.provider).isSome
  selects : ∀ query, createQuery leaf.provider = some (some query) →
    documentSatisfies query json = check leaf.provider json

/-- A predicate with a query. -/
theorem preserved_iff_selects {leaf : Leaf D F} {query : AdaptiveIndexQuery}
    (h : createQuery leaf.provider = some (some query)) {json : D} :
    Preserved leaf json ↔ documentSatisfies query json = check leaf.provider json := by
  refine ⟨fun hpreserved => hpreserved.selects query h, fun heq => ⟨by rw [h]; rfl, ?_⟩⟩
  intro query' hq
  rw [h] at hq
  obtain rfl := Option.some.inj (Option.some.inj hq)
  exact heq

/-- A predicate for which the index has no query. -/
theorem preserved_of_none {leaf : Leaf D F} (h : createQuery leaf.provider = some none) (json : D) :
    Preserved leaf json := by
  refine ⟨by rw [h]; rfl, fun query hq => ?_⟩
  rw [h] at hq
  cases hq

/-! ### The condition -/

/-- A constant with a query and a value are not told apart by the order they are compared in: their types
differ, the strings are equal, or the numbers compare the same both ways. -/
def SameBothWays (op : ComparisonCalc) : RJValue F → RJValue F → Prop
  | .string s, .string t => cString s = cString t
  | .number a, .number b => a.isInt64 →
    op.calculateDouble a.getDouble b.getDouble = op.calculateDouble b.getDouble a.getDouble
  | _, _ => True

/-- The last 32 bits of an integer, as `GetInt` returns them. -/
def cutNumber (n : Number F) : Number F := .int (n.getInt.bmod (2 ^ 32))

/-- A number equals a constant, in the order of the two. -/
def numbersEqual (constantLeft : Bool) (constant n : Number F) : Option Bool :=
  if constantLeft then RJValue.equal (some (.number constant)) (some (.number n))
  else RJValue.equal (some (.number n)) (some (.number constant))

/-- What stands in a call of `STARTSWITH` after the first quote and before the last quote: the text,
and in front of it the rest of a pointer with a quote, or behind it the pointer. -/
def betweenQuotes (constantLeft : Bool) (ptrStr text : Str) : Str :=
  if constantLeft then text ++ ascii "\", '" ++ ptrStr
  else
    match ptrStr.dropWhile (· != 34) with
    | [] => text
    | _ :: rest => rest ++ ascii "', \"" ++ text

/-- **The condition** that a query asks for what the predicate says. -/
def Leaf.Translates (json : D) : Leaf D F → Prop
  | .comparison op constantLeft ptrStr constant =>
    constantLeft = true → ∀ v, RapidJsonDocument.get json ptrStr = some v →
      SameBothWays op constant.value v
  | .equality _ constantLeft ptrStr constant =>
    ∀ m, constant.value = .number m → m.isInt64 →
      ∀ n, RapidJsonDocument.get json ptrStr = some (.number n) →
        numbersEqual constantLeft m n = numbersEqual false (cutNumber m) n
  | .typeIs op _ ptrStr constant =>
    ∃ s, constant.value = .string s ∧
      (cString s = ascii "ARRAY" ∨ op = .equal ∨ (RapidJsonDocument.get json ptrStr).isSome)
  | .startsWith constantLeft ptrStr text =>
    constantLeft = true ∨ 34 ∈ ptrStr → ∀ s, RapidJsonDocument.get json ptrStr = some (.string s) →
      ((cString (betweenQuotes constantLeft ptrStr text)) <+: cString s ↔
        if constantLeft then cString s <+: cString text else cString text <+: cString s)
  | .isX _ _ => True

/-- Without a quote in the pointer the text is found. -/
theorem betweenQuotes_of_notMem {ptrStr : Str} (h : 34 ∉ ptrStr) (text : Str) :
    betweenQuotes false ptrStr text = text := by
  have hdrop : ptrStr.dropWhile (· != 34) = [] := by
    rw [List.dropWhile_eq_nil_iff]
    intro x hx
    rw [bne_iff_ne]
    rintro rfl
    exact h hx
  unfold betweenQuotes
  rw [if_neg Bool.false_ne_true, hdrop]

/-! ### Constants and texts -/

omit [RapidJsonDocument D F] in
theorem toJsonPropPath_pointer (ptrStr : Str) :
    toJsonPropPath (.pointer ptrStr : IValueProvider D F) = ptrStr := by
  unfold toJsonPropPath
  rw [IValueProvider.toString]
  have hquote : ascii "'" = [39] := rfl
  rw [hquote]
  simp

/-- A constant has its value on every document. -/
theorem Constant.getValue_eq {constant : Constant D F} (hne : constant.value ≠ .null) (json : D) :
    getValue json constant.provider = some constant.value := by
  unfold Constant.value getAtomValue at hne ⊢
  split_ifs at hne ⊢
  · rw [getValue_const constant.isConst json RapidJsonDocument.empty]
    cases hv : getValue (RapidJsonDocument.empty : D) constant.provider with
    | none =>
      rw [hv] at hne
      exact absurd rfl hne
    | some v => rfl
  · exact absurd rfl hne

theorem Constant.value_of_not_isAtom {constant : Constant D F}
    (h : constant.provider.isAtom = false) : constant.value = .null := by
  unfold Constant.value getAtomValue
  rw [h, if_neg Bool.false_ne_true]

theorem simpleComparison_left (constant : Constant D F) (ptrStr : Str) :
    simpleComparison constant.provider (.pointer ptrStr) =
      if constant.provider.isAtom then some (ptrStr, constant.value) else none := by
  have hany : isAny (.pointer ptrStr : IValueProvider D F) = true := rfl
  have hatom : (.pointer ptrStr : IValueProvider D F).isAtom = false := rfl
  unfold simpleComparison
  rw [hany, hatom, constant.isConst, toJsonPropPath_pointer]
  simp [Constant.value]

theorem simpleComparison_right (constant : Constant D F) (ptrStr : Str) :
    simpleComparison (.pointer ptrStr) constant.provider =
      if constant.provider.isAtom then some (ptrStr, constant.value) else none := by
  have hany : isAny (.pointer ptrStr : IValueProvider D F) = true := rfl
  have hatom : (.pointer ptrStr : IValueProvider D F).isAtom = false := rfl
  unfold simpleComparison
  rw [hany, hatom, constant.isConst, toJsonPropPath_pointer]
  simp [Constant.value]

/-! ### Comparisons -/

def compareHolds (op : ComparisonCalc) (v w : Option (RJValue F)) : Bool :=
  RJValue.asBool (some (comparisonValue op v w))

theorem calculateString_comm (op : ComparisonCalc) (s t : Str) :
    op.calculateString s t = op.calculateString t s ↔ t = s := by
  constructor
  · intro h
    have hboth : (decide (s < t)) = decide (t < s) := by
      cases op with
      | less => exact h
      | greater => exact h.symm
      | lessEqual => exact (Bool.not_inj h).symm
      | greaterEqual => exact Bool.not_inj h
    rw [decide_eq_decide] at hboth
    have hst : ¬ s < t := fun hlt => List.lt_asymm hlt (hboth.mp hlt)
    have hts : ¬ t < s := fun hlt => hst (hboth.mpr hlt)
    exact List.le_antisymm hst hts
  · rintro rfl
    rfl

theorem compareHolds_none (op : ComparisonCalc) (w : Option (RJValue F)) :
    compareHolds op none w = false := by
  cases w <;> rfl

theorem compareHolds_none_right (op : ComparisonCalc) (v : Option (RJValue F)) :
    compareHolds op v none = false := by
  rcases v with _ | v
  · rfl
  · cases v <;> rfl

theorem sameBothWays_iff (op : ComparisonCalc) {c : RJValue F} {content : Content}
    (hc : comparisonContent c = some content) (v : RJValue F) :
    compareHolds op (some v) (some c) = compareHolds op (some c) (some v) ↔
      SameBothWays op c v := by
  cases c with
  | string s =>
    cases v with
    | string t => exact calculateString_comm op (cString t) (cString s)
    | _ => exact iff_of_true rfl trivial
  | number a =>
    have hint : a.isInt64 = true := by
      unfold comparisonContent at hc
      dsimp only at hc
      split_ifs at hc with h
      exact h
    cases v with
    | number b => exact eq_comm.trans ⟨fun h _ => h, fun h => h hint⟩
    | _ => exact iff_of_true rfl trivial
  | _ => cases hc

/-- The constant of a comparison is kept. -/
theorem comparisonContent_value {c : RJValue F} {content : Content}
    (h : comparisonContent c = some content) : c ≠ .null ∧ ∀ op (v : Option (RJValue F)),
      compareHolds op v (some content.value) = compareHolds op v (some c) := by
  cases c with
  | string s =>
    obtain rfl := Option.some.inj h
    refine ⟨by simp, fun op v => ?_⟩
    rcases v with _ | v
    · rfl
    · cases v with
      | string t =>
        have hs := cString_cString s
        unfold compareHolds Content.value comparisonValue
        dsimp only
        rw [hs]
      | _ => rfl
  | number n =>
    have hcontent : (if n.isInt64 then some (Content.INT n.getInt) else none) = some content := h
    split_ifs at hcontent with hn
    obtain rfl := Option.some.inj hcontent
    refine ⟨by simp, fun op v => ?_⟩
    cases n with
    | int z => rfl
    | double x => cases hn
  | _ => cases h

/-- A comparison of a constant without a query holds either way. -/
theorem sameBothWays_of_none (op : ComparisonCalc) {c : RJValue F} (hc : comparisonContent c = none)
    (v : RJValue F) : SameBothWays op c v := by
  cases c with
  | string s => cases hc
  | number a =>
    cases v with
    | number b =>
      intro hint
      unfold comparisonContent at hc
      dsimp only at hc
      rw [if_pos hint] at hc
      cases hc
    | _ => trivial
  | _ => trivial

theorem documentSatisfies_comparison (op : ComparisonCalc) (path : Str) (content : Content)
    (json : D) : documentSatisfies ⟨path, content, comparisonCmpType op, .NONE⟩ json =
      compareHolds op (RapidJsonDocument.get json path) (some content.value) := by
  unfold documentSatisfies
  dsimp only
  cases RapidJsonDocument.get json path with
  | none => exact (compareHolds_none op _).symm
  | some v => cases op <;> rfl

theorem check_comparison (op : ComparisonCalc) (lhs rhs : IValueProvider D F) (json : D) :
    check (.comparison op lhs rhs) json =
      compareHolds op (getValue json lhs) (getValue json rhs) := by
  rw [check, getValue_comparison]
  rfl

theorem createQuery_comparison (op : ComparisonCalc) (constantLeft : Bool) (ptrStr : Str)
    (constant : Constant D F) :
    createQuery (Leaf.comparison op constantLeft ptrStr constant).provider =
      some ((comparisonContent constant.value).map fun content =>
        ⟨ptrStr, content, comparisonCmpType op, .NONE⟩) := by
  have hsimple : ∀ lhs rhs : IValueProvider D F, simpleComparison lhs rhs =
      (if constant.provider.isAtom then some (ptrStr, constant.value) else none) →
      createQueryFromComp (comparisonCmpType op) lhs rhs =
        (comparisonContent constant.value).map fun content =>
          ⟨ptrStr, content, comparisonCmpType op, .NONE⟩ := by
    intro lhs rhs h
    unfold createQueryFromComp
    rw [h]
    cases hatom : constant.provider.isAtom with
    | true => rfl
    | false =>
      rw [Constant.value_of_not_isAtom hatom]
      rfl
  unfold Leaf.provider createQuery
  cases constantLeft with
  | true => exact congrArg some (hsimple _ _ (simpleComparison_left constant ptrStr))
  | false => exact congrArg some (hsimple _ _ (simpleComparison_right constant ptrStr))

theorem translates_comparison (op : ComparisonCalc) (constantLeft : Bool) (ptrStr : Str)
    (constant : Constant D F) (json : D) :
    Preserved (.comparison op constantLeft ptrStr constant) json ↔
      (Leaf.comparison op constantLeft ptrStr constant).Translates json := by
  have hcreate := createQuery_comparison op constantLeft ptrStr constant
  cases hc : comparisonContent constant.value with
  | none =>
    rw [hc] at hcreate
    exact iff_of_true (preserved_of_none hcreate json) fun _ v _ => sameBothWays_of_none op hc v
  | some content =>
    rw [hc] at hcreate
    obtain ⟨hnull, hkeep⟩ := comparisonContent_value hc
    have hvalue := constant.getValue_eq hnull json
    rw [preserved_iff_selects hcreate, documentSatisfies_comparison, hkeep]
    unfold Leaf.provider Leaf.Translates
    cases constantLeft with
    | false =>
      dsimp only
      rw [check_comparison, hvalue, getValue]
      exact iff_of_true rfl fun h => by cases h
    | true =>
      dsimp only
      rw [check_comparison, hvalue, getValue]
      cases hv : RapidJsonDocument.get json ptrStr with
      | none =>
        rw [compareHolds_none, compareHolds_none_right]
        exact iff_of_true rfl fun _ v h => by cases h
      | some v =>
        rw [sameBothWays_iff op hc]
        exact ⟨fun h _ w hw => Option.some.inj hw ▸ h, fun h => h rfl v rfl⟩

/-! ### Equalities -/

theorem documentSatisfies_equality (op : EqualityCalc) (path : Str) (content : Content) (json : D) :
    documentSatisfies ⟨path, content, equalityCmpType op, .NONE⟩ json =
      op.calculate (RJValue.equal (RapidJsonDocument.get json path) (some content.value)) := by
  unfold documentSatisfies
  dsimp only
  cases RapidJsonDocument.get json path with
  | none => cases op <;> rfl
  | some v => cases op <;> rfl

theorem check_equality (op : EqualityCalc) (lhs rhs : IValueProvider D F) (json : D) :
    check (.equality op lhs rhs) json =
      op.calculate (RJValue.equal (getValue json lhs) (getValue json rhs)) := by
  rw [check, getValue_equality]
  rfl

theorem calculate_some (op : EqualityCalc) (a b : Bool) :
    op.calculate (some a) = op.calculate (some b) ↔ a = b := by
  cases op <;> cases a <;> cases b <;> simp [EqualityCalc.calculate]

theorem equal_string (v : Option (RJValue F)) (s : Str) :
    RJValue.equal v (some (.string (cString s))) = RJValue.equal v (some (.string s)) := by
  rcases v with _ | v
  · rfl
  · cases v with
    | string t =>
      unfold RJValue.equal
      dsimp only
      rw [cString_cString]
    | _ => simp [RJValue.equal, RJValue.deepEqual]

omit [Double F] in
/-- The constant of an equality is kept, but for an integer, which is cut. -/
theorem equalityContent_value {c : RJValue F} {content : Content}
    (h : equalityContent c = some content) : c ≠ .null ∧
      ((∃ s, c = .string s ∧ content = .STRING (cString s)) ∨ (∃ b, c = .bool b ∧ content = .BOOL b) ∨
        ∃ n, c = .number n ∧ n.isInt64 ∧ content.value = .number (cutNumber n)) := by
  cases c with
  | string s =>
    obtain rfl := Option.some.inj h
    exact ⟨by simp, Or.inl ⟨s, rfl, rfl⟩⟩
  | bool b =>
    obtain rfl := Option.some.inj h
    exact ⟨by simp, Or.inr (Or.inl ⟨b, rfl, rfl⟩)⟩
  | number n =>
    have hcontent : (if n.isInt64 then some (Content.INT (n.getInt.bmod (2 ^ 32))) else none) =
        some content := h
    split_ifs at hcontent with hn
    obtain rfl := Option.some.inj hcontent
    exact ⟨by simp, Or.inr (Or.inr ⟨n, rfl, hn, rfl⟩)⟩
  | _ => cases h

omit [Double F] in
theorem not_isInt64_of_none {c : RJValue F} (h : equalityContent c = none) {n : Number F}
    (hn : c = .number n) : ¬ n.isInt64 := by
  rw [hn] at h
  unfold equalityContent at h
  dsimp only at h
  intro hint
  rw [if_pos hint] at h
  cases h

/-- The constant and the value are compared in their order. -/
def equalSides (constantLeft : Bool) (c : RJValue F) (v : Option (RJValue F)) : Option Bool :=
  if constantLeft then RJValue.equal (some c) v else RJValue.equal v (some c)

/-- The order of the two makes no difference to a string. -/
theorem equalSides_string (constantLeft : Bool) (s : Str) (v : Option (RJValue F)) :
    equalSides constantLeft (.string s) v = RJValue.equal v (some (.string (cString s))) := by
  rw [equal_string]
  cases constantLeft with
  | false => rfl
  | true =>
    rcases v with _ | v
    · rfl
    · cases v with
      | string t =>
        have hcomm := Bool.beq_comm (a := cString s) (b := cString t)
        exact congrArg some hcomm
      | _ => simp [equalSides, RJValue.equal, RJValue.deepEqual]

theorem equalSides_bool (constantLeft : Bool) (b : Bool) (v : Option (RJValue F)) :
    equalSides constantLeft (.bool b) v = RJValue.equal v (some (.bool b)) := by
  cases constantLeft with
  | false => rfl
  | true =>
    rcases v with _ | v
    · rfl
    · cases v <;> simp [equalSides, RJValue.equal, RJValue.deepEqual, Bool.beq_comm]

/-- What is no number equals neither the integer nor what is left of it. -/
theorem equalSides_number (constantLeft : Bool) (m : Number F) {v : RJValue F}
    (h : ∀ n, v ≠ .number n) :
    equalSides constantLeft (.number m) (some v) =
      RJValue.equal (some v) (some (.number (cutNumber m))) := by
  cases v with
  | number n => exact absurd rfl (h n)
  | _ => cases constantLeft <;> simp [equalSides, RJValue.equal, RJValue.deepEqual]

theorem createQuery_equality (op : EqualityCalc) (constantLeft : Bool) (ptrStr : Str)
    (constant : Constant D F) :
    createQuery (Leaf.equality op constantLeft ptrStr constant).provider =
      some ((equalityContent constant.value).map fun content =>
        ⟨ptrStr, content, equalityCmpType op, .NONE⟩) := by
  have hpointer : ¬ ((.pointer ptrStr : IValueProvider D F).getName = ascii "TYPE" ∧
      0 < (.pointer ptrStr : IValueProvider D F).getAttributes.length) := fun h =>
    absurd h.1 (by rw [getName]; decide)
  have hconstant : ¬ (constant.provider.getName = ascii "TYPE" ∧
      0 < constant.provider.getAttributes.length) := fun h => by
    rw [constant.noAttributes] at h
    exact absurd h.2 (lt_irrefl 0)
  have hnone (hatom : constant.provider.isAtom = false) :
      (equalityContent constant.value).map (fun content =>
        (⟨ptrStr, content, equalityCmpType op, .NONE⟩ : AdaptiveIndexQuery)) = none := by
    rw [Constant.value_of_not_isAtom hatom]
    rfl
  cases constantLeft with
  | true =>
    have hsimple := simpleComparison_left constant ptrStr
    unfold Leaf.provider createQuery createQueryFromEQ
    dsimp only
    rw [hsimple, if_neg hpointer, if_neg hconstant]
    cases hatom : constant.provider.isAtom with
    | true => rfl
    | false => exact congrArg some (hnone hatom).symm
  | false =>
    have hsimple := simpleComparison_right constant ptrStr
    unfold Leaf.provider createQuery createQueryFromEQ
    dsimp only
    rw [hsimple, if_neg hpointer, if_neg hconstant]
    cases hatom : constant.provider.isAtom with
    | true => rfl
    | false => exact congrArg some (hnone hatom).symm

theorem check_equality_leaf (op : EqualityCalc) (constantLeft : Bool) (ptrStr : Str)
    {constant : Constant D F} (hnull : constant.value ≠ .null) (json : D) :
    check (Leaf.equality op constantLeft ptrStr constant).provider json =
      op.calculate (equalSides constantLeft constant.value (RapidJsonDocument.get json ptrStr)) := by
  have hvalue := constant.getValue_eq hnull json
  unfold Leaf.provider
  cases constantLeft with
  | true =>
    dsimp only
    rw [check_equality, hvalue, getValue]
    rfl
  | false =>
    dsimp only
    rw [check_equality, hvalue, getValue]
    rfl

/-- The equality of an integer. -/
theorem equalSides_iff (op : EqualityCalc) (constantLeft : Bool) (m : Number F)
    (v : Option (RJValue F)) :
    op.calculate (RJValue.equal v (some (.number (cutNumber m)))) =
        op.calculate (equalSides constantLeft (.number m) v) ↔
      ∀ n, v = some (.number n) →
        numbersEqual constantLeft m n = numbersEqual false (cutNumber m) n := by
  rcases v with _ | v
  · refine iff_of_true ?_ fun n h => by cases h
    cases constantLeft <;> rfl
  · by_cases hv : ∃ n, v = .number n
    · obtain ⟨n, rfl⟩ := hv
      have hsides : equalSides constantLeft (.number m) (some (.number n)) =
          numbersEqual constantLeft m n := rfl
      have hcut : RJValue.equal (some (.number n)) (some (.number (cutNumber m))) =
          numbersEqual false (cutNumber m) n := rfl
      obtain ⟨a, ha⟩ : ∃ a, numbersEqual constantLeft m n = some a := by
        cases constantLeft <;> exact ⟨_, rfl⟩
      obtain ⟨b, hb⟩ : ∃ b, numbersEqual false (cutNumber m) n = some b := ⟨_, rfl⟩
      rw [hsides, hcut, ha, hb, calculate_some]
      constructor
      · rintro rfl n' hn
        obtain rfl := RJValue.number.inj (Option.some.inj hn)
        rw [ha, hb]
      · intro h
        have heq := h n rfl
        rw [ha, hb] at heq
        exact (Option.some.inj heq).symm
    · have hne : ∀ n, v ≠ .number n := fun n hn => hv ⟨n, hn⟩
      rw [equalSides_number constantLeft m hne]
      exact iff_of_true rfl fun n hn => absurd (Option.some.inj hn) (hne n)

theorem translates_equality (op : EqualityCalc) (constantLeft : Bool) (ptrStr : Str)
    (constant : Constant D F) (json : D) :
    Preserved (.equality op constantLeft ptrStr constant) json ↔
      (Leaf.equality op constantLeft ptrStr constant).Translates json := by
  have hcreate := createQuery_equality op constantLeft ptrStr constant
  cases hc : equalityContent constant.value with
  | none =>
    rw [hc] at hcreate
    exact iff_of_true (preserved_of_none hcreate json)
      fun m hm hint => absurd hint (not_isInt64_of_none hc hm)
  | some content =>
    rw [hc] at hcreate
    obtain ⟨hnull, hkind⟩ := equalityContent_value hc
    rw [preserved_iff_selects hcreate, documentSatisfies_equality,
      check_equality_leaf op constantLeft ptrStr hnull json]
    unfold Leaf.Translates
    dsimp only
    rcases hkind with ⟨s, hs, rfl⟩ | ⟨b, hb, rfl⟩ | ⟨m, hm, hint, hcut⟩
    · rw [hs, equalSides_string]
      exact iff_of_true rfl fun m hm => by cases hm
    · rw [hb, equalSides_bool]
      exact iff_of_true rfl fun m hm => by cases hm
    · rw [hm, hcut, equalSides_iff]
      constructor
      · intro h m' hm' _ n hn
        obtain rfl := RJValue.number.inj hm'
        exact h n hn
      · exact fun h n hn => h m rfl hint n hn

/-! ### Types -/

theorem getAttributes_call {f : Func D F} (h : f.listsNone = false) (ptrStr : Str) :
    getAttributes (Leaf.call f ptrStr) = [ptrStr] := by
  unfold Leaf.call create
  rw [getAttributes, h, if_neg Bool.false_ne_true, attributesOf, attributesOf, getAttributes]
  rfl

theorem getValue_call (f : Func D F) (ptrStr : Str) (json : D) :
    getValue json (Leaf.call f ptrStr) =
      f.calculate ([(.pointer ptrStr : IValueProvider D F)].map madeOf) json
        [⟨.IV_Any, false, RapidJsonDocument.get json ptrStr⟩] := by
  unfold Leaf.call create
  rw [getValue_func, getParams, getParams, getValue]
  rfl

theorem createQuery_type (op : EqualityCalc) (constantLeft : Bool) (ptrStr : Str)
    (constant : Constant D F) :
    createQuery (Leaf.typeIs op constantLeft ptrStr constant).provider =
      typeQuery (equalityCmpType op) [ptrStr] constant.value := by
  have hattributes : getAttributes (Leaf.call typeProvider ptrStr : IValueProvider D F) = [ptrStr] :=
    getAttributes_call rfl ptrStr
  have hname : (Leaf.call typeProvider ptrStr : IValueProvider D F).getName = ascii "TYPE" := rfl
  have hlength : 0 < (getAttributes (Leaf.call typeProvider ptrStr : IValueProvider D F)).length := by
    rw [hattributes]
    exact Nat.one_pos
  have hany : isAny (Leaf.call typeProvider ptrStr : IValueProvider D F) = false := rfl
  have hconst : (Leaf.call typeProvider ptrStr : IValueProvider D F).isConst = false := rfl
  have hconstant : ¬ (constant.provider.getName = ascii "TYPE" ∧
      0 < constant.provider.getAttributes.length) := fun h => by
    rw [constant.noAttributes] at h
    exact absurd h.2 (lt_irrefl 0)
  cases constantLeft with
  | true =>
    have hsimple : simpleComparison constant.provider (Leaf.call typeProvider ptrStr) = none := by
      unfold simpleComparison
      rw [hany, hconst, Bool.and_false, Bool.false_and, Bool.false_and]
      rfl
    unfold Leaf.provider createQuery createQueryFromEQ
    dsimp only
    rw [hsimple, if_neg hconstant, if_pos ⟨hname, hlength⟩, hattributes]
    rfl
  | false =>
    have hsimple : simpleComparison (Leaf.call typeProvider ptrStr) constant.provider = none := by
      unfold simpleComparison
      rw [hany, hconst, Bool.and_false, Bool.false_and, Bool.false_and]
      rfl
    unfold Leaf.provider createQuery createQueryFromEQ
    dsimp only
    rw [hsimple, if_pos ⟨hname, hlength⟩, hattributes]
    rfl

theorem documentSatisfies_type (op : EqualityCalc) (ptrStr val : Str) (json : D) :
    documentSatisfies ⟨ptrStr, .STRING val, equalityCmpType op, .TYPE⟩ json =
      (RapidJsonDocument.get json ptrStr).elim false fun v => op.calculate (RJValue.equal
        (some (.string (typeName v) : RJValue F)) (some (.string val))) := by
  unfold documentSatisfies
  dsimp only
  cases RapidJsonDocument.get json ptrStr with
  | none => rfl
  | some v => cases op <;> rfl

theorem check_type (op : EqualityCalc) (constantLeft : Bool) (ptrStr : Str)
    {constant : Constant D F} {s : Str} (hs : constant.value = .string s) (json : D) :
    check (Leaf.typeIs op constantLeft ptrStr constant).provider json =
      op.calculate (RJValue.equal
        (some ((RapidJsonDocument.get json ptrStr).elim .null fun v => .string (typeName v) : RJValue F))
        (some (.string (cString s)))) := by
  have hvalue := constant.getValue_eq (by rw [hs]; simp) json
  have htype : getValue json (Leaf.call typeProvider ptrStr) = some ((RapidJsonDocument.get json
      ptrStr).elim .null fun v => .string (typeName v) : RJValue F) := getValue_call _ _ _
  have hcheck : check (Leaf.typeIs op constantLeft ptrStr constant).provider json =
      op.calculate (equalSides constantLeft (.string s) (some ((RapidJsonDocument.get json
        ptrStr).elim .null fun v => .string (typeName v) : RJValue F))) := by
    unfold Leaf.provider
    cases constantLeft with
    | true =>
      dsimp only
      rw [check_equality, hvalue, hs, htype]
      rfl
    | false =>
      dsimp only
      rw [check_equality, hvalue, hs, htype]
      rfl
  rw [hcheck, equalSides_string]

theorem translates_type (op : EqualityCalc) (constantLeft : Bool) (ptrStr : Str)
    (constant : Constant D F) (json : D) :
    Preserved (.typeIs op constantLeft ptrStr constant) json ↔
      (Leaf.typeIs op constantLeft ptrStr constant).Translates json := by
  have hcreate := createQuery_type op constantLeft ptrStr constant
  have hundefined (hnot : ∀ s, constant.value ≠ .string s) :
      createQuery (Leaf.typeIs op constantLeft ptrStr constant).provider = none := by
    rw [hcreate]
    unfold typeQuery getString
    cases hv : constant.value with
    | string s => exact absurd hv (hnot s)
    | _ => rfl
  by_cases hstring : ∃ s, constant.value = .string s
  · obtain ⟨s, hs⟩ := hstring
    have hquery : createQuery (Leaf.typeIs op constantLeft ptrStr constant).provider =
        if cString s = ascii "ARRAY" then some none
        else some (some ⟨ptrStr, .STRING (cString s), equalityCmpType op, .TYPE⟩) := by
      rw [hcreate, hs]
      rfl
    have htranslates : (Leaf.typeIs op constantLeft ptrStr constant).Translates json ↔
        (cString s = ascii "ARRAY" ∨ op = .equal ∨ (RapidJsonDocument.get json ptrStr).isSome) := by
      unfold Leaf.Translates
      dsimp only
      rw [hs]
      exact ⟨fun ⟨t, ht, h⟩ => RJValue.string.inj ht ▸ h, fun h => ⟨s, rfl, h⟩⟩
    rw [htranslates]
    by_cases harray : cString s = ascii "ARRAY"
    · rw [if_pos harray] at hquery
      exact iff_of_true (preserved_of_none hquery json) (Or.inl harray)
    rw [if_neg harray] at hquery
    rw [preserved_iff_selects hquery, documentSatisfies_type, check_type op constantLeft ptrStr hs json]
    cases RapidJsonDocument.get json ptrStr with
    | some v => exact iff_of_true rfl (Or.inr (Or.inr rfl))
    | none =>
      have hnull : RJValue.equal (some (.null : RJValue F)) (some (.string (cString s))) =
          some false := by
        simp [RJValue.equal, RJValue.deepEqual]
      rw [Option.elim_none, Option.elim_none, hnull]
      cases op <;> simp [EqualityCalc.calculate, harray]
  · have hnot : ∀ s, constant.value ≠ .string s := fun s hs => hstring ⟨s, hs⟩
    refine iff_of_false (fun h => ?_) fun ⟨s, hs, _⟩ => hnot s hs
    have hdefined := h.defined
    rw [hundefined hnot] at hdefined
    cases hdefined

/-! ### Prefixes -/

/-- What stands between the first quote and the last two characters. -/
theorem quoted_append {a : Str} (h : 34 ∉ a) (s : Str) (x y : UInt8) :
    quoted (a ++ 34 :: (s ++ [x, y])) = s := by
  have hidx : (a ++ 34 :: (s ++ [x, y])).idxOf? 34 = some a.length := by
    induction a with
    | nil => simp [List.idxOf?_cons]
    | cons x a ih =>
      rw [List.mem_cons, not_or] at h
      have hx : (x == 34) = false := by simpa using Ne.symm h.1
      rw [List.cons_append, List.idxOf?_cons, hx, ih h.2]
      rfl
  unfold quoted
  rw [hidx]
  have hlength : (a ++ 34 :: (s ++ [x, y])).length - (a.length + 3) = s.length := by
    simp only [List.length_append, List.length_cons, List.length_nil]
    omega
  have hdrop : (a ++ 34 :: (s ++ [x, y])).drop (a.length + 1) = s ++ [x, y] := by
    rw [← List.drop_drop, List.drop_left]
    rfl
  dsimp only
  rw [hdrop, hlength, List.take_left]

theorem toString_startsWith_left (ptrStr text : Str) :
    (Leaf.startsWith true ptrStr text : Leaf D F).provider.toString =
      ascii "STARTSWITH(" ++ 34 :: ((text ++ ascii "\", '" ++ ptrStr) ++ [39, 41]) := by
  unfold Leaf.provider create
  dsimp only
  rw [IValueProvider.toString, toStrings, toStrings, toStrings, IValueProvider.toString,
    IValueProvider.toString]
  have hname : (startsWithProvider : Func D F).name = ascii "STARTSWITH" := rfl
  have h1 : ascii "STARTSWITH(" = ascii "STARTSWITH" ++ ascii "(" := by decide
  have h2 : ascii "\", '" = ascii "\"" ++ (ascii ", " ++ ascii "'") := by decide
  have h3 : ascii "\"" = [34] := rfl
  have h4 : ascii ")" = [41] := rfl
  have h5 : ascii "'" = [39] := rfl
  rw [hname, h1, h2, h4, h5]
  simp [List.intercalate, Atom.toString, h3]

theorem toString_startsWith_right (ptrStr text : Str) :
    (Leaf.startsWith false ptrStr text : Leaf D F).provider.toString =
      ascii "STARTSWITH('" ++ ptrStr ++ ascii "', \"" ++ text ++ [34, 41] := by
  unfold Leaf.provider create
  dsimp only
  rw [IValueProvider.toString, toStrings, toStrings, toStrings, IValueProvider.toString,
    IValueProvider.toString]
  have hname : (startsWithProvider : Func D F).name = ascii "STARTSWITH" := rfl
  have h1 : ascii "STARTSWITH('" = ascii "STARTSWITH" ++ (ascii "(" ++ ascii "'") := by decide
  have h2 : ascii "', \"" = ascii "'" ++ (ascii ", " ++ ascii "\"") := by decide
  have h3 : ascii "\"" = [34] := rfl
  have h4 : ascii ")" = [41] := rfl
  rw [hname, h1, h2, h4]
  simp [List.intercalate, Atom.toString, h3]

/-- **The prefix of the query** is the text between the quotes. -/
theorem quoted_startsWith (constantLeft : Bool) (ptrStr text : Str) :
    quoted (Leaf.startsWith constantLeft ptrStr text : Leaf D F).provider.toString =
      betweenQuotes constantLeft ptrStr text := by
  unfold betweenQuotes
  cases constantLeft with
  | true =>
    rw [toString_startsWith_left, quoted_append (by decide), if_pos rfl]
  | false =>
    rw [toString_startsWith_right, if_neg Bool.false_ne_true]
    have hsplit : ptrStr = ptrStr.takeWhile (· != 34) ++ ptrStr.dropWhile (· != 34) :=
      List.takeWhile_append_dropWhile.symm
    have hfront : 34 ∉ ascii "STARTSWITH('" ++ ptrStr.takeWhile (· != 34) := by
      rw [List.mem_append, not_or]
      refine ⟨by decide, fun h => ?_⟩
      have := List.mem_takeWhile_imp h
      simp at this
    cases hdrop : ptrStr.dropWhile (· != 34) with
    | nil =>
      rw [hdrop, List.append_nil] at hsplit
      rw [← hsplit] at hfront
      have h2 : ascii "', \"" = ascii "', " ++ [34] := by decide
      have hall : 34 ∉ ascii "STARTSWITH('" ++ ptrStr ++ ascii "', " := by
        rw [List.mem_append, not_or]
        exact ⟨hfront, by decide⟩
      have htext : ascii "STARTSWITH('" ++ ptrStr ++ ascii "', \"" ++ text ++ [34, 41] =
          (ascii "STARTSWITH('" ++ ptrStr ++ ascii "', ") ++ 34 :: (text ++ [34, 41]) := by
        rw [h2]
        simp
      rw [htext, quoted_append hall]
    | cons x rest =>
      have hx : x = 34 := by
        have hne : ptrStr.dropWhile (· != 34) ≠ [] := by rw [hdrop]; simp
        have hhead := List.head_dropWhile_not (· != 34) hne
        simp only [hdrop, List.head_cons] at hhead
        simpa using hhead
      rw [hx] at hdrop
      have htext : ascii "STARTSWITH('" ++ ptrStr ++ ascii "', \"" ++ text ++ [34, 41] =
          (ascii "STARTSWITH('" ++ ptrStr.takeWhile (· != 34)) ++
            34 :: ((rest ++ ascii "', \"" ++ text) ++ [34, 41]) := by
        conv_lhs => rw [hsplit, hdrop]
        simp
      rw [htext, quoted_append hfront]

theorem createQuery_startsWith (constantLeft : Bool) (ptrStr text : Str) :
    createQuery (Leaf.startsWith constantLeft ptrStr text : Leaf D F).provider =
      some (some ⟨ptrStr, .STRING (betweenQuotes constantLeft ptrStr text), .STARTS_WITH, .NONE⟩) := by
  have hcreate : ∀ params : List (IValueProvider D F),
      createQuery (create startsWithProvider params) = (attributesOf params).head?.map fun path =>
        some ⟨path, .STRING (quoted (create startsWithProvider params).toString), .STARTS_WITH,
          .NONE⟩ := fun params => rfl
  rw [← quoted_startsWith (D := D) (F := F)]
  unfold Leaf.provider
  cases constantLeft with
  | true =>
    dsimp only
    rw [hcreate, attributesOf, attributesOf, attributesOf, getAttributes, getAttributes]
    rfl
  | false =>
    dsimp only
    rw [hcreate, attributesOf, attributesOf, attributesOf, getAttributes, getAttributes]
    rfl

omit [Double F] in
/-- The text of a parameter that is a pointer. -/
theorem getParamString_pointer (v : Option (RJValue F)) : getParamString ⟨.IV_Any, false, v⟩ =
    match v with
    | some (.string s) => some (cString s)
    | _ => none := by
  unfold getParamString
  rcases v with _ | v
  · rfl
  · cases v <;> rfl

omit [Double F] in
theorem getParamString_text (text : Str) :
    getParamString (⟨.IV_String, true, some (.string (cString text))⟩ : Param F) =
      some (cString text) := by
  have hcut := cString_cString text
  exact congrArg some hcut

theorem check_startsWith (constantLeft : Bool) (ptrStr text : Str) (json : D) :
    check (Leaf.startsWith constantLeft ptrStr text).provider json =
      match RapidJsonDocument.get json ptrStr with
      | some (.string s) =>
        if constantLeft then (cString s).isPrefixOf (cString text)
        else (cString text).isPrefixOf (cString s)
      | _ => false := by
  have hpointer := getParamString_pointer (RapidJsonDocument.get json ptrStr)
  have htext : getParamString (⟨.IV_String, true, some (.string (cString text))⟩ : Param F) =
      some (cString text) := getParamString_text text
  unfold Leaf.provider check create
  cases constantLeft with
  | true =>
    dsimp only
    rw [getValue_func, getParams, getParams, getParams, getValue, getValue]
    show RJValue.asBool (startsWithProvider.calculate _ json
      [⟨.IV_String, true, some (.string (cString text))⟩,
        ⟨.IV_Any, false, RapidJsonDocument.get json ptrStr⟩]) = _
    unfold startsWithProvider
    simp only [List.map_cons, List.map_nil]
    rw [htext, hpointer]
    rcases RapidJsonDocument.get json ptrStr with _ | v
    · rfl
    · cases v <;> rfl
  | false =>
    dsimp only
    rw [getValue_func, getParams, getParams, getParams, getValue, getValue]
    show RJValue.asBool (startsWithProvider.calculate _ json
      [⟨.IV_Any, false, RapidJsonDocument.get json ptrStr⟩,
        ⟨.IV_String, true, some (.string (cString text))⟩]) = _
    unfold startsWithProvider
    simp only [List.map_cons, List.map_nil]
    rw [htext, hpointer]
    rcases RapidJsonDocument.get json ptrStr with _ | v
    · rfl
    · cases v <;> rfl

theorem translates_startsWith (constantLeft : Bool) (ptrStr text : Str) (json : D) :
    Preserved (.startsWith constantLeft ptrStr text) json ↔
      (Leaf.startsWith constantLeft ptrStr text).Translates json := by
  rw [preserved_iff_selects (createQuery_startsWith constantLeft ptrStr text), check_startsWith]
  unfold documentSatisfies Leaf.Translates
  dsimp only
  cases RapidJsonDocument.get json ptrStr with
  | none => exact iff_of_true rfl fun _ s hs => by cases hs
  | some v =>
    cases v with
    | string s =>
      have hsatisfies : satisfies ⟨ptrStr, .STRING (betweenQuotes constantLeft ptrStr text),
          .STARTS_WITH, .NONE⟩ (.string s : RJValue F) =
          (cString (betweenQuotes constantLeft ptrStr text)).isPrefixOf (cString s) := rfl
      dsimp only
      rw [hsatisfies, Bool.eq_iff_iff, List.isPrefixOf_iff_prefix]
      have hconstant : (if constantLeft then (cString s).isPrefixOf (cString text)
          else (cString text).isPrefixOf (cString s)) = true ↔
          if constantLeft then cString s <+: cString text else cString text <+: cString s := by
        cases constantLeft <;> exact List.isPrefixOf_iff_prefix
      rw [hconstant]
      constructor
      · intro h _ t ht
        obtain rfl := RJValue.string.inj (Option.some.inj ht)
        exact h
      · intro h
        by_cases hquote : constantLeft = true ∨ 34 ∈ ptrStr
        · exact h hquote s rfl
        · rw [not_or, Bool.not_eq_true] at hquote
          rw [hquote.1, betweenQuotes_of_notMem hquote.2, if_neg Bool.false_ne_true]
    | _ => exact iff_of_true rfl fun _ s hs => by cases hs

/-! ### Checks of a type -/

theorem satisfies_hasType {type : IValueType} {functionType : FunctionType}
    (h : functionTypes.lookup (isXName type) = some functionType) (path : Str) (v : RJValue F) :
    satisfies ⟨path, .NONE, .EQUALS, functionType⟩ v = hasType type v := by
  cases type with
  | IV_Array =>
    have hnone : functionTypes.lookup (isXName .IV_Array) = none := rfl
    rw [hnone] at h
    cases h
  | _ =>
    obtain rfl := Option.some.inj (h.symm.trans rfl)
    cases v <;> rfl

theorem check_isX (type : IValueType) (ptrStr : Str) (json : D) :
    check (Leaf.isX type ptrStr).provider json =
      (RapidJsonDocument.get json ptrStr).elim false (hasType type) := by
  have hvalue : getValue json (Leaf.call (isXBool type) ptrStr) =
      some (.bool ((RapidJsonDocument.get json ptrStr).elim false (hasType type))) :=
    getValue_call _ _ _
  unfold Leaf.provider check
  dsimp only
  rw [hvalue]
  rfl

/-- A check of a type says what its query asks for. -/
theorem preserved_isX (type : IValueType) (ptrStr : Str) (json : D) :
    Preserved (.isX type ptrStr) json := by
  have hattributes : getAttributes (Leaf.call (isXBool type) ptrStr : IValueProvider D F) = [ptrStr] :=
    getAttributes_call rfl ptrStr
  have hname : (isXBool type : Func D F).name = isXName type := rfl
  cases hlookup : functionTypes.lookup (isXName type) with
  | none =>
    have hother : isXName type ≠ ascii "STARTSWITH" := by cases type <;> decide
    have hcreate : createQuery (Leaf.isX type ptrStr : Leaf D F).provider = some none := by
      unfold Leaf.provider Leaf.call create createQuery
      dsimp only
      rw [hname, hlookup]
      exact if_neg hother
    exact preserved_of_none hcreate json
  | some functionType =>
    have hcreate : createQuery (Leaf.isX type ptrStr : Leaf D F).provider =
        some (some ⟨ptrStr, .NONE, .EQUALS, functionType⟩) := by
      have hhead : (getAttributes (Leaf.call (isXBool type) ptrStr : IValueProvider D F)).head? =
          some ptrStr := by rw [hattributes]; rfl
      unfold Leaf.provider createQuery
      dsimp only [Leaf.call, create] at hhead ⊢
      rw [hname, hlookup]
      dsimp only
      rw [hhead]
      rfl
    rw [preserved_iff_selects hcreate, check_isX]
    unfold documentSatisfies
    dsimp only
    cases RapidJsonDocument.get json ptrStr with
    | none => rfl
    | some v => exact satisfies_hasType hlookup ptrStr v

/-! ### All predicates -/

def literal (s : String) : Constant (FlatDocument Float) Float where
  provider := .atom (.string (ascii s))
  isConst := rfl
  noAttributes := rfl

def document : FlatDocument Float := ⟨[(ascii "/a", .string (ascii "c"))]⟩

end Joda.Index.QueryLeaves
