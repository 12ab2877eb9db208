import Joda.Index.MemoryManager
import Joda.Index.TrieLex
import Joda.Index.VisitedNode
import Joda.Lib.Lookup

/-! # Later visits of a path

`UnionTreeNode::getDocumentsSecond` answers from what the first visit left: from the ranges of the types,
from the trie of the strings, which is filled at once if there is none, and from the histogram of the
numbers, which is built if there is none. It asks for memory before it searches, and what is removed
then can be the very index it was about to search. -/

namespace Joda.Index.SecondVisit

open Joda.Values.Value Joda.Values.PointerSet Joda.Values.Provider Joda.Lib Joda.Lib.Ranges Joda.Lib.Runs
open Joda.Lib.Fuel Joda.Index.Query Joda.Index.Trie Joda.Index.TrieInvariant Joda.Index.TrieSearch
open Joda.Index.TrieRuns Joda.Index.TrieLex Joda.Index.Histogram Joda.Index.FirstVisit
open Joda.Index.EstimateWork Joda.Index.MemoryManager

variable {F : Type}

section Code

variable [Double F]

/-! ### The code -/

/-- `UnionTreeNode::removeElement` -/
def removeElement (node : UnionTreeNode) : ManagedDataType → UnionTreeNode
  | .AdaptiveTrieData => { node with adaptiveTrie := none }
  | .NumberIndexData => { node with numberIndex := none }
  | .UnionTreeNodeData => node

/-- A call of `ensureMemory`: whether there is enough, and what it removed of the node that asks. -/
structure Ensured where
  enough : Bool
  removed : List ManagedDataType

def Ensured.left (memory : Ensured) (node : UnionTreeNode) : UnionTreeNode :=
  memory.removed.foldl removeElement node

/-- The trie that is searched: the one that is left, or a new one where there was none. It is `none` where
the one that was there is removed. -/
def trieFor (docs : List (RJValue F)) (memory : Ensured) (node : UnionTreeNode) : Option Node :=
  match node.adaptiveTrie with
  | some _ => (memory.left node).adaptiveTrie
  | none => initializeFull (strings docs node.jsonPath) (node.documents .string)

/-- The search of a comparison of strings. -/
def findString (docs : Documents) (stringDocuments : List ℕ) (cmpType : CmpType) (strValue : Str)
    (root : Node) : Option (Finset ℕ × Node) :=
  match cmpType with
  | .EQUALS => findEq docs root strValue
  | .NOT_EQUALS => findNotEq docs root strValue
  | .STARTS_WITH => findStartsWith docs root strValue
  | .LT => getLexDocuments docs stringDocuments root strValue .lt
  | .LTE => getLexDocuments docs stringDocuments root strValue .lte
  | .GT => getLexDocuments docs stringDocuments root strValue .gt
  | .GTE => getLexDocuments docs stringDocuments root strValue .gte

/-- The comparisons of strings. -/
def getStrings (docs : List (RJValue F)) (cmpType : CmpType) (strValue : Str) (memory : Ensured)
    (node : UnionTreeNode) : Option (Option (Finset ℕ) × UnionTreeNode) :=
  if memory.enough then
    (trieFor docs memory node).bind fun root =>
      (findString (strings docs node.jsonPath) (node.documents .string) cmpType strValue root).map
        fun (result, root) => (some result, { memory.left node with adaptiveTrie := some root })
  else some (none, memory.left node)

/-- A bucket was divided at once. -/
def divided : HistogramBucket → Bool
  | .leaf .. => false
  | .sub _ _ _ _ buckets => buckets.any HistogramBucket.hasSub

/-- The histogram that is searched, and whether a bucket has been divided for the context. -/
def histogramFor (docs : List (RJValue F)) (splitted : Bool) (index : NumberIndex) :
    Option (AdaptiveHistogram × Bool) :=
  match index.histogram with
  | some h => some (h, splitted)
  | none =>
    (initialSplit (intAt docs index.jsonPath) 100 (pairs index.relevantDocuments) index.minValue
      index.maxValue).map fun h => (h, splitted || divided h.root)

/-- The comparisons of integers; without a number index there is no answer. -/
def getNumbers (docs : List (RJValue F)) (cmpType : CmpType) (intVal : ℤ) (memory : Ensured)
    (splitted : Bool) (node : UnionTreeNode) (fuel : ℕ) :
    Option (Option (Finset ℕ) × UnionTreeNode) :=
  if node.numberIndex.isNone then some (none, node)
  else if memory.enough then
    (memory.left node).numberIndex.bind fun index =>
      (histogramFor docs splitted index).bind fun (h, splitted) =>
        (find docs.length ⟨intVal, cmpType, splitted⟩ h fuel).map fun (result, h) =>
          (some result,
            { memory.left node with numberIndex := some { index with histogram := some h } })
  else some (none, memory.left node)

/-- The documents of the ranges of some types. -/
def ofTypes (node : UnionTreeNode) (types : List RangeType) : Finset ℕ :=
  types.foldl (fun result t => setResult (node.documents t) result) ∅

/-- `result.flip()` -/
def flip (size : ℕ) (flips : Bool) (result : Finset ℕ) : Finset ℕ :=
  if flips then Finset.range size \ result else result

/-- **`UnionTreeNode::getDocumentsSecond`** in a container of these documents: the answer, `none` inside
for the null pointer, and the node afterwards. -/
def getDocumentsSecond (docs : List (RJValue F)) (query : AdaptiveIndexQuery) (memory : Ensured)
    (splitted : Bool) (node : UnionTreeNode) (fuel : ℕ) :
    Option (Option (Finset ℕ) × UnionTreeNode) :=
  match query.functionType, query.content with
  | .TYPE, content =>
    let types := match content with
      | .STRING strValue => typesOf strValue
      | _ => []
    some (flip docs.length (query.cmpType == .NOT_EQUALS) (ofTypes node types), node)
  | .ISBOOL, _ => some (ofTypes node [.true, .false], node)
  | .ISNUMBER, _ => some (ofTypes node [.number], node)
  | .ISSTRING, _ => some (ofTypes node [.string], node)
  | .ISOBJECT, _ => some (ofTypes node [.object], node)
  | _, .STRING strValue => getStrings docs query.cmpType strValue memory node
  | .ISNULL, _ => some (ofTypes node [.null], node)
  | .EXISTS, _ => some (ofTypes node [.string, .object, .true, .false, .number, .null], node)
  | .NONE, .BOOL boolVal =>
    some (flip docs.length (query.cmpType == .NOT_EQUALS)
      (ofTypes node [if boolVal then .true else .false]), node)
  | .NONE, .INT intVal => getNumbers docs query.cmpType intVal memory splitted node fuel
  | .NONE, .NONE => some (none, node)

/-! ### What the index takes a query for -/

/-- What the index asks of one value: a comparison of it, or its type. -/
def asks (query : AdaptiveIndexQuery) (v : RJValue F) : Bool :=
  match query.functionType with
  | .NONE => takes query v
  | .ISNULL => rangeType v == some .null
  | _ => (rangeType v).any fun t => (functionTypes query).contains t

/-- What the index wants of a document, by its value at the path: `NOT_EQUALS` wants the documents that
`EQUALS` does not want. -/
def wants (query : AdaptiveIndexQuery) (val : Option (RJValue F)) : Bool :=
  if query.cmpType = .NOT_EQUALS ∧ (query.functionType = .NONE ∨ query.functionType = .TYPE) then
    !val.any (asks { query with cmpType := .EQUALS })
  else val.any (asks query)

/-- The documents the index wants. -/
def Wanted (docs : List (RJValue F)) (path : Str) (query : AdaptiveIndexQuery) (result : Finset ℕ) :
    Prop :=
  ∀ k, k ∈ result ↔ k < docs.length ∧ wants query (pathAt docs path k) = true

/-- The comparison of integers. -/
def calculateInt : ComparisonCalc → ℤ → ℤ → Bool
  | .less, lhs, rhs => decide (lhs < rhs)
  | .greater, lhs, rhs => decide (rhs < lhs)
  | .lessEqual, lhs, rhs => decide (lhs ≤ rhs)
  | .greaterEqual, lhs, rhs => decide (rhs ≤ lhs)

/-- **Where the index takes a query for what it says**: no zero byte cuts the text; the value is there
for `NOT_EQUALS`, is no array for `EXISTS`, and where integers are compared, it is no number or an integer
of 64 bits whose double compares to that of the constant as the integers do. -/
structure Told (query : AdaptiveIndexQuery) (val : Option (RJValue F)) : Prop where
  text : ∀ strValue, query.content = .STRING strValue → (0 : UInt8) ∉ strValue
  there : query.cmpType = .NOT_EQUALS → val ≠ none
  arrays : query.functionType = .EXISTS → ∀ vs, val ≠ some (.array vs)
  integers : ∀ intVal, query.content = .INT intVal → ∀ n, val = some (.number n) → n.isInt64 ∧
    ∀ op, query.cmpType = comparisonCmpType op → op.calculateDouble n.getDouble (Double.ofInt intVal) =
      calculateInt op n.getInt intVal

/-- **The answer is exact**: it has the documents that satisfy the query. -/
def Answers (docs : List (RJValue F)) (path : Str) (query : AdaptiveIndexQuery) (result : Finset ℕ) :
    Prop :=
  ∀ k, Told query (pathAt docs path k) →
    (k ∈ result ↔ k < docs.length ∧ (pathAt docs path k).any (satisfies query) = true)

/-- The queries `createQuery` makes. -/
inductive Created : AdaptiveIndexQuery → Prop
  | string {path strValue : Str} {cmpType : CmpType} : Created ⟨path, .STRING strValue, cmpType, .NONE⟩
  | int {path : Str} {intVal : ℤ} {cmpType : CmpType} (h : cmpType ≠ .STARTS_WITH)
      (hint : -2 ^ 63 ≤ intVal ∧ intVal < 2 ^ 63) : Created ⟨path, .INT intVal, cmpType, .NONE⟩
  | bool {path : Str} {boolVal : Bool} {cmpType : CmpType}
      (h : cmpType = .EQUALS ∨ cmpType = .NOT_EQUALS) : Created ⟨path, .BOOL boolVal, cmpType, .NONE⟩
  | type {path strValue : Str} {cmpType : CmpType} (h : cmpType = .EQUALS ∨ cmpType = .NOT_EQUALS)
      (harray : strValue ≠ ascii "ARRAY") : Created ⟨path, .STRING strValue, cmpType, .TYPE⟩
  | function {path : Str} {functionType : FunctionType} (h1 : functionType ≠ .NONE)
      (h2 : functionType ≠ .TYPE) : Created ⟨path, .NONE, .EQUALS, functionType⟩

end Code

variable {docs : List (RJValue F)} {path : Str}

/-! ### Queries -/

theorem created_of_content {path : Str} {content : Content} {cmpType : CmpType} {v : RJValue F}
    (h : equalityContent v = some content) (hcmpType : cmpType = .EQUALS ∨ cmpType = .NOT_EQUALS) :
    Created ⟨path, content, cmpType, .NONE⟩ := by
  have hstarts : cmpType ≠ .STARTS_WITH := by rcases hcmpType with rfl | rfl <;> decide
  cases v with
  | string s =>
    cases h
    exact .string
  | number n =>
    unfold equalityContent at h
    dsimp only at h
    split_ifs at h
    cases h
    have hle := Int.le_bmod (x := n.getInt) (m := 2 ^ 32) (by decide)
    have hlt := Int.bmod_lt (x := n.getInt) (m := 2 ^ 32) (by decide)
    exact .int hstarts ⟨by omega, by omega⟩
  | bool b =>
    cases h
    exact .bool hcmpType
  | null | array | object => cases h

theorem created_of_createQueryFromEQ {D : Type} [Double F] [RapidJsonDocument D F]
    {lhs rhs : IValueProvider D F} {cmpType : CmpType} {query : AdaptiveIndexQuery}
    (hcmpType : cmpType = .EQUALS ∨ cmpType = .NOT_EQUALS)
    (h : createQueryFromEQ cmpType lhs rhs = some (some query)) : Created query := by
  have htype : ∀ {attributes : List Str} {val : RJValue F},
      typeQuery cmpType attributes val = some (some query) → Created query := by
    intro attributes val h
    obtain ⟨strValue, -, h⟩ := Option.bind_eq_some_iff.mp h
    split_ifs at h with harray
    · cases Option.some.inj h
    · obtain ⟨path, -, hquery⟩ := Option.map_eq_some_iff.mp h
      rw [← Option.some.inj hquery]
      exact .type hcmpType harray
  unfold createQueryFromEQ at h
  cases hsimple : simpleComparison lhs rhs with
  | some comparison =>
    rw [hsimple] at h
    obtain ⟨content, hcontent, rfl⟩ := Option.map_eq_some_iff.mp (Option.some.inj h)
    exact created_of_content hcontent hcmpType
  | none =>
    rw [hsimple] at h
    dsimp only at h
    split_ifs at h
    · exact htype h
    · exact htype h
    · cases Option.some.inj h

/-- **The queries of expressions** are among these. -/
theorem created_of_createQuery {D : Type} [Double F] [RapidJsonDocument D F] {e : IValueProvider D F}
    {query : AdaptiveIndexQuery} (h : createQuery e = some (some query)) : Created query := by
  cases e with
  | equality op lhs rhs => exact created_of_createQueryFromEQ (by cases op <;> simp [equalityCmpType]) h
  | comparison op lhs rhs =>
    obtain ⟨⟨path, value⟩, -, h⟩ := Option.bind_eq_some_iff.mp (Option.some.inj h)
    obtain ⟨content, hcontent, rfl⟩ := Option.map_eq_some_iff.mp h
    cases value with
    | string s =>
      cases hcontent
      exact .string
    | number n =>
      unfold comparisonContent at hcontent
      dsimp only at hcontent
      split_ifs at hcontent with hint
      cases hcontent
      refine .int (by cases op <;> decide) ?_
      cases n with
      | int z => exact of_decide_eq_true hint
      | double d => cases hint
    | null | bool | array | object => cases hcontent
  | func f made params =>
    unfold createQuery at h
    dsimp only at h
    split at h
    · next fType hlookup =>
      obtain ⟨path, -, hquery⟩ := Option.map_eq_some_iff.mp h
      rw [← Option.some.inj hquery]
      have hall : ∀ p ∈ Query.functionTypes, p.2 ≠ .NONE ∧ p.2 ≠ .TYPE := by decide
      obtain ⟨h1, h2⟩ := hall _ (Lookup.mem_of_lookup hlookup)
      exact .function h1 h2
    · split_ifs at h
      · obtain ⟨path, -, hquery⟩ := Option.map_eq_some_iff.mp h
        rw [← Option.some.inj hquery]
        exact .string
      · cases Option.some.inj h
  | atom | null | pointer | bool | not | number => cases h

section Told

variable [Double F]

theorem satisfies_unEqual {path : Str} {content : Content} {functionType : FunctionType}
    (h : functionType = .NONE ∨ functionType = .TYPE) (v : RJValue F) :
    satisfies ⟨path, content, .NOT_EQUALS, functionType⟩ v =
      !satisfies ⟨path, content, .EQUALS, functionType⟩ v := by
  rcases h with rfl | rfl <;> rfl

/-- A comparison of a string. -/
theorem takes_string {path strValue : Str} {cmpType : CmpType} (htext : (0 : UInt8) ∉ strValue)
    (hne : cmpType ≠ .NOT_EQUALS) (v : RJValue F) :
    takes ⟨path, .STRING strValue, cmpType, .NONE⟩ v =
      satisfies ⟨path, .STRING strValue, cmpType, .NONE⟩ v := by
  have hcut : cString strValue = strValue := cString_eq_self.mpr htext
  unfold takes satisfies compares Content.value
  cases v with
  | string s =>
    cases cmpType with
    | NOT_EQUALS => exact absurd rfl hne
    | EQUALS | STARTS_WITH | LT | LTE | GT | GTE =>
      simp [matchesString, startsWith, RJValue.equal, EqualityCalc.calculate,
        IValueProvider.comparisonValue, RJValue.asBool, ComparisonCalc.calculateString, hcut]
  | null | bool | number | array | object =>
    cases cmpType with
    | NOT_EQUALS => exact absurd rfl hne
    | EQUALS | STARTS_WITH | LT | LTE | GT | GTE =>
      simp [startsWith, RJValue.equal, RJValue.deepEqual, EqualityCalc.calculate,
        IValueProvider.comparisonValue, RJValue.asBool]

/-- A comparison of an integer. -/
theorem takes_int {path : Str} {intVal : ℤ} {cmpType : CmpType} {v : RJValue F}
    (h : Told ⟨path, .INT intVal, cmpType, .NONE⟩ (some v)) (hne : cmpType ≠ .NOT_EQUALS)
    (hstarts : cmpType ≠ .STARTS_WITH) (hint : -2 ^ 63 ≤ intVal ∧ intVal < 2 ^ 63) :
    takes ⟨path, .INT intVal, cmpType, .NONE⟩ v =
      satisfies ⟨path, .INT intVal, cmpType, .NONE⟩ v := by
  cases v with
  | number n =>
    obtain ⟨hn, hcompare⟩ := h.integers intVal rfl n rfl
    cases n with
    | double d => cases hn
    | int z =>
      have hvalue : Number.isInt64 (.int intVal : Number F) = true := decide_eq_true hint
      have hop : ∀ op, cmpType = comparisonCmpType op →
          compares cmpType (.number (.int z) : RJValue F) (.number (.int intVal)) =
            calculateInt op z intVal := by
        intro op hop
        refine Eq.trans ?_ (hcompare op hop)
        rw [hop]
        cases op <;> rfl
      show matchesNumber cmpType intVal (.int z : Number F) =
        compares cmpType (.number (.int z) : RJValue F) (.number (.int intVal))
      unfold matchesNumber
      dsimp only
      rw [hn, Bool.true_and]
      cases cmpType with
      | NOT_EQUALS => exact absurd rfl hne
      | STARTS_WITH => exact absurd rfl hstarts
      | EQUALS =>
        simp [compares, RJValue.equal, EqualityCalc.calculate, hn, hvalue, Number.getInt]
      | LT => exact (hop .less rfl).symm
      | LTE => exact (hop .lessEqual rfl).symm
      | GT => exact (hop .greater rfl).symm
      | GTE => exact (hop .greaterEqual rfl).symm
  | null | bool | string | array | object =>
    cases cmpType with
    | NOT_EQUALS => exact absurd rfl hne
    | EQUALS | STARTS_WITH | LT | LTE | GT | GTE =>
      simp [takes, satisfies, compares, Content.value, startsWith, RJValue.equal, RJValue.deepEqual,
        EqualityCalc.calculate, IValueProvider.comparisonValue, RJValue.asBool]

/-- A comparison of a type. -/
theorem asks_type {path strValue : Str} (htext : (0 : UInt8) ∉ strValue)
    (harray : strValue ≠ ascii "ARRAY") (v : RJValue F) :
    asks ⟨path, .STRING strValue, .EQUALS, .TYPE⟩ v =
      satisfies ⟨path, .STRING strValue, .EQUALS, .TYPE⟩ v := by
  have hcut : cString strValue = strValue := cString_eq_self.mpr htext
  have hsatisfies : satisfies ⟨path, .STRING strValue, .EQUALS, .TYPE⟩ v =
      (typeName v == strValue) := by
    have hname : cString (typeName v) = typeName v := by cases v <;> rfl
    show (some (cString (typeName v) == cString strValue)).getD false = _
    rw [hcut, hname]
    rfl
  have hasks : asks ⟨path, .STRING strValue, .EQUALS, .TYPE⟩ v =
      (rangeType v).any fun t => (typesOf strValue).contains t := rfl
  rw [hsatisfies, hasks]
  unfold typesOf
  split_ifs with h1 h2 h3 h4 h5
  · subst h1
    cases v with
    | bool b => cases b <;> rfl
    | null | number | string | array | object => rfl
  · subst h2
    cases v with
    | bool b => cases b <;> rfl
    | null | number | string | array | object => rfl
  · subst h3
    cases v with
    | bool b => cases b <;> rfl
    | null | number | string | array | object => rfl
  · subst h4
    cases v with
    | bool b => cases b <;> rfl
    | null | number | string | array | object => rfl
  · subst h5
    cases v with
    | bool b => cases b <;> rfl
    | null | number | string | array | object => rfl
  · have hother : typeName v ≠ strValue := by
      rintro rfl
      cases v with
      | null => exact h4 rfl
      | bool b => exact h3 rfl
      | number n => exact h2 rfl
      | string s => exact h1 rfl
      | array vs => exact harray rfl
      | object ms => exact h5 rfl
    rw [beq_false_of_ne hother]
    cases rangeType v <;> rfl

/-- What the index asks of a value is what the query says. -/
theorem asks_eq {query : AdaptiveIndexQuery} {v : RJValue F} (hcreated : Created query)
    (h : Told query (some v)) (hne : query.cmpType ≠ .NOT_EQUALS) :
    asks query v = satisfies query v := by
  cases hcreated with
  | string => exact takes_string (h.text _ rfl) hne v
  | int hstarts hint => exact takes_int h hne hstarts hint
  | bool hc =>
    obtain rfl := hc.resolve_right hne
    cases v <;> simp [asks, takes, satisfies, compares, Content.value, RJValue.equal, RJValue.deepEqual,
      EqualityCalc.calculate, Bool.beq_comm]
  | type hc harray =>
    obtain rfl := hc.resolve_right hne
    exact asks_type (h.text _ rfl) harray v
  | @function path functionType h1 h2 =>
    cases functionType with
    | NONE => exact absurd rfl h1
    | TYPE => exact absurd rfl h2
    | EXISTS =>
      cases v with
      | array vs => exact absurd rfl (h.arrays rfl vs)
      | bool b => cases b <;> rfl
      | null | number | string | object => rfl
    | ISNULL | ISBOOL | ISNUMBER | ISSTRING | ISOBJECT =>
      cases v with
      | bool b => cases b <;> rfl
      | null | number | string | array | object => rfl

/-- **The index wants what the query says**, where it takes it for that. -/
theorem wants_eq {query : AdaptiveIndexQuery} {val : Option (RJValue F)} (hcreated : Created query)
    (h : Told query val) : wants query val = val.any (satisfies query) := by
  unfold wants
  by_cases hne : query.cmpType = .NOT_EQUALS
  · obtain ⟨v, rfl⟩ := Option.ne_none_iff_exists'.mp (h.there hne)
    have hfunction : query.functionType = .NONE ∨ query.functionType = .TYPE := by
      cases hcreated with
      | function => cases hne
      | type => exact .inr rfl
      | string | int | bool => exact .inl rfl
    have hequal : Created { query with cmpType := .EQUALS } := by
      cases hcreated with
      | function => cases hne
      | string => exact .string
      | int _ hint => exact .int (by decide) hint
      | bool => exact .bool (.inl rfl)
      | type _ harray => exact .type (.inl rfl) harray
    have htold : Told { query with cmpType := .EQUALS } (some v) :=
      ⟨h.text, (fun hc => by cases hc), h.arrays, fun intVal hcontent n hn =>
        ⟨(h.integers intVal hcontent n hn).1, fun op hop => by cases op <;> cases hop⟩⟩
    rw [if_pos ⟨hne, hfunction⟩, Option.any_some, Option.any_some,
      asks_eq hequal htold (by simp), ← satisfies_unEqual hfunction, ← hne]
  · rw [if_neg fun hc => hne hc.1]
    cases val with
    | none => rfl
    | some v => exact asks_eq hcreated h hne

theorem Wanted.answers {query : AdaptiveIndexQuery} {result : Finset ℕ}
    (h : Wanted docs path query result) (hcreated : Created query) :
    Answers docs path query result := by
  intro k htold
  rw [h k, wants_eq hcreated htold]

end Told

/-! ### Sets of documents -/

theorem lt_of_any {p : RJValue F → Bool} {k : ℕ} (h : (pathAt docs path k).any p = true) :
    k < docs.length := by
  obtain ⟨v, hv, -⟩ := (Option.any_eq_true _ _).mp h
  obtain ⟨doc, hdoc, -⟩ := Option.bind_eq_some_iff.mp hv
  exact (List.getElem?_eq_some_iff.mp hdoc).1

theorem mem_foldl_setResult {documents : RangeType → List ℕ} {types : List RangeType} {result : Finset ℕ}
    {k : ℕ} : k ∈ types.foldl (fun result t => setResult (documents t) result) result ↔
      k ∈ result ∨ ∃ t ∈ types, k ∈ elements (documents t) := by
  induction types generalizing result with
  | nil => simp
  | cons t types ih =>
    rw [List.foldl_cons, ih, setResult, Finset.mem_union, List.mem_toFinset, List.exists_mem_cons_iff,
      or_assoc]

/-- **The ranges of some types** have the documents whose value is of one of them. -/
theorem mem_ofTypes {node : UnionTreeNode} (h : Exact docs node.jsonPath node.documents)
    (types : List RangeType) (k : ℕ) : k ∈ ofTypes node types ↔
      (pathAt docs node.jsonPath k).any (fun v => (rangeType v).any types.contains) = true := by
  unfold ofTypes
  rw [mem_foldl_setResult, or_iff_right (Finset.notMem_empty k), Option.any_eq_true]
  constructor
  · rintro ⟨t, ht, hk⟩
    obtain ⟨v, hv, htype⟩ := Option.bind_eq_some_iff.mp (((h t).2 k).mp hk)
    exact ⟨v, hv, by rw [htype, Option.any_some, List.contains_iff_mem]; exact ht⟩
  · rintro ⟨v, hv, htype⟩
    obtain ⟨t, ht, hmem⟩ := (Option.any_eq_true _ _).mp htype
    exact ⟨t, List.contains_iff_mem.mp hmem,
      ((h t).2 k).mpr (Option.bind_eq_some_iff.mpr ⟨v, hv, ht⟩)⟩

section Sets

variable [Double F]

theorem wanted_any {query : AdaptiveIndexQuery} {result : Finset ℕ}
    (hquery : ¬ (query.cmpType = .NOT_EQUALS ∧ (query.functionType = .NONE ∨ query.functionType = .TYPE)))
    (h : ∀ k, k ∈ result ↔ (pathAt docs path k).any (asks query) = true) :
    Wanted docs path query result := by
  intro k
  rw [h, wants, if_neg hquery]
  exact ⟨fun hk => ⟨lt_of_any hk, hk⟩, fun hk => hk.2⟩

/-- The answer to `NOT_EQUALS` is that to `EQUALS`, flipped. -/
theorem wanted_flip {propertyPath : Str} {content : Content} {cmpType : CmpType}
    {functionType : FunctionType} {result : Finset ℕ}
    (hcmpType : cmpType = .EQUALS ∨ cmpType = .NOT_EQUALS)
    (hfunction : functionType = .NONE ∨ functionType = .TYPE)
    (h : ∀ k, k ∈ result ↔
      (pathAt docs path k).any (asks ⟨propertyPath, content, .EQUALS, functionType⟩) = true) :
    Wanted docs path ⟨propertyPath, content, cmpType, functionType⟩
      (flip docs.length (cmpType == .NOT_EQUALS) result) := by
  rcases hcmpType with rfl | rfl
  · exact wanted_any (by simp) h
  · intro k
    show k ∈ Finset.range docs.length \ result ↔ _
    rw [wants, if_pos ⟨rfl, hfunction⟩, Finset.mem_sdiff, Finset.mem_range, h]
    simp

/-- **The answers from the ranges** to a query about a type. -/
theorem wanted_type {node : UnionTreeNode} (h : Exact docs node.jsonPath node.documents)
    {propertyPath strValue : Str} {cmpType : CmpType}
    (hcmpType : cmpType = .EQUALS ∨ cmpType = .NOT_EQUALS) :
    Wanted docs node.jsonPath ⟨propertyPath, .STRING strValue, cmpType, .TYPE⟩
      (flip docs.length (cmpType == .NOT_EQUALS) (ofTypes node (typesOf strValue))) :=
  wanted_flip hcmpType (.inr rfl) (mem_ofTypes h _)

theorem wanted_function {node : UnionTreeNode} (h : Exact docs node.jsonPath node.documents)
    {propertyPath : Str} {functionType : FunctionType} {types : List RangeType}
    (hasks : ∀ v : RJValue F, asks ⟨propertyPath, .NONE, .EQUALS, functionType⟩ v =
      (rangeType v).any types.contains) :
    Wanted docs node.jsonPath ⟨propertyPath, .NONE, .EQUALS, functionType⟩ (ofTypes node types) := by
  refine wanted_any (by simp) fun k => ?_
  rw [mem_ofTypes h]
  congr! 3
  exact (hasks _).symm

theorem wanted_bool {node : UnionTreeNode} (h : Exact docs node.jsonPath node.documents)
    {propertyPath : Str} {boolVal : Bool} {cmpType : CmpType}
    (hcmpType : cmpType = .EQUALS ∨ cmpType = .NOT_EQUALS) :
    Wanted docs node.jsonPath ⟨propertyPath, .BOOL boolVal, cmpType, .NONE⟩
      (flip docs.length (cmpType == .NOT_EQUALS) (ofTypes node [if boolVal then .true else .false])) := by
  refine wanted_flip hcmpType (.inl rfl) fun k => ?_
  rw [mem_ofTypes h]
  have hasks : ∀ v : RJValue F, asks ⟨propertyPath, .BOOL boolVal, .EQUALS, .NONE⟩ v =
      (rangeType v).any [if boolVal then RangeType.true else .false].contains := by
    intro v
    cases v with
    | bool b => cases b <;> cases boolVal <;> rfl
    | _ => cases boolVal <;> rfl
  congr! 3
  exact (hasks _).symm

end Sets

/-! ### The strings -/

/-- The lexicographic comparison. -/
def lexType : CmpType → Option ComparisonType
  | .LT => some .lt
  | .LTE => some .lte
  | .GT => some .gt
  | .GTE => some .gte
  | .EQUALS | .NOT_EQUALS | .STARTS_WITH => none

/-- **The condition on a comparison of strings** and the trie that is searched. -/
structure StringMeets (docs : Documents) (root : Node) (cmpType : CmpType) (s : Str) : Prop where
  eq : cmpType = .EQUALS ∨ cmpType = .NOT_EQUALS → EqMeets root s
  startsWith : cmpType = .STARTS_WITH → StartsWithMeets docs root s
  lex : ∀ t, lexType cmpType = some t → s ≠ [] → LexMeets (values docs) s t
  empty : s = [] → cmpType = .GT → ∀ k, docs.string k = none

section Strings

variable {docs : Documents} {root : Node} {s : Str} {cmpType : CmpType}

theorem any_values_iff {P : Str → Prop} {p : Str → Bool} (hp : ∀ v, p v = true ↔ P v) {k : ℕ} :
    (values docs k).any p = true ↔ ∃ v, values docs k = some v ∧ P v := by
  rw [Option.any_eq_true]
  exact exists_congr fun v => and_congr_right fun _ => hp v

theorem findEq_any (h : RootForks docs root) (hm : EqMeets root s) :
    ∃ result root', findEq docs root s = some (result, root') ∧ RootForks docs root' ∧
      ∀ k, k ∈ result ↔ (values docs k).any (matchesString .EQUALS s) = true := by
  have hat : ∀ k, At (values docs) s k ↔ (values docs k).any (matchesString .EQUALS s) = true := by
    intro k
    refine Iff.trans ?_ (any_values_iff (P := (· = s)) fun v => beq_iff_eq).symm
    constructor
    · exact fun hk => ⟨s, hk, rfl⟩
    · rintro ⟨v, hv, rfl⟩
      exact hv
  cases s with
  | nil =>
    refine ⟨_, root, rfl, h, fun k => ?_⟩
    rw [← hat, List.mem_toFinset, h.rooted.inside.exact_iff]
  | cons c rest =>
    obtain ⟨r, root', cache', h1, -, h3⟩ := find_root false h.rooted c rest
    have hfind : (Call.findEq (c :: rest)).run docs root = some (eqResult r, root') := by
      rw [Call.run, findEq, h1]
      cases r <;> rfl
    refine ⟨eqResult r, root', hfind, h.call hfind, fun k => ?_⟩
    rw [← hat]
    rcases eqResult_spec h3 with ⟨-, hresult⟩ | ⟨hnot, -⟩
    · exact hresult k
    · exact absurd hm hnot

theorem findStartsWith_any (h : RootForks docs root) (hm : StartsWithMeets docs root s) :
    ∃ result root', findStartsWith docs root s = some (result, root') ∧ RootForks docs root' ∧
      ∀ k, k ∈ result ↔ (values docs k).any (matchesString .STARTS_WITH s) = true := by
  have hbelow : ∀ k, Below (values docs) s k ↔
      (values docs k).any (matchesString .STARTS_WITH s) = true := fun k =>
    (any_values_iff (P := (s <+: ·)) fun v => List.isPrefixOf_iff_prefix).symm
  cases s with
  | nil =>
    have hv := h.rooted.inside.notVirtual
    refine ⟨startsWithResult (some root), root, rfl, h, fun k => ?_⟩
    rw [← hbelow, startsWithResult, if_neg (fun h => by rw [hv] at h; cases h.1), List.mem_toFinset,
      h.rooted.inside.mem_collect]
  | cons c rest =>
    obtain ⟨r, root', cache', h1, -, h3⟩ := find_root true h.rooted c rest
    have hfind : (Call.findStartsWith (c :: rest)).run docs root =
        some (startsWithResult r, root') := by
      rw [Call.run, findStartsWith, h1]
      cases r <;> rfl
    refine ⟨startsWithResult r, root', hfind, h.call hfind, fun k => ?_⟩
    rw [← hbelow]
    rcases startsWithResult_spec h3 with ⟨-, hresult⟩ | ⟨hnot, -⟩
    · exact hresult k
    · exact absurd hm hnot

theorem matchesString_lex {t : ComparisonType} (ht : lexType cmpType = some t) (v : Str) :
    matchesString cmpType s v = true ↔ Satisfies t v s := by
  cases cmpType with
  | LT | GT =>
    cases ht
    exact decide_eq_true_iff
  | LTE | GTE =>
    cases ht
    unfold matchesString Satisfies
    rw [Bool.not_eq_true', decide_eq_false_iff_not]
  | EQUALS | NOT_EQUALS | STARTS_WITH => cases ht

/-- **A lexicographic comparison** of the strings as the trie reads them. -/
theorem getLexDocuments_any {stringDocuments : List ℕ} {t : ComparisonType} (h : RootForks docs root)
    (hr : ∀ k, k ∈ expand stringDocuments ↔ (docs.string k).isSome)
    (hne : ∀ k, ¬ At (values docs) [] k) (ht : lexType cmpType = some t)
    (hlex : s ≠ [] → LexMeets (values docs) s t)
    (hempty : s = [] → cmpType = .GT → ∀ k, docs.string k = none) :
    ∃ result root', getLexDocuments docs stringDocuments root s t = some (result, root') ∧
      RootForks docs root' ∧ ∀ k, k ∈ result ↔ (values docs k).any (matchesString cmpType s) = true := by
  have hhit : ∀ k, Hit (values docs) t s k ↔ (values docs k).any (matchesString cmpType s) = true :=
    fun k => (any_values_iff (matchesString_lex ht)).symm
  cases s with
  | cons c rest =>
    obtain ⟨result, root', h1, h2⟩ := findLex_root_hits h (hlex (by simp))
    have hcall : (Call.findLex (c :: rest) t).run docs root = some (result, root') := h1
    refine ⟨result, root', ?_, h.call hcall, fun k => (h2 k).trans (hhit k)⟩
    unfold getLexDocuments
    rw [if_neg (by simp), if_neg (by simp)]
    exact h1
  | nil =>
    have hgreater : ∀ k v, values docs k = some v → ([] : Str) < v := fun k v hv => by
      cases v with
      | nil => exact absurd hv (hne k)
      | cons c v => exact List.nil_lt_cons c v
    have hnone : (∀ k v, values docs k = some v → ¬ Satisfies t v []) →
        ∀ k, k ∈ (∅ : Finset ℕ) ↔ (values docs k).any (matchesString cmpType []) = true :=
      fun hnot k => by
        rw [← hhit]
        exact iff_of_false (Finset.notMem_empty k) fun ⟨v, hv, hs⟩ => hnot k v hv hs
    cases t with
    | lt => exact ⟨∅, root, rfl, h, hnone fun k v hv => List.not_lt_nil v⟩
    | gte =>
      refine ⟨(expand stringDocuments).toFinset, root, rfl, h, fun k => ?_⟩
      rw [← hhit, List.mem_toFinset, hr k, ← Option.isSome_map, Option.isSome_iff_exists]
      exact exists_congr fun v => (and_iff_left (List.not_lt_nil v)).symm
    | lte => exact ⟨∅, root, rfl, h, hnone fun k v hv hnot => hnot (hgreater k v hv)⟩
    | gt =>
      have hgt : cmpType = .GT := by cases cmpType <;> first | rfl | cases ht
      refine ⟨∅, root, rfl, h, hnone fun k v hv _ => ?_⟩
      rw [values, hempty rfl hgt k] at hv
      cases hv

/-- **The search of a comparison of strings.** -/
theorem findString_any {stringDocuments : List ℕ} (h : RootForks docs root)
    (hr : ∀ k, k ∈ expand stringDocuments ↔ (docs.string k).isSome)
    (hne : ∀ k, ¬ At (values docs) [] k) (hm : StringMeets docs root cmpType s) :
    ∃ result root', findString docs stringDocuments cmpType s root = some (result, root') ∧
      RootForks docs root' ∧ ∀ k, k ∈ result ↔
        if cmpType = .NOT_EQUALS then
          k < docs.size ∧ ¬ (values docs k).any (matchesString .EQUALS s) = true
        else (values docs k).any (matchesString cmpType s) = true := by
  cases cmpType with
  | EQUALS => exact findEq_any h (hm.eq (.inl rfl))
  | NOT_EQUALS =>
    obtain ⟨result, root', h1, h2, h3⟩ := findEq_any h (hm.eq (.inr rfl))
    refine ⟨Finset.range docs.size \ result, root', ?_, h2, fun k => ?_⟩
    · show findNotEq docs root s = _
      rw [findNotEq, h1]
      rfl
    · rw [if_pos rfl, Finset.mem_sdiff, Finset.mem_range, h3]
  | STARTS_WITH => exact findStartsWith_any h (hm.startsWith rfl)
  | LT => exact getLexDocuments_any h hr hne rfl (hm.lex _ rfl) hm.empty
  | LTE => exact getLexDocuments_any h hr hne rfl (hm.lex _ rfl) hm.empty
  | GT => exact getLexDocuments_any h hr hne rfl (hm.lex _ rfl) hm.empty
  | GTE => exact getLexDocuments_any h hr hne rfl (hm.lex _ rfl) hm.empty

end Strings

/-! ### Indexed nodes -/

/-- A number index of the numbers at a path, whose documents have these ranges. Without any number, the
path is not looked at and the extremes are the initial ones. -/
structure NumbersOf (docs : List (RJValue F)) (path : Str) (documents : List ℕ) (index : NumberIndex) :
    Prop where
  relevant : index.relevantDocuments = documents
  sound : elements documents ≠ [] → Sound docs path none index
  initial : elements documents = [] → index.minValue = 2 ^ 63 - 1 ∧ index.maxValue = -2 ^ 63
  histogram : ∀ h, index.histogram = some h →
    Histogram.Inv 100 (entriesAt (intAt docs path) (pairs documents)) h

/-- A trie of the strings at a path, none of which is empty. -/
structure TrieOf (docs : Documents) (root : Node) : Prop where
  forks : RootForks docs root
  nonempty : ∀ k, ¬ At (values docs) [] k

/-- **The invariant of a visited node**: exact ranges, and indexes of what is at the path. -/
structure Indexed (docs : List (RJValue F)) (node : UnionTreeNode) : Prop where
  ranges : Exact docs node.jsonPath node.documents
  trie : ∀ root, node.adaptiveTrie = some root → TrieOf (strings docs node.jsonPath) root
  numbers : ∀ index, node.numberIndex = some index →
    NumbersOf docs node.jsonPath (node.documents .number) index

theorem foldl_removeElement (types : List ManagedDataType) : ∀ node : UnionTreeNode,
    types.foldl removeElement node =
      { node with
        adaptiveTrie := if .AdaptiveTrieData ∈ types then none else node.adaptiveTrie
        numberIndex := if .NumberIndexData ∈ types then none else node.numberIndex } := by
  induction types with
  | nil => exact fun node => by simp
  | cons t types ih =>
    intro node
    rw [List.foldl_cons, ih]
    cases t <;> simp [removeElement]

theorem left_eq (memory : Ensured) (node : UnionTreeNode) : memory.left node =
    { node with
      adaptiveTrie := if .AdaptiveTrieData ∈ memory.removed then none else node.adaptiveTrie
      numberIndex := if .NumberIndexData ∈ memory.removed then none else node.numberIndex } :=
  foldl_removeElement memory.removed node

@[simp] theorem left_jsonPath (memory : Ensured) (node : UnionTreeNode) :
    (memory.left node).jsonPath = node.jsonPath := by rw [left_eq]

@[simp] theorem left_documents (memory : Ensured) (node : UnionTreeNode) :
    (memory.left node).documents = node.documents := by rw [left_eq]

/-- Indexes that are removed leave the others. -/
theorem Indexed.left {node : UnionTreeNode} (h : Indexed docs node) (memory : Ensured) :
    Indexed docs (memory.left node) := by
  rw [left_eq]
  refine ⟨h.ranges, fun root hroot => ?_, fun index hindex => ?_⟩
  · dsimp only at hroot
    split_ifs at hroot
    exact h.trie root hroot
  · dsimp only at hindex
    split_ifs at hindex
    exact h.numbers index hindex

theorem expand_eq : ∀ l : List ℕ, expand l = elements l
  | [] => rfl
  | [_] => rfl
  | lo :: hi :: rest => by rw [expand, elements, expand_eq rest]

theorem isSome_string {k : ℕ} :
    ((strings docs path).string k).isSome ↔ HasType (pathAt docs path) .string k := by
  unfold strings HasType
  dsimp only
  cases pathAt docs path k with
  | none => simp
  | some v =>
    cases v with
    | bool b => cases b <;> simp [rangeType]
    | _ => simp [rangeType]

theorem Indexed.lists {node : UnionTreeNode} (h : Indexed docs node) (k : ℕ) :
    k ∈ expand (node.documents .string) ↔ ((strings docs node.jsonPath).string k).isSome := by
  rw [expand_eq, (h.ranges .string).2 k, isSome_string]

/-- **The condition on a search of the trie**: the one that is there is not removed before, a new one can
be filled, and the comparison meets its condition in it. -/
structure TrieMeets (docs : List (RJValue F)) (node : UnionTreeNode) (memory : Ensured)
    (cmpType : CmpType) (strValue : Str) : Prop where
  kept : node.adaptiveTrie ≠ none → .AdaptiveTrieData ∉ memory.removed
  fits : node.adaptiveTrie = none →
    TrieRuns.Fits (strings docs node.jsonPath) (.full (node.documents .string))
  search : ∀ root, trieFor docs memory node = some root →
    StringMeets (strings docs node.jsonPath) root cmpType strValue

/-- **The trie of a later visit** is one of the strings, if the one that is there is kept and a new one
can be filled. -/
theorem trieFor_spec {node : UnionTreeNode} (h : Indexed docs node) {memory : Ensured}
    (hkept : node.adaptiveTrie ≠ none → .AdaptiveTrieData ∉ memory.removed)
    (hfits : node.adaptiveTrie = none →
      TrieRuns.Fits (strings docs node.jsonPath) (.full (node.documents .string))) :
    ∃ root, trieFor docs memory node = some root ∧ TrieOf (strings docs node.jsonPath) root := by
  unfold trieFor
  cases htrie : node.adaptiveTrie with
  | some root =>
    refine ⟨root, ?_, h.trie root htrie⟩
    rw [left_eq]
    dsimp only
    rw [if_neg (hkept (by rw [htrie]; simp)), htrie]
  | none =>
    obtain ⟨root, hroot, hforks⟩ := @fill_forks (strings docs node.jsonPath)
      (.full (node.documents .string)) h.lists
      (hfits htrie)
    refine ⟨root, hroot, hforks, fun k hk => ?_⟩
    obtain ⟨v, hv, hempty⟩ := Option.map_eq_some_iff.mp hk
    exact (hfits htrie).nonempty k v hv hempty

section Strings

variable [Double F]

theorem any_asks_string {propertyPath strValue : Str} {cmpType : CmpType} {k : ℕ} :
    (pathAt docs path k).any (asks ⟨propertyPath, .STRING strValue, cmpType, .NONE⟩) =
      (values (strings docs path) k).any (matchesString cmpType strValue) := by
  unfold values strings
  dsimp only
  cases pathAt docs path k with
  | none => rfl
  | some v => cases v <;> rfl

/-- **The answers from the trie.** -/
theorem getStrings_spec {node : UnionTreeNode} (h : Indexed docs node) {memory : Ensured}
    {propertyPath strValue : Str} {cmpType : CmpType}
    (hmeets : memory.enough = true → TrieMeets docs node memory cmpType strValue) :
    ∃ answer node', getStrings docs cmpType strValue memory node = some (answer, node') ∧
      Indexed docs node' ∧ node'.jsonPath = node.jsonPath ∧ ∀ result, answer = some result →
        Wanted docs node.jsonPath ⟨propertyPath, .STRING strValue, cmpType, .NONE⟩ result := by
  unfold getStrings
  cases henough : memory.enough with
  | false => exact ⟨none, _, rfl, h.left memory, left_jsonPath memory node, fun _ hr => by cases hr⟩
  | true =>
    rw [if_pos rfl]
    obtain ⟨root, hroot, htrie⟩ := trieFor_spec h (hmeets henough).kept (hmeets henough).fits
    obtain ⟨result, root', hfind, hforks, hmem⟩ := findString_any htrie.forks h.lists htrie.nonempty
      ((hmeets henough).search root hroot)
    refine ⟨some result, { memory.left node with adaptiveTrie := some root' }, ?_,
      ⟨(h.left memory).ranges, fun root hr => ?_, (h.left memory).numbers⟩, left_jsonPath memory node, ?_⟩
    · rw [hroot, Option.bind_some, hfind]
      rfl
    · obtain rfl := Option.some.inj hr
      dsimp only
      rw [left_jsonPath]
      exact ⟨hforks, htrie.nonempty⟩
    · rintro _ ⟨rfl⟩
      by_cases hne : cmpType = .NOT_EQUALS
      · subst hne
        intro k
        rw [hmem, if_pos rfl, wants, if_pos ⟨rfl, .inl rfl⟩]
        show _ ∧ _ ↔ _ ∧ (!(pathAt docs node.jsonPath k).any
          (asks ⟨propertyPath, .STRING strValue, .EQUALS, .NONE⟩)) = true
        rw [any_asks_string, Bool.not_eq_true', Bool.not_eq_true]
        rfl
      · refine wanted_any (fun h => hne h.1) fun k => ?_
        rw [hmem, if_neg hne, any_asks_string]

end Strings

/-! ### The numbers -/

theorem searched_sound {values : Option (List ℤ)} {index : NumberIndex} (h : Sound docs path values index)
    (histogram : Option AdaptiveHistogram) :
    Sound docs path none { index with histogram := histogram } where
  jsonPath := h.jsonPath
  fits := h.fits
  extremes := h.extremes
  recorded _ hvalues := by cases hvalues
  range := h.range
  split := h.split
  splitWithValues _ hvalues := by cases hvalues

theorem mem_entriesAt {documents : List ℕ} {e : ℤ × ℕ} (hvalid : Valid documents)
    (hmem : ∀ k, k ∈ elements documents ↔ HasType (pathAt docs path) .number k) :
    e ∈ entriesAt (intAt docs path) (pairs documents) ↔
      ∃ n, pathAt docs path e.2 = some (.number n) ∧ n.getInt = e.1 := by
  unfold entriesAt
  rw [documents_pairs hvalid, List.mem_map]
  constructor
  · rintro ⟨k, hk, rfl⟩
    obtain ⟨n, hn⟩ := hasType_number.mp ((hmem k).mp hk)
    exact ⟨n, hn, by rw [intAt, hn]⟩
  · rintro ⟨n, hn, hvalue⟩
    refine ⟨e.2, (hmem e.2).mpr (hasType_number.mpr ⟨n, hn⟩), ?_⟩
    rw [intAt, hn]
    exact Prod.ext hvalue rfl

/-- The numbers at the path have 64 bits. -/
theorem NumbersOf.supported {documents : List ℕ} {index : NumberIndex}
    (h : NumbersOf docs path documents index)
    (hmem : ∀ k, k ∈ elements documents ↔ HasType (pathAt docs path) .number k) {k : ℕ} {n : Number F}
    (hn : pathAt docs path k = some (.number n)) : n.isInt64 = true := by
  have hk := (hmem k).mpr (hasType_number.mpr ⟨n, hn⟩)
  obtain ⟨m, hm, hint⟩ := (h.sound (List.ne_nil_of_mem hk)).fits k (by rw [h.relevant]; exact hk)
  obtain rfl := RJValue.number.inj (Option.some.inj (hn.symm.trans hm))
  exact hint

theorem int64_entriesAt {documents : List ℕ} (hvalid : Valid documents)
    (hmem : ∀ k, k ∈ elements documents ↔ HasType (pathAt docs path) .number k)
    (hsupported : ∀ k n, pathAt docs path k = some (.number n) → n.isInt64 = true) :
    Int64 (entriesAt (intAt docs path) (pairs documents)) := by
  rintro ⟨z, k⟩ he
  obtain ⟨n, hn, rfl⟩ := (mem_entriesAt hvalid hmem).mp he
  have hint := hsupported k n hn
  cases n with
  | int z => exact of_decide_eq_true hint
  | double d => cases hint

/-- **A histogram can be built**, and it is that of the numbers. -/
theorem NumbersOf.split {documents : List ℕ} {index : NumberIndex}
    (h : NumbersOf docs path documents index) (hvalid : Valid documents)
    (hmem : ∀ k, k ∈ elements documents ↔ HasType (pathAt docs path) .number k) :
    ∃ histogram, initialSplit (intAt docs index.jsonPath) 100 (pairs index.relevantDocuments)
      index.minValue index.maxValue = some histogram ∧
      Histogram.Inv 100 (entriesAt (intAt docs path) (pairs documents)) histogram := by
  have hint := int64_entriesAt hvalid hmem fun _ _ => h.supported hmem
  obtain rfl := h.relevant
  by_cases hnil : elements index.relevantDocuments = []
  · obtain ⟨hmin, hmax⟩ := h.initial hnil
    unfold initialSplit entriesAt
    rw [documents_pairs hvalid, hnil, hmin, hmax]
    exact inv_build_nil (by norm_num) (by norm_num) (by decide +kernel)
  · have hsound := h.sound hnil
    have hextremes := hsound.extremes hnil
    obtain ⟨histogram, hbuilt⟩ := hsound.split
    rw [hsound.jsonPath] at hbuilt ⊢
    obtain ⟨root, hroot, hordered, hperm⟩ := build_ordered (by norm_num) (by norm_num)
      (List.ne_nil_of_mem hextremes.least.choose_spec.1) hint hextremes.bounds
      ((build_iff hint hextremes).mp ⟨hsound.range hnil, histogram, hbuilt⟩)
    exact ⟨_, hroot, rfl, threshold_nonneg _ _, hordered, hperm⟩

/-- **The histogram of a later visit** is that of the numbers. -/
theorem histogramFor_spec {documents : List ℕ} {index : NumberIndex} (hvalid : Valid documents)
    (hmem : ∀ k, k ∈ elements documents ↔ HasType (pathAt docs path) .number k)
    (h : NumbersOf docs path documents index) (splitted : Bool) :
    ∃ histogram splitted', histogramFor docs splitted index = some (histogram, splitted') ∧
      Histogram.Inv 100 (entriesAt (intAt docs path) (pairs documents)) histogram := by
  unfold histogramFor
  cases hhistogram : index.histogram with
  | some histogram => exact ⟨histogram, splitted, rfl, h.histogram histogram hhistogram⟩
  | none =>
    obtain ⟨histogram, hbuilt, hinv⟩ := h.split hvalid hmem
    exact ⟨histogram, splitted || divided histogram.root, by rw [hbuilt]; rfl, hinv⟩

/-- **The condition on a search of the histogram**: the number index is not removed before, and the call
meets its condition in the histogram. -/
structure NumbersMeet (docs : List (RJValue F)) (node : UnionTreeNode) (memory : Ensured)
    (splitted : Bool) (cmpType : CmpType) (intVal : ℤ) : Prop where
  kept : node.numberIndex ≠ none → .NumberIndexData ∉ memory.removed
  search : ∀ index histogram splitted', node.numberIndex = some index →
    histogramFor docs splitted index = some (histogram, splitted') →
    Histogram.Meets histogram ⟨intVal, cmpType, splitted'⟩

section Numbers

variable [Double F]

/-- What is answered for integers of 64 bits. -/
theorem mem_answer {size : ℕ} {entries : List (ℤ × ℕ)} {call : Histogram.Call} (hint : Int64 entries)
    (hequal : call.comparisonType ≠ .NOT_EQUALS) {k : ℕ} : k ∈ answer size entries call ↔
      ∃ z, (z, k) ∈ entries ∧
        matchesNumber call.comparisonType call.value (.int z : Number F) = true := by
  have hmatches : ∀ z, (z, k) ∈ entries → Number.isInt64 (.int z : Number F) = true :=
    fun z hz => decide_eq_true (hint _ hz)
  have hfilter : ∀ p : ℤ × ℕ → Bool, k ∈ docsOf (entries.filter p) ↔ ∃ z, (z, k) ∈ entries ∧
      (Number.isInt64 (.int z : Number F) && p (z, k)) = true := fun p => by
    rw [mem_docsOf]
    refine exists_congr fun z => ?_
    rw [List.mem_filter]
    exact and_congr_right fun hz => by rw [hmatches z hz, Bool.true_and]
  unfold answer matchesNumber
  cases hcmp : call.comparisonType with
  | NOT_EQUALS => exact absurd hcmp hequal
  | STARTS_WITH => simp
  | EQUALS | LT | LTE | GT | GTE => exact hfilter _

theorem any_asks_int {propertyPath : Str} {intVal : ℤ} {cmpType : CmpType} {k : ℕ} :
    (pathAt docs path k).any (asks ⟨propertyPath, .INT intVal, cmpType, .NONE⟩) = true ↔
      ∃ n, pathAt docs path k = some (.number n) ∧ matchesNumber cmpType intVal n = true := by
  rw [Option.any_eq_true]
  constructor
  · rintro ⟨v, hv, hasks⟩
    cases v with
    | number n => exact ⟨n, hv, hasks⟩
    | null | bool | string | array | object => cases hasks
  · rintro ⟨n, hn, hmatches⟩
    exact ⟨.number n, hn, hmatches⟩

/-- **The answer for the numbers of a node**, which have 64 bits. -/
theorem wanted_int {node : UnionTreeNode} (h : Exact docs node.jsonPath node.documents)
    (hsupported : ∀ k n, pathAt docs node.jsonPath k = some (.number n) → n.isInt64 = true)
    {propertyPath : Str} {intVal : ℤ} {cmpType : CmpType} {splitted : Bool} :
    Wanted docs node.jsonPath ⟨propertyPath, .INT intVal, cmpType, .NONE⟩
      (answer docs.length (entriesAt (intAt docs node.jsonPath) (pairs (node.documents .number)))
        ⟨intVal, cmpType, splitted⟩) := by
  have hint := int64_entriesAt (h .number).1 (h .number).2 hsupported
  have hany : ∀ cmpType, cmpType ≠ .NOT_EQUALS → ∀ k,
      k ∈ answer docs.length (entriesAt (intAt docs node.jsonPath) (pairs (node.documents .number)))
        ⟨intVal, cmpType, splitted⟩ ↔
      (pathAt docs node.jsonPath k).any (asks ⟨propertyPath, .INT intVal, cmpType, .NONE⟩) = true := by
    intro cmpType hne k
    rw [mem_answer (F := F) hint hne, any_asks_int]
    constructor
    · rintro ⟨z, hz, hmatches⟩
      obtain ⟨n, hn, rfl⟩ := (mem_entriesAt (h .number).1 (h .number).2).mp hz
      have hint := hsupported k n hn
      cases n with
      | int z => exact ⟨_, hn, hmatches⟩
      | double d => cases hint
    · rintro ⟨n, hn, hmatches⟩
      have hint := hsupported k n hn
      cases n with
      | int z => exact ⟨z, (mem_entriesAt (h .number).1 (h .number).2).mpr ⟨_, hn, rfl⟩, hmatches⟩
      | double d => cases hint
  by_cases hne : cmpType = .NOT_EQUALS
  · subst hne
    exact wanted_flip (.inr rfl) (.inl rfl) (hany .EQUALS (by decide))
  · exact wanted_any (fun hquery => hne hquery.1) (hany cmpType hne)

/-- **The answers from the histogram.** -/
theorem getNumbers_spec {node : UnionTreeNode} (h : Indexed docs node) {memory : Ensured}
    {splitted : Bool} {propertyPath : Str} {intVal : ℤ} {cmpType : CmpType}
    (hmeets : memory.enough = true → NumbersMeet docs node memory splitted cmpType intVal) :
    ∃ answer node', Returns (getNumbers docs cmpType intVal memory splitted node) (answer, node') ∧
      Indexed docs node' ∧ node'.jsonPath = node.jsonPath ∧ ∀ result, answer = some result →
        Wanted docs node.jsonPath ⟨propertyPath, .INT intVal, cmpType, .NONE⟩ result := by
  cases hindex : node.numberIndex with
  | none =>
    refine ⟨none, node, ⟨0, fun n _ => ?_⟩, h, rfl, fun _ hr => by cases hr⟩
    rw [getNumbers, hindex]
    rfl
  | some index =>
    have hsome : ¬ node.numberIndex.isNone = true := by rw [hindex]; exact Bool.false_ne_true
    cases henough : memory.enough with
    | false =>
      refine ⟨none, memory.left node, ⟨0, fun n _ => ?_⟩, h.left memory, left_jsonPath memory node,
        fun _ hr => by cases hr⟩
      rw [getNumbers, if_neg hsome, henough]
      rfl
    | true =>
      have hnumbers := h.numbers index hindex
      obtain ⟨hvalid, hmem⟩ := h.ranges .number
      obtain ⟨histogram, splitted', hfor, hinv⟩ := histogramFor_spec hvalid hmem hnumbers splitted
      obtain ⟨histogram', hreturns, hinv'⟩ := @find_right docs.length _ _ _ _ (by norm_num)
        (by norm_num) hinv ((hmeets henough).search index histogram splitted' hindex hfor)
      have hleft : (memory.left node).numberIndex = some index := by
        rw [left_eq]
        dsimp only
        rw [if_neg ((hmeets henough).kept (by rw [hindex]; exact Option.some_ne_none _)), hindex]
      have hwanted : Wanted docs node.jsonPath ⟨propertyPath, .INT intVal, cmpType, .NONE⟩
          (answer docs.length (entriesAt (intAt docs node.jsonPath) (pairs (node.documents .number)))
            ⟨intVal, cmpType, splitted'⟩) :=
        wanted_int h.ranges fun _ _ => hnumbers.supported hmem
      generalize answer docs.length _ _ = result at hreturns hwanted
      refine ⟨some result, { memory.left node with
        numberIndex := some { index with histogram := some histogram' } }, ?_,
        ⟨(h.left memory).ranges, (h.left memory).trie, fun index' hindex' => ?_⟩,
        left_jsonPath memory node, ?_⟩
      · obtain ⟨N, hN⟩ := hreturns
        refine ⟨N, fun n hn => ?_⟩
        rw [getNumbers, if_neg hsome, henough, if_pos rfl, hleft, Option.bind_some, hfor,
          Option.bind_some]
        dsimp only
        rw [hN n hn]
        rfl
      · obtain rfl := Option.some.inj hindex'
        dsimp only
        rw [left_jsonPath, left_documents]
        refine ⟨hnumbers.relevant, fun hnil => searched_sound (hnumbers.sound hnil) _,
          hnumbers.initial, fun h hh => ?_⟩
        obtain rfl := Option.some.inj hh
        exact hinv'
      · rintro _ ⟨rfl⟩
        exact hwanted

end Numbers

/-! ### One visit -/

section Visit

variable [Double F]

/-- A visit: the query, what `ensureMemory` does on the way, and what the context says about divided
buckets. -/
structure Visit where
  query : AdaptiveIndexQuery
  memory : Ensured
  splitted : Bool

def Visit.run (docs : List (RJValue F)) (visit : Visit) (node : UnionTreeNode) (fuel : ℕ) :
    Option (Option (Finset ℕ) × UnionTreeNode) :=
  getDocumentsSecond docs visit.query visit.memory visit.splitted node fuel

/-- **The condition on a visit**, where there is memory. -/
structure Meets (docs : List (RJValue F)) (node : UnionTreeNode) (visit : Visit) : Prop where
  trie : ∀ strValue, visit.query.functionType = .NONE → visit.query.content = .STRING strValue →
    visit.memory.enough = true → TrieMeets docs node visit.memory visit.query.cmpType strValue
  numbers : ∀ intVal, visit.query.content = .INT intVal → visit.memory.enough = true →
    NumbersMeet docs node visit.memory visit.splitted visit.query.cmpType intVal

/-- **A later visit** returns, keeps the invariant, and its answer has the documents the index wants. -/
theorem visit_spec {node : UnionTreeNode} {visit : Visit} (hcreated : Created visit.query)
    (h : Indexed docs node) (hmeets : Meets docs node visit) :
    ∃ answer node', Returns (visit.run docs node) (answer, node') ∧ Indexed docs node' ∧
      node'.jsonPath = node.jsonPath ∧ ∀ result, answer = some result →
        Wanted docs node.jsonPath visit.query result := by
  obtain ⟨query, memory, splitted⟩ := visit
  have hnow : ∀ {result : Finset ℕ}, (∀ fuel,
      Visit.run docs ⟨query, memory, splitted⟩ node fuel = some (some result, node)) →
      Wanted docs node.jsonPath query result →
      ∃ answer node', Returns (Visit.run docs ⟨query, memory, splitted⟩ node) (answer, node') ∧
        Indexed docs node' ∧ node'.jsonPath = node.jsonPath ∧ ∀ result, answer = some result →
          Wanted docs node.jsonPath query result := by
    intro result hrun hwanted
    refine ⟨some result, node, ⟨0, fun fuel _ => hrun fuel⟩, h, rfl, ?_⟩
    rintro _ ⟨rfl⟩
    exact hwanted
  cases hcreated with
  | @string path strValue cmpType =>
    obtain ⟨answer, node', hget, hspec⟩ := getStrings_spec h (hmeets.trie strValue rfl rfl)
    exact ⟨answer, node', ⟨0, fun fuel _ => hget⟩, hspec⟩
  | @int path intVal cmpType hc _ =>
    exact getNumbers_spec h (hmeets.numbers intVal rfl)
  | bool hc => exact hnow (fun _ => rfl) (wanted_bool h.ranges hc)
  | type hc _ => exact hnow (fun _ => rfl) (wanted_type h.ranges hc)
  | @function path functionType h1 h2 =>
    cases functionType with
    | NONE => exact absurd rfl h1
    | TYPE => exact absurd rfl h2
    | ISNULL =>
      refine hnow (fun _ => rfl) (wanted_function h.ranges fun v => ?_)
      cases v with
      | bool b => cases b <;> rfl
      | null | number | string | array | object => rfl
    | ISBOOL | ISNUMBER | ISSTRING | ISOBJECT | EXISTS =>
      exact hnow (fun _ => rfl) (wanted_function h.ranges fun v => rfl)

end Visit

end Joda.Index.SecondVisit
