import Joda.Index.Histogram
import Joda.Index.Trie
import Joda.Lib.Ranges
import Joda.Values.PointerSet

/-! # The first visit of a path

`UnionTreeNode::getDocumentsFirst` looks at the documents of the nearest node above the path whose
object ranges are known. If that is the parent, it looks at the value at the path. Otherwise it looks at
the parent's value first, fills the parent's node on the way, and goes on with the member if that value
is an object; if it is not, the same value is taken for the one at the path. The document helper keeps
the ranges of each type, and the extremes of the numbers. -/

namespace Joda.Index.FirstVisit

open Joda.Values.Value Joda.Values.Pointer Joda.Values.PointerSet
open Joda.Index.Query Joda.Index.Trie Joda.Index.Histogram Joda.Lib.Ranges

variable {F : Type} [Double F]

/-- The types that have ranges. -/
inductive RangeType where
  | string | number | object | true | false | null
  deriving DecidableEq, Repr

/-- An array has none. -/
def rangeType : RJValue F → Option RangeType
  | .null => some .null
  | .bool b => some (if b then .true else .false)
  | .number _ => some .number
  | .string _ => some .string
  | .array _ => none
  | .object .. => some .object

/-! ### `UnionTreeNodeDocumentHelper` -/

/-- `isWithinValid…Range` and `…Documents` of each type -/
structure TypeRanges where
  isWithinValid : RangeType → Bool
  documents : RangeType → List ℕ

namespace TypeRanges

def empty : TypeRanges := ⟨fun _ => false, fun _ => []⟩

/-- `resetRange`: the first type that has an open range, in this order. -/
def resetRange (last : ℕ) (r : TypeRanges) : TypeRanges :=
  match [.string, .number, .object, .true, .false, .null].find? r.isWithinValid with
  | some t =>
    ⟨Function.update r.isWithinValid t false, Function.update r.documents t (r.documents t ++ [last])⟩
  | none => r

/-- What the six checks have in common. -/
def check (t : RangeType) (k : ℕ) (r : TypeRanges) : TypeRanges :=
  let r := { r with documents := Function.update r.documents t (r.documents t ++ [k]) }
  let r := r.resetRange (k - 1)
  { r with isWithinValid := Function.update r.isWithinValid t true }

def checkString := check .string
def checkNumber := check .number
def checkObject := check .object
def checkTrue := check .true
def checkFalse := check .false
def checkNull := check .null

/-- A document whose value has the type: `if (!isWithinValidStringRange) checkString(k)`, and so on. -/
def enter (t : RangeType) (k : ℕ) (r : TypeRanges) : TypeRanges :=
  if r.isWithinValid t then r
  else
    match t with
    | .string => r.checkString k
    | .number => r.checkNumber k
    | .object => r.checkObject k
    | .true => r.checkTrue k
    | .false => r.checkFalse k
    | .null => r.checkNull k

/-- What a value does to the ranges; with none, the open range ends before. -/
def record (val : Option (RJValue F)) (k : ℕ) (r : TypeRanges) : TypeRanges :=
  match val with
  | none => r.resetRange (k - 1)
  | some v =>
    match rangeType v with
    | some t => r.enter t k
    | none => r

end TypeRanges

/-- What is known of the numbers. -/
structure NumberStats where
  unsupportedDouble : Bool
  numberValues : Option (List ℤ)
  intMax : ℤ
  intMin : ℤ

namespace NumberStats

def empty (numberValues : Option (List ℤ)) : NumberStats := ⟨false, numberValues, -2 ^ 63, 2 ^ 63 - 1⟩

/-- A new minimum is not compared with the maximum. -/
def track (intVal : ℤ) (s : NumberStats) : NumberStats :=
  if intVal < s.intMin then { s with intMin := intVal }
  else if s.intMax < intVal then { s with intMax := intVal }
  else s

/-- A number at the path. -/
def addNumber (n : Number F) (s : NumberStats) : NumberStats :=
  if n.isInt64 then
    { s.track n.getInt with numberValues := s.numberValues.map fun values => values ++ [n.getInt] }
  else { s with unsupportedDouble := true }

/-- A number at the parent's path. -/
def addParentNumber (n : Number F) (s : NumberStats) : NumberStats :=
  if n.isInt64 then s.track n.getInt
  else
    match n with
    | .double _ => { s with unsupportedDouble := true }
    | .int _ => s

end NumberStats

structure UnionTreeNodeDocumentHelper where
  ranges : TypeRanges
  numbers : NumberStats
  totalDocs : ℕ

/-- `handleValue`: the parent's value, and whether it is an object. -/
def handleValue (val : Option (RJValue F)) (k : ℕ) (h : UnionTreeNodeDocumentHelper) :
    UnionTreeNodeDocumentHelper × Bool :=
  (⟨h.ranges.record val k,
    match val with
      | some (.number n) => h.numbers.addParentNumber n
      | _ => h.numbers, h.totalDocs + 1⟩,
    match val with
      | some (.object ..) => true
      | _ => false)

/-! ### Nodes -/

/-- The index of the numbers of a node. -/
structure NumberIndex where
  jsonPath : Str
  minValue : ℤ
  maxValue : ℤ
  relevantDocuments : List ℕ
  histogram : Option AdaptiveHistogram

/-- The first and last elements of ranges. -/
def pairs : List ℕ → List (ℕ × ℕ)
  | lo :: hi :: rest => (lo, hi) :: pairs rest
  | _ => []

/-- `CreateHistogramIndexWithValues` -/
def NumberIndex.createHistogramIndexWithValues (values : List ℤ) (index : NumberIndex) :
    Option NumberIndex :=
  match index.histogram with
  | some _ => some index
  | none =>
    (initialSplitWithValues values 100 (pairs index.relevantDocuments) index.minValue
      index.maxValue).map fun histogram => { index with histogram := some histogram }

/-- **`UnionTreeNode`** -/
structure UnionTreeNode where
  jsonPath : Str
  totalDocs : ℕ
  relevantDocumentsCalculated : Bool
  documents : RangeType → List ℕ
  adaptiveTrie : Option Node
  numberIndex : Option NumberIndex

/-- What is after the last slash. -/
def memberName (path : Str) : Str := (path.reverse.takeWhile (· ≠ 47)).reverse

/-- `setRootDocuments` -/
def setRootDocuments (totalDocs : ℕ) (node : UnionTreeNode) : UnionTreeNode :=
  { node with
    documents := fun _ => [0, (((totalDocs : ℤ) - 1) % 2 ^ 64).toNat]
    relevantDocumentsCalculated := true
    totalDocs := totalDocs }

/-! ### The answer of the first visit -/

def matchesString (cmpType : CmpType) (strValue value : Str) : Bool :=
  match cmpType with
  | .EQUALS => value == strValue
  | .NOT_EQUALS => value != strValue
  | .STARTS_WITH => strValue.isPrefixOf value
  | .LT => decide (value < strValue)
  | .LTE => !decide (strValue < value)
  | .GT => decide (strValue < value)
  | .GTE => !decide (value < strValue)

/-- `NOT_EQUALS` is flipped later. -/
def matchesNumber (cmpType : CmpType) (intVal : ℤ) : Number F → Bool
  | .int z =>
    Number.isInt64 (.int z : Number F) &&
      match cmpType with
      | .EQUALS | .NOT_EQUALS => z == intVal
      | .LT => decide (z < intVal)
      | .LTE => decide (z ≤ intVal)
      | .GT => decide (intVal < z)
      | .GTE => decide (intVal ≤ z)
      | .STARTS_WITH => false
  | .double d =>
    match cmpType with
    | .EQUALS | .NOT_EQUALS =>
      Double.lessEq d (Double.ofInt intVal) && Double.lessEq (Double.ofInt intVal) d
    | .LT => Double.less d (Double.ofInt intVal)
    | .LTE => Double.lessEq d (Double.ofInt intVal)
    | .GT => Double.less (Double.ofInt intVal) d
    | .GTE => Double.lessEq (Double.ofInt intVal) d
    | .STARTS_WITH => false

/-- Whether the document is taken at once. -/
def takes (query : AdaptiveIndexQuery) (v : RJValue F) : Bool :=
  match query.content, v with
  | .STRING strValue, .string s => matchesString query.cmpType strValue (cString s)
  | .INT intVal, .number n => matchesNumber query.cmpType intVal n
  | .BOOL boolVal, .bool b => boolVal == b
  | _, .null => query.functionType == .ISNULL
  | _, _ => false

/-- `setResult` -/
def setResult (documents : List ℕ) (result : Finset ℕ) : Finset ℕ :=
  result ∪ (elements documents).toFinset

/-- The types a query of the type asks for. -/
def typesOf (strValue : Str) : List RangeType :=
  if strValue = ascii "STRING" then [.string]
  else if strValue = ascii "NUMBER" then [.number]
  else if strValue = ascii "BOOL" then [.true, .false]
  else if strValue = ascii "NULL" then [.null]
  else if strValue = ascii "OBJECT" then [.object]
  else []

/-- The types a function asks for. -/
def functionTypes (query : AdaptiveIndexQuery) : List RangeType :=
  match query.functionType with
  | .EXISTS => [.string, .object, .true, .false, .number, .null]
  | .TYPE =>
    match query.content with
    | .STRING strValue => typesOf strValue
    | _ => []
  | .ISBOOL => [.true, .false]
  | .ISNUMBER => [.number]
  | .ISSTRING => [.string]
  | .ISOBJECT => [.object]
  | .ISNULL | .NONE => []

/-- Whether the answer is flipped at the end. -/
def flips (query : AdaptiveIndexQuery) : Bool :=
  query.cmpType == .NOT_EQUALS &&
    match query.functionType, query.content with
    | .NONE, .BOOL _ => true
    | .NONE, .INT _ => true
    | .TYPE, _ => true
    | _, _ => false

/-! ### The first visit -/

/-- What changes during the visit. -/
structure Pass where
  parent : UnionTreeNodeDocumentHelper
  node : UnionTreeNodeDocumentHelper
  adaptiveTrie : Option Node
  result : Finset ℕ

/-- The string joins the trie that is filled step by step. -/
def feedTrie (query : AdaptiveIndexQuery) (v : RJValue F) (k : ℕ) (trie : Option Node) :
    Option (Option Node) :=
  match query.content, v, trie with
  | .STRING _, .string s, some root => (initializeByStep root (cString s) k).map some
  | _, _, trie => some trie

/-- The value that is taken for the one at the path. -/
def process (query : AdaptiveIndexQuery) (val : Option (RJValue F)) (k : ℕ) (pass : Pass) :
    Option Pass :=
  match val with
  | none => some { pass with node := { pass.node with ranges := pass.node.ranges.record val k } }
  | some v =>
    (feedTrie query v k pass.adaptiveTrie).map fun trie =>
      { pass with
        node := ⟨pass.node.ranges.record val k,
          match v with
            | .number n => pass.node.numbers.addNumber n
            | _ => pass.node.numbers, pass.node.totalDocs + 1⟩
        adaptiveTrie := trie
        result := if takes query v then insert k pass.result else pass.result }

/-- What the visit takes for the value at the path. -/
def seen (direct : Bool) (query : AdaptiveIndexQuery) (parentPath : Str) (doc : RJValue F) :
    Option (RJValue F) :=
  if direct then valueAt query.propertyPath doc
  else
    match valueAt parentPath doc with
    | some (.object ms) => ms.lookup (memberName query.propertyPath)
    | val => val

/-- One document. -/
def visitDocument (direct : Bool) (query : AdaptiveIndexQuery) (parentPath : Str) (doc : RJValue F)
    (k : ℕ) (pass : Pass) : Option Pass :=
  process query (seen direct query parentPath doc) k
    (if direct then pass
      else { pass with parent := (handleValue (valueAt parentPath doc) k pass.parent).1 })

/-- The open ranges end with a range of the parent's objects. -/
def endRange (last : ℕ) (pass : Pass) : Pass :=
  { pass with
    parent := { pass.parent with ranges := pass.parent.ranges.resetRange last }
    node := { pass.node with ranges := pass.node.ranges.resetRange last } }

/-- **The loop** over the ranges; `none` where a document is not there (`at` throws), or where a string
is empty that should join the trie. -/
def visitRanges (docs : List (RJValue F)) (direct : Bool) (query : AdaptiveIndexQuery)
    (parentPath : Str) : List ℕ → Pass → Option Pass
  | lo :: hi :: rest, pass =>
    ((List.range' lo (hi + 1 - lo)).foldlM (fun pass k =>
      (docs[k]?).bind fun doc => visitDocument direct query parentPath doc k pass) pass).bind
      fun pass => visitRanges docs direct query parentPath rest (endRange hi pass)
  | _, pass => some pass

/-- The number index of a node, unless there was a number it does not support. -/
def createNumberIndex (numbers : NumberStats) (documents : List ℕ) (jsonPath : Str)
    (before : Option NumberIndex) : Option NumberIndex :=
  if numbers.unsupportedDouble then before
  else some ⟨jsonPath, numbers.intMin, numbers.intMax, documents, none⟩

/-- The parent's node, filled in the same visit, with the path of the node. -/
def fillParent (jsonPath : Str) (h : UnionTreeNodeDocumentHelper) (parent : UnionTreeNode) :
    UnionTreeNode :=
  { parent with
    documents := h.ranges.documents
    relevantDocumentsCalculated := true
    numberIndex :=
      createNumberIndex h.numbers (h.ranges.documents .number) jsonPath parent.numberIndex }

/-- The visited node; a query for an integer builds the histogram from the values. -/
def fillNode (h : UnionTreeNodeDocumentHelper) (trie : Option Node) (node : UnionTreeNode) :
    Option UnionTreeNode :=
  let index := createNumberIndex h.numbers (h.ranges.documents .number) node.jsonPath node.numberIndex
  (match h.numbers.unsupportedDouble, index, h.numbers.numberValues with
    | false, some index, some values => (index.createHistogramIndexWithValues values).map some
    | _, index, _ => some index).map fun index =>
      { node with
        documents := h.ranges.documents
        relevantDocumentsCalculated := true
        totalDocs := h.totalDocs
        adaptiveTrie := trie
        numberIndex := index }

/-- The visit of the documents, from the object ranges that are known. -/
def firstVisit (docs : List (RJValue F)) (query : AdaptiveIndexQuery)
    (node parentNode parentDocRangeNode : UnionTreeNode) : Option Pass :=
  let trie :=
    match query.content with
    | .STRING _ => some (node.adaptiveTrie.getD { Node.root with isVirtual := false })
    | _ => node.adaptiveTrie
  let numberValues :=
    match query.content with
    | .INT _ => some []
    | _ => none
  visitRanges docs (parentNode.jsonPath == parentDocRangeNode.jsonPath) query parentNode.jsonPath
    (parentDocRangeNode.documents .object)
    ⟨⟨.empty, .empty none, 0⟩, ⟨.empty, .empty numberValues, 0⟩, trie, ∅⟩

/-- **`UnionTreeNode::getDocumentsFirst`** in a container of these documents: the answer, the node and
its parent afterwards. -/
def getDocumentsFirst (docs : List (RJValue F)) (query : AdaptiveIndexQuery)
    (node parentNode parentDocRangeNode : UnionTreeNode) :
    Option (Finset ℕ × UnionTreeNode × UnionTreeNode) :=
  (firstVisit docs query node parentNode parentDocRangeNode).bind fun pass =>
    let parent :=
      if parentNode.jsonPath == parentDocRangeNode.jsonPath then parentNode
      else fillParent node.jsonPath pass.parent parentNode
    (fillNode pass.node pass.adaptiveTrie node).map fun node =>
      let result := (functionTypes query).foldl (fun result t => setResult (node.documents t) result)
        pass.result
      (if flips query then Finset.range docs.length \ result else result, node, parent)

end Joda.Index.FirstVisit
