import Joda.Text
import Mathlib.Data.Finset.Basic

/-! # The adaptive trie

`AdaptiveTrie` keeps the string values of one attribute. A node is *virtual* until a query needs what
is below it: it only lists the documents whose value ends at it (`exact`) and those whose value goes
on (`start`). `extract` reads the values of the latter and gives each next character a virtual child;
a node whose only child it would be is *compressed*: it takes the character over and goes on reading.
The queries walk down the trie and extract on the way.

A string is read through `GetString`, as a C string: up to its first zero byte. Where the code would
throw (`std::string::at` past the end), the model returns `none`. -/

namespace Joda.Index.Trie

/-- The documents of a container: how many, and the string an attribute of theirs has. -/
structure Documents where
  size : ℕ
  string : ℕ → Option Str

/-- The value of document `k` as the trie reads it. -/
def Documents.getString (docs : Documents) (k : ℕ) : Str := cString ((docs.string k).getD [])

/-- `trieValueCache` and `trieValueCacheIndex` of the data context; every query starts with an empty
cache. -/
structure Cache where
  values : List Str
  index : ℕ → ℕ

def Cache.empty : Cache := ⟨[], fun _ => 0⟩

structure Node where
  isVirtual : Bool
  depth : ℕ
  chars : List UInt8
  exactMatchingDocs : List ℕ
  startMatchingDocs : List ℕ
  children : List Node

namespace Node

/-- `AdaptiveTrieNode(startingChar, depth)` -/
def new (c : UInt8) (depth : ℕ) : Node := ⟨true, depth, [c], [], [], []⟩

def root : Node := ⟨true, 0, [], [], [], []⟩

def startsWith (n : Node) (c : UInt8) : Bool := n.chars.head? == some c

/-- Document `k` joins a child: its value ends here, or goes on. -/
def addDoc (n : Node) (ends : Bool) (k : ℕ) : Node :=
  if ends then { n with exactMatchingDocs := n.exactMatchingDocs ++ [k] }
  else { n with startMatchingDocs := n.startMatchingDocs ++ [k] }

end Node

/-- `getChild`: the first child that starts with `c`, with the children before and after it. -/
def getChild (c : UInt8) : List Node → Option (List Node × Node × List Node)
  | [] => none
  | n :: ns =>
    if n.startsWith c then some ([], n, ns)
    else (getChild c ns).map fun (before, child, after) => (n :: before, child, after)

/-- A value is sorted in among the children by its character at `depth`. -/
def addValue (children : List Node) (value : Str) (depth k : ℕ) : Option (List Node) :=
  (value[depth]?).map fun c =>
    match getChild c children with
    | some (before, child, after) =>
      before ++ child.addDoc (value.length == depth + 1) k :: after
    | none => children ++ [(Node.new c (depth + 1)).addDoc (value.length == depth + 1) k]

def addValues (depth : ℕ) : List (ℕ × Str) → List Node → Option (List Node)
  | [], children => some children
  | (k, value) :: rest, children => (addValue children value depth k).bind (addValues depth rest)

/-! ### Extraction -/

def cached (cache : Cache) (k : ℕ) : Str := cache.values.getD (cache.index k) []

/-- The values of the documents of a node. Where they are more than a fifth of all, they are read
once and then taken from the cache. -/
def readValues (docs : Documents) (start : List ℕ) (cache : Cache) : List (ℕ × Str) × Cache :=
  if start.length ≠ 0 ∧ docs.size / 5 < start.length then
    if cache.values.length = 0 then
      (start.map fun k => (k, docs.getString k),
        ⟨start.map docs.getString, fun k => if k ∈ start then start.idxOf k else 0⟩)
    else (start.map fun k => (k, cached cache k), cache)
  else (start.map fun k => (k, docs.getString k), cache)

/-- The extraction from `depth` on. It ends when the values branch or a value ends. -/
def extractFrom (docs : Documents) : ℕ → ℕ → Node → Cache → Option (Node × Cache)
  | 0, _, _, _ => none
  | fuel + 1, depth, node, cache =>
    (addValues depth (readValues docs node.startMatchingDocs cache).1 node.children).bind
      fun children =>
        match children, node.exactMatchingDocs with
        | [child], [] =>
          extractFrom docs fuel (depth + 1)
            { node with
              chars := node.chars ++ child.chars.take 1
              exactMatchingDocs := child.exactMatchingDocs
              startMatchingDocs := child.startMatchingDocs
              children := [] }
            (readValues docs node.startMatchingDocs cache).2
        | _, _ =>
          some ({ node with isVirtual := false, children := children },
            (readValues docs node.startMatchingDocs cache).2)

/-- More than the characters of any of the values. -/
def enough (docs : Documents) (ks : List ℕ) : ℕ := (ks.map fun k => (docs.getString k).length).sum + 1

/-- `extract` of a node below the root. -/
def extract (docs : Documents) (node : Node) (cache : Cache) : Option (Node × Cache) :=
  if node.startMatchingDocs.length = 0 then some ({ node with isVirtual := false }, cache)
  else extractFrom docs (enough docs node.startMatchingDocs) node.depth node cache

/-- A node that is looked into is extracted, and its list of longer values dropped. -/
def visit (docs : Documents) (node : Node) (cache : Cache) : Option (Node × Cache) :=
  if node.isVirtual then
    (extract docs node cache).map fun (n, cache) => ({ n with startMatchingDocs := [] }, cache)
  else some (node, cache)

/-! ### Filling -/

/-- The documents of a list of ranges, given by their first and last element. -/
def expand : List ℕ → List ℕ
  | lo :: hi :: rest => List.range' lo (hi + 1 - lo) ++ expand rest
  | _ => []

/-- `initialize(fullInit = true)`: the extraction of the root. -/
def initializeFull (docs : Documents) (ranges : List ℕ) : Option Node :=
  if ranges.length = 0 then some { Node.root with isVirtual := false }
  else
    (addValues 0 ((expand ranges).map fun k => (k, docs.getString k)) []).bind fun children =>
      match children with
      | [child] =>
        (extractFrom docs (enough docs (expand ranges)) 1
          { Node.root with
            chars := child.chars.take 1
            exactMatchingDocs := child.exactMatchingDocs
            startMatchingDocs := child.startMatchingDocs } .empty).map
          fun (n, _) => { n with startMatchingDocs := [] }
      | _ => some { Node.root with isVirtual := false, children := children }

/-- `initializeByStep` -/
def initializeByStep (root : Node) (value : Str) (k : ℕ) : Option Node :=
  (addValue root.children value 0 k).map fun children => { root with children := children }

/-- `initialize(fullInit = false)`, then one step for each document. -/
def initializeSteps (docs : Documents) (ks : List ℕ) : Option Node :=
  ks.foldlM (fun root k => initializeByStep root (docs.getString k) k)
    { Node.root with isVirtual := false }

/-! ### The queries -/

mutual

/-- The documents below a node, itself included. -/
def collectDocuments : Node → List ℕ
  | ⟨_, _, _, exact, start, children⟩ =>
    exact ++ if start.length = 0 then collectAll children else start

def collectAll : List Node → List ℕ
  | [] => []
  | n :: ns => collectDocuments n ++ collectAll ns

end

/-- `cmpVal[i]`; the character behind the last one is the zero byte. -/
def charAt (cmpVal : Str) (i : ℕ) : UInt8 := cmpVal.getD i 0

/-- The further characters of a compressed node against `cmpVal` from `depthIndex` on: whether all
agree, and where the comparison ended. -/
def matchChars (cmpVal : Str) : List UInt8 → ℕ → Bool × ℕ
  | [], depthIndex => (true, depthIndex)
  | c :: cs, depthIndex =>
    if c ≠ charAt cmpVal depthIndex then (false, depthIndex) else matchChars cmpVal cs (depthIndex + 1)

/-- **The search for a node**: what is found, and the trie below the starting node afterwards. -/
def findMatchingNode (docs : Documents) (cmpVal : Str) (startsWithSearch : Bool) :
    ℕ → ℕ → Node → Cache → Option (Option Node × Node × Cache)
  | 0, _, node, cache => some (some node, node, cache)
  | fuel + 1, depthIndex, node, cache =>
    if depthIndex < cmpVal.length then
      (visit docs node cache).bind fun (node, cache) =>
        match matchChars cmpVal node.chars.tail depthIndex with
        | (false, depthIndex) =>
          if cmpVal.length ≤ depthIndex ∧ startsWithSearch then some (some node, node, cache)
          else some (none, node, cache)
        | (true, depthIndex) =>
          if cmpVal.length ≤ depthIndex then some (some node, node, cache)
          else
            match getChild (charAt cmpVal depthIndex) node.children with
            | none => some (none, node, cache)
            | some (before, child, after) =>
              (findMatchingNode docs cmpVal startsWithSearch fuel (depthIndex + 1) child cache).map
                fun (found, child, cache) =>
                  (found, { node with children := before ++ child :: after }, cache)
    else some (some node, node, cache)

inductive ComparisonType where
  | lt | lte | gt | gte
  deriving DecidableEq, Repr

namespace ComparisonType

def isLess (t : ComparisonType) : Bool := t == lt || t == lte
def isGreater (t : ComparisonType) : Bool := t == gt || t == gte
def orEqual (t : ComparisonType) : Bool := t == lte || t == gte

end ComparisonType

/-- Characters are compared as signed ones. -/
def charLess (a b : UInt8) : Bool := a.toInt8 < b.toInt8

/-- The further characters of a compressed node in `findLex`: `some b` if the answer is known, with
all documents of the node if `b`. -/
def lexChars (cmpVal : Str) (cmpType : ComparisonType) : List UInt8 → ℕ → Option Bool × ℕ
  | [], depthIndex => (none, depthIndex)
  | c :: cs, depthIndex =>
    if cmpVal.length - 1 < depthIndex ∧ cmpType.isGreater then (some true, depthIndex)
    else if c ≠ charAt cmpVal depthIndex then
      (some (cmpType.isLess && charLess c (charAt cmpVal depthIndex) ||
        cmpType.isGreater && charLess (charAt cmpVal depthIndex) c), depthIndex)
    else lexChars cmpVal cmpType cs (depthIndex + 1)

/-- The documents a node on the path of `cmpVal` adds to a lexicographic query: those whose value
ends at it and those below its other children. -/
def lexHere (cmpVal : Str) (cmpType : ComparisonType) (depthIndex : ℕ) (node : Node) : List ℕ :=
  (if cmpType.orEqual && cmpVal.length - 1 == depthIndex then node.exactMatchingDocs
    else if cmpType.isLess && decide (depthIndex < cmpVal.length - 1) then node.exactMatchingDocs
    else []) ++
  collectAll (node.children.filter fun child =>
    let c := child.chars.headD 0
    c != charAt cmpVal depthIndex &&
      (cmpType.isLess && charLess c (charAt cmpVal depthIndex) ||
        cmpType.isGreater && charLess (charAt cmpVal depthIndex) c))

/-- The loop of `findLex`: the documents found, and the trie afterwards. -/
def findLexFrom (docs : Documents) (cmpVal : Str) (cmpType : ComparisonType) :
    ℕ → ℕ → Node → Cache → Option (List ℕ × Node × Cache)
  | 0, _, node, cache => some ([], node, cache)
  | fuel + 1, depthIndex, node, cache =>
    if depthIndex < cmpVal.length then
      (visit docs node cache).bind fun (node, cache) =>
        match lexChars cmpVal cmpType node.chars.tail depthIndex with
        | (some all, _) => some (if all then collectDocuments node else [], node, cache)
        | (none, d) =>
          -- after the characters of a compressed node the source steps back by one
          let depthIndex := if 1 < node.chars.length then d - 1 else d
          let here := lexHere cmpVal cmpType depthIndex node
          if cmpVal.length ≤ depthIndex then some (here, node, cache)
          else
            match getChild (charAt cmpVal depthIndex) node.children with
            | none => some (here, node, cache)
            | some (before, child, after) =>
              (findLexFrom docs cmpVal cmpType fuel (depthIndex + 1) child cache).map
                fun (found, child, cache) =>
                  (here ++ found, { node with children := before ++ child :: after }, cache)
    else some ([], node, cache)

/-- A query of the trie. -/
inductive Call where
  | findEq (cmpVal : Str)
  | findNotEq (cmpVal : Str)
  | findStartsWith (cmpVal : Str)
  | findLex (cmpVal : Str) (cmpType : ComparisonType)

def findEq (docs : Documents) (root : Node) (cmpVal : Str) : Option (Finset ℕ × Node) :=
  (findMatchingNode docs cmpVal false cmpVal.length 0 root .empty).map fun (found, root, _) =>
    (match found with
      | none => ∅
      | some node => node.exactMatchingDocs.toFinset, root)

def findNotEq (docs : Documents) (root : Node) (cmpVal : Str) : Option (Finset ℕ × Node) :=
  (findEq docs root cmpVal).map fun (result, root) => (Finset.range docs.size \ result, root)

def findStartsWith (docs : Documents) (root : Node) (cmpVal : Str) : Option (Finset ℕ × Node) :=
  (findMatchingNode docs cmpVal true cmpVal.length 0 root .empty).map fun (found, root, _) =>
    (match found with
      | none => ∅
      | some node =>
        if node.isVirtual ∧ node.startMatchingDocs.length = 0 then ∅
        else (collectDocuments node).toFinset, root)

def findLex (docs : Documents) (root : Node) (cmpVal : Str) (cmpType : ComparisonType) :
    Option (Finset ℕ × Node) :=
  (findLexFrom docs cmpVal cmpType cmpVal.length 0 root .empty).map fun (result, root, _) =>
    (result.toFinset, root)

/-- **A query**: its answer and the trie it leaves behind. -/
def Call.run (docs : Documents) (root : Node) : Call → Option (Finset ℕ × Node)
  | findEq s => Trie.findEq docs root s
  | findNotEq s => Trie.findNotEq docs root s
  | findStartsWith s => Trie.findStartsWith docs root s
  | findLex s t => Trie.findLex docs root s t

end Joda.Index.Trie
