import Joda.Index.EstimateWork

/-! # The indexes of a first visit

A first visit puts the strings it sees into the trie and builds the histogram from the numbers it sees.
Where what it sees is what is at the path, and the ranges it records are exact, these are the indexes of
the documents of the node (`exactNode_visited`). -/

namespace Joda.Index.EstimateWork

open Joda.Values.Value Joda.Values.PointerSet Joda.Lib.Ranges Joda.Lib.Runs
open Joda.Index.Query Joda.Index.Trie Joda.Index.TrieRuns Joda.Index.Histogram Joda.Index.FirstVisit

variable {F : Type} {docs : List (RJValue F)} {direct : Bool} {query : AdaptiveIndexQuery}
  {parentPath path : Str}

/-! ### The strings -/

/-- What the value at a path does to the trie. -/
def feed (docs : List (RJValue F)) (query : AdaptiveIndexQuery) (path : Str) (trie : Option Node)
    (k : ℕ) : Option (Option Node) :=
  match pathAt docs path k with
  | some v => feedTrie query v k trie
  | none => some trie

/-- A string joins the trie. -/
def step (docs : List (RJValue F)) (path : Str) (root : Node) (k : ℕ) : Option Node :=
  initializeByStep root ((strings docs path).getString k) k

def isString (docs : List (RJValue F)) (path : Str) (k : ℕ) : Bool :=
  ((strings docs path).string k).isSome

theorem feed_other (hquery : ∀ strValue, query.content ≠ .STRING strValue) (trie : Option Node)
    (k : ℕ) : feed docs query path trie k = some trie := by
  unfold feed feedTrie
  cases hcontent : query.content with
  | STRING strValue => exact absurd hcontent (hquery strValue)
  | BOOL | INT | NONE => cases pathAt docs path k <;> rfl

theorem feed_string {strValue : Str} (hquery : query.content = .STRING strValue) (root : Node) (k : ℕ) :
    feed docs query path (some root) k =
      if isString docs path k then (step docs path root k).map some else some (some root) := by
  unfold feed feedTrie isString step Documents.getString strings
  rw [hquery]
  rcases Option.eq_none_or_eq_some (pathAt docs path k) with hval | ⟨v, hval⟩
  · simp only [hval]
    rfl
  · simp only [hval]
    cases v <;> rfl

/-- Other queries leave the trie as it is. -/
theorem foldlM_feed_other (hquery : ∀ strValue, query.content ≠ .STRING strValue) (trie : Option Node) :
    ∀ l : List ℕ, l.foldlM (feed docs query path) trie = some trie
  | [] => rfl
  | k :: l => by
    rw [List.foldlM_cons, feed_other hquery]
    exact foldlM_feed_other hquery trie l

/-- **A string query** puts the strings into the trie. -/
theorem foldlM_feed_string {strValue : Str} (hquery : query.content = .STRING strValue) :
    ∀ (l : List ℕ) (root : Node), l.foldlM (feed docs query path) (some root) =
      ((l.filter (isString docs path)).foldlM (step docs path) root).map some
  | [], root => rfl
  | k :: l, root => by
    rw [List.foldlM_cons, feed_string hquery]
    by_cases hstring : isString docs path k = true
    · rw [if_pos hstring, List.filter_cons_of_pos hstring, List.foldlM_cons]
      cases step docs path root k with
      | none => rfl
      | some root' => exact foldlM_feed_string hquery l root'
    · rw [if_neg hstring, List.filter_cons_of_neg hstring]
      exact foldlM_feed_string hquery l root

/-- The strings among the visited documents are those of the string ranges. -/
theorem filter_isString {documents : RangeType → List ℕ} {R : List ℕ} (hR : Valid R)
    (hexact : Exact docs path documents) (hwithin : ∀ k ∈ elements (documents .string), k ∈ elements R) :
    (elements R).filter (isString docs path) = elements (documents .string) := by
  obtain ⟨hvalid, hmem⟩ := hexact .string
  refine ((elements_sorted hR).filter _).eq_of_mem_iff (elements_sorted hvalid) fun k => ?_
  have hstring : isString docs path k = true ↔ HasType (pathAt docs path) .string k := by
    unfold isString strings HasType
    rcases Option.eq_none_or_eq_some (pathAt docs path k) with hval | ⟨v, hval⟩
    · simp [hval]
    · simp only [hval, Option.bind_some]
      cases v with
      | bool b => cases b <;> simp [rangeType]
      | _ => simp [rangeType]
  rw [List.mem_filter, hstring, ← hmem k]
  exact ⟨fun h => h.2, fun h => ⟨hwithin k h, h⟩⟩

/-! ### The visit -/

section Visit

variable [Double F]

theorem visitDocument_feed {k : ℕ} {doc : RJValue F} {pass pass' : Pass} (hdoc : docs[k]? = some doc)
    (hseen : seenAt docs direct query parentPath k = pathAt docs path k)
    (h : visitDocument direct query parentPath doc k pass = some pass') :
    feed docs query path pass.adaptiveTrie k = some pass'.adaptiveTrie := by
  have hsame : seen direct query parentPath doc = pathAt docs path k := by
    rw [← hseen, seenAt, hdoc]
    rfl
  unfold visitDocument at h
  rw [hsame] at h
  unfold feed
  cases hval : pathAt docs path k with
  | none =>
    rw [hval] at h
    obtain rfl := Option.some.inj h
    cases direct <;> rfl
  | some v =>
    rw [hval] at h
    obtain ⟨trie, htrie, rfl⟩ := Option.map_eq_some_iff.mp h
    rw [← htrie]
    cases direct <;> rfl

theorem foldlM_visit_feed {l : List ℕ} {pass pass' : Pass}
    (hseen : ∀ k ∈ l, seenAt docs direct query parentPath k = pathAt docs path k)
    (h : l.foldlM (fun pass k => (docs[k]?).bind fun doc =>
      visitDocument direct query parentPath doc k pass) pass = some pass') :
    l.foldlM (feed docs query path) pass.adaptiveTrie = some pass'.adaptiveTrie := by
  induction l generalizing pass with
  | nil =>
    obtain rfl := Option.some.inj h
    rfl
  | cons k l ih =>
    obtain ⟨hk, hl⟩ := List.forall_mem_cons.mp hseen
    rw [List.foldlM_cons] at h ⊢
    obtain ⟨pass₁, hstep, hrest⟩ := Option.bind_eq_some_iff.mp h
    obtain ⟨doc, hdoc, hstep⟩ := Option.bind_eq_some_iff.mp hstep
    rw [visitDocument_feed hdoc hk hstep]
    exact ih hl hrest

/-- **All ranges.** -/
theorem visitRanges_feed {R : List ℕ} (hR : Valid R) {pass pass' : Pass}
    (hseen : ∀ k ∈ elements R, seenAt docs direct query parentPath k = pathAt docs path k)
    (h : visitRanges docs direct query parentPath R pass = some pass') :
    (elements R).foldlM (feed docs query path) pass.adaptiveTrie = some pass'.adaptiveTrie := by
  induction hR generalizing pass with
  | nil =>
    obtain rfl := Option.some.inj h
    rfl
  | @cons lo hi rest le lt tail ih =>
    obtain ⟨hrange, hrest⟩ := List.forall_mem_append.mp hseen
    obtain ⟨pass₁, hfirst, hothers⟩ := Option.bind_eq_some_iff.mp h
    have hothers : (elements rest).foldlM (feed docs query path) pass₁.adaptiveTrie =
        some pass'.adaptiveTrie := @ih (endRange hi pass₁) hrest hothers
    rw [elements, List.foldlM_append, foldlM_visit_feed hrange hfirst]
    exact hothers

/-- The trie after the visits of a new node. -/
theorem firstVisit_trie {node parentNode parentDocRangeNode : UnionTreeNode} {pass : Pass} {root : Node}
    (htrie : node.adaptiveTrie = none) (hR : Valid (parentDocRangeNode.documents .object))
    (hseen : ∀ k ∈ elements (parentDocRangeNode.documents .object),
      seenAt docs (parentNode.jsonPath == parentDocRangeNode.jsonPath) query parentNode.jsonPath k =
        pathAt docs path k)
    (hpass : firstVisit docs query node parentNode parentDocRangeNode = some pass)
    (hroot : pass.adaptiveTrie = some root) :
    initializeSteps (strings docs path)
      ((elements (parentDocRangeNode.documents .object)).filter (isString docs path)) = some root := by
  have hfed := visitRanges_feed hR hseen hpass
  rw [hroot, htrie] at hfed
  dsimp only at hfed
  cases hcontent : query.content with
  | STRING strValue =>
    rw [hcontent] at hfed
    dsimp only at hfed
    rw [foldlM_feed_string hcontent] at hfed
    obtain ⟨root', hstart, hsame⟩ := Option.map_eq_some_iff.mp hfed
    obtain rfl := Option.some.inj hsame
    exact hstart
  | BOOL | INT | NONE =>
    rw [hcontent] at hfed
    dsimp only at hfed
    rw [foldlM_feed_other (by rw [hcontent]; exact fun _ heq => by cases heq)] at hfed
    cases hfed

omit [Double F] in
/-- A histogram is built from the values that were seen. -/
theorem fillNode_histogram {h : UnionTreeNodeDocumentHelper} {trie : Option Node}
    {node node' : UnionTreeNode} {index : NumberIndex} {histogram : AdaptiveHistogram}
    (hnew : node.numberIndex = none) (hfill : fillNode h trie node = some node')
    (hindex : node'.numberIndex = some index) (hhistogram : index.histogram = some histogram) :
    ∃ values, initialSplitWithValues values 100 (pairs (node'.documents .number)) index.minValue
      index.maxValue = some histogram := by
  obtain ⟨filled, hbuilt, rfl⟩ := Option.map_eq_some_iff.mp hfill
  obtain rfl : filled = some index := hindex
  unfold createNumberIndex at hbuilt
  rw [hnew] at hbuilt
  cases hunsupported : h.numbers.unsupportedDouble with
  | true =>
    rw [hunsupported] at hbuilt
    cases hbuilt
  | false =>
    rw [hunsupported] at hbuilt
    cases hvalues : h.numbers.numberValues with
    | none =>
      rw [hvalues] at hbuilt
      obtain rfl := Option.some.inj (Option.some.inj hbuilt)
      cases hhistogram
    | some values =>
      rw [hvalues] at hbuilt
      obtain ⟨built, hsplit, hsame⟩ := Option.map_eq_some_iff.mp hbuilt
      obtain rfl := Option.some.inj hsame
      obtain ⟨start, hstart, rfl⟩ := Option.map_eq_some_iff.mp hsplit
      obtain rfl := Option.some.inj hhistogram
      exact ⟨values, hstart⟩

/-- **The first visit** of a new node leaves indexes of the documents, where it sees what is at the path
and records exact ranges. -/
theorem exactNode_visited {node parentNode parentDocRangeNode node' parentNode' : UnionTreeNode}
    {result : Finset ℕ} (hpath : node.jsonPath = query.propertyPath) (htrie : node.adaptiveTrie = none)
    (hindex : node.numberIndex = none) (hR : Valid (parentDocRangeNode.documents .object))
    (hseen : ∀ k ∈ elements (parentDocRangeNode.documents .object),
      seenAt docs (parentNode.jsonPath == parentDocRangeNode.jsonPath) query parentNode.jsonPath k =
        pathAt docs query.propertyPath k)
    (h : getDocumentsFirst docs query node parentNode parentDocRangeNode =
      some (result, node', parentNode'))
    (hexact : Exact docs node'.jsonPath node'.documents) :
    ExactNode docs ⟨node', (elements (node'.documents .string)).length⟩ := by
  obtain ⟨hjson, hdocuments, -⟩ := getDocumentsFirst_spec hR h
  obtain ⟨pass, hpass, hfill⟩ := Option.bind_eq_some_iff.mp h
  obtain ⟨filled, hfilled, hres⟩ := Option.map_eq_some_iff.mp hfill
  obtain ⟨-, hres⟩ := Prod.mk.inj hres
  obtain ⟨rfl, -⟩ := Prod.mk.inj hres
  have hwithin : ∀ k ∈ elements (filled.documents .string),
      k ∈ elements (parentDocRangeNode.documents .object) := fun k hk => by
    rw [hdocuments] at hk
    obtain ⟨p, hp, j, h1, h2, h3, -⟩ := ((recordRanges_empty hR .string).2 k).mp hk
    exact (mem_elements hR).mpr ⟨p, hp, by omega, h3⟩
  refine ⟨hexact, fun root hroot => ?_, fun index histogram hindex' hhistogram => ?_⟩
  · have hpassTrie : pass.adaptiveTrie = some root := by
      obtain ⟨index, -, rfl⟩ := Option.map_eq_some_iff.mp hfilled
      exact hroot
    have hstart := firstVisit_trie htrie hR hseen hpass hpassTrie
    rw [← hpath, ← hjson, filter_isString hR hexact hwithin] at hstart
    exact ⟨.steps _, root, [], hstart, List.Perm.refl _, rfl, .start rfl⟩
  · obtain ⟨values, hsplit⟩ := fillNode_histogram hindex hfilled hindex' hhistogram
    exact ⟨values, histogram, [], hsplit, .start rfl⟩

/-- **The condition after the first visit**, which counts documents: the sizes are no more than these. -/
theorem estimateFits_visited {node parentNode parentDocRangeNode node' parentNode' : UnionTreeNode}
    {result : Finset ℕ} (hR : Valid (parentDocRangeNode.documents .object))
    (h : getDocumentsFirst docs query node parentNode parentDocRangeNode =
      some (result, node', parentNode')) (docCount : ℕ) (later : AdaptiveIndexQuery) :
    EstimateFits docs later ⟨node', docCount⟩ ↔
      (∀ types, wayOf later ⟨node', docCount⟩ = .sizes types →
        total (types.map (IndexedNode.sizeOf ⟨node', docCount⟩)) ≤
          (UInt64.ofNat node'.totalDocs).toNat) ∧
      (wayOf later ⟨node', docCount⟩ = .constant → docs ≠ []) := by
  obtain ⟨-, -, htotal, -⟩ := getDocumentsFirst_spec hR h
  obtain ⟨pass, hpass, -⟩ := Option.bind_eq_some_iff.mp h
  have hle : (UInt64.ofNat node'.totalDocs).toNat ≤ docs.length := by
    refine toNat_ofNat_le ?_
    rw [htotal]
    exact List.countP_le_length.trans (length_elements_le hR (visitRanges_spec hR hpass).1.lt)
  constructor
  · exact fun hfits => ⟨fun types hway => (hfits.sizes types hway).1, hfits.documents⟩
  · rintro ⟨hsizes, hdocuments⟩
    exact ⟨fun types hway => ⟨hsizes types hway, .inl (hle.trans (Nat.le_add_right _ _))⟩, hdocuments⟩

end Visit

/-! ### Two documents -/

/-- Exact ranges, told from the documents that are there. -/
theorem exact_of_lt {docs : List (RJValue F)} {path : Str} {documents : RangeType → List ℕ}
    (hvalid : ∀ t, Valid (documents t)) (hlt : ∀ t, ∀ k ∈ elements (documents t), k < docs.length)
    (hmem : ∀ t, ∀ k < docs.length, k ∈ elements (documents t) ↔ HasType (pathAt docs path) t k) :
    Exact docs path documents := by
  refine fun t => ⟨hvalid t, fun k => ?_⟩
  rcases Nat.lt_or_ge k docs.length with hk | hk
  · exact hmem t k hk
  · refine iff_of_false (fun h => absurd (hlt t k h) (not_lt.mpr hk)) fun h => ?_
    rw [HasType, pathAt, List.getElem?_eq_none hk] at h
    cases h

instance {a : ℕ → Option (RJValue F)} {t : RangeType} {k : ℕ} : Decidable (HasType a t k) :=
  inferInstanceAs (Decidable ((a k).bind rangeType = some t))

/-- The node of `/a` after its first visit from the root of two documents. -/
def visitedNode (docs : List (RJValue Float)) (query : AdaptiveIndexQuery) (docCount : ℕ) : IndexedNode where
  toUnionTreeNode :=
    ((getDocumentsFirst docs query (.unvisited (ascii "/a")) rootOfTwo rootOfTwo).map
      fun r => r.2.1).getD (.unvisited (ascii "/a"))
  docCount := docCount

/-- `{"a":null}` and `{"a":true}` -/
def nullAndTrue : List (RJValue Float) := [.object [(ascii "a", .null)], .object [(ascii "a", .bool true)]]

/-- `{"a":"x"}` and `{"a":"y"}` -/
def twoStrings : List (RJValue Float) :=
  [.object [(ascii "a", .string (ascii "x"))], .object [(ascii "a", .string (ascii "y"))]]

def existsQuery : AdaptiveIndexQuery := ⟨ascii "/a", .NONE, .EQUALS, .EXISTS⟩

def equalsX : AdaptiveIndexQuery := ⟨ascii "/a", .STRING (ascii "x"), .EQUALS, .NONE⟩

theorem exactNode_visitedNode {docs : List (RJValue Float)} {query : AdaptiveIndexQuery}
    {docCount : ℕ} (hpath : query.propertyPath = ascii "/a")
    (hvisit : (getDocumentsFirst docs query (.unvisited (ascii "/a")) rootOfTwo rootOfTwo).isSome = true)
    (hcount : docCount = (elements ((visitedNode docs query docCount).documents .string)).length)
    (hexact : Exact docs (ascii "/a") (visitedNode docs query docCount).documents) :
    ExactNode docs (visitedNode docs query docCount) := by
  obtain ⟨⟨result, node', parentNode'⟩, h⟩ := Option.isSome_iff_exists.mp hvisit
  obtain ⟨hjson, -⟩ := getDocumentsFirst_spec valid_rootOfTwo h
  have hnode : visitedNode docs query docCount = ⟨node', docCount⟩ := by
    unfold visitedNode
    rw [h]
    rfl
  rw [hnode] at hcount hexact ⊢
  rw [hcount]
  exact exactNode_visited hpath.symm rfl rfl valid_rootOfTwo (fun _ _ => rfl) h (by rwa [hjson])

theorem exactNode_nullAndTrue : ExactNode nullAndTrue (visitedNode nullAndTrue existsQuery 0) := by
  refine exactNode_visitedNode rfl rfl rfl (exact_of_lt (fun t => ?_) (fun t => ?_) fun t => ?_)
  · cases t <;> first | exact .nil | exact .cons (by decide) (by simp) .nil
  · cases t <;> decide
  · cases t <;> decide

theorem exactNode_twoStrings : ExactNode twoStrings (visitedNode twoStrings equalsX 2) := by
  refine exactNode_visitedNode rfl rfl rfl (exact_of_lt (fun t => ?_) (fun t => ?_) fun t => ?_)
  · cases t <;> first | exact .nil | exact .cons (by decide) (by simp) .nil
  · cases t <;> decide
  · cases t <;> decide

end Joda.Index.EstimateWork
