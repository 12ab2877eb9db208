import Joda.Index.FirstVisitNumbers
import Joda.Index.HistogramCounts
import Joda.Index.TriePlaces

/-! # The estimated work of a query

`UnionTreeNode::estimateWork` says how many documents a query on a node that was visited is going to
look at. It asks the trie or the histogram, if there is one, and else subtracts from the documents of
the node the sizes of the ranges of the other types. These are the ends of the ranges, two for each,
and not the documents in them. -/

namespace Joda.Index.EstimateWork

open Joda.Values.Value Joda.Values.PointerSet Joda.Lib.Runs Joda.Lib.Ranges Joda.Lib.Fuel
open Joda.Index.Query Joda.Index.Trie Joda.Index.TriePlaces Joda.Index.TrieRuns Joda.Index.TrieLex
open Joda.Index.Histogram Joda.Index.FirstVisit

variable {F : Type}

/-- `ULONG_MAX` -/
def NOT_APPLICABLE : UInt64 := UInt64.ofNat (2 ^ 64 - 1)

/-! ### The indexes -/

/-- **`AdaptiveTrie::estimateWork`**, of a trie with these documents. -/
def trieWork (docCount : ℕ) (strValue : Str) (root : Node) : ℕ :=
  match strValue with
  | [] => 1
  | c :: rest =>
    match getChild c root.children with
    | none => root.startMatchingDocs.length / 2
    | some (_, charNodeEntry, _) =>
      if charNodeEntry.children.length = 0 then
        if rest.length = 0 then charNodeEntry.exactMatchingDocs.length
        else charNodeEntry.startMatchingDocs.length
      else docCount / 4

def maxEffortDepth : ℕ := 5

/-- A bucket, with what is done in a bucket of it that is divided. -/
def bucketWork (intVal : ℤ) (further : HistogramBucket → Option ℕ) : HistogramBucket → Option ℕ
  | .leaf min max entries => some (if intVal < min ∨ max < intVal then 0 else entries.length)
  | .sub _ min max bucketSize buckets =>
    if intVal < min ∨ max < intVal then some 0
    else
      (bucketAt buckets (bucketNum intVal min bucketSize)).bind fun bucket =>
        if bucket.docCount = 0 ∨ intVal < bucket.min ∨ bucket.max < intVal then some 0
        else if bucket.hasSub then further bucket else some bucket.docCount

/-- **`HistogramBucket::estimateWork`** with the number of levels it goes further down; `none` where
`at` throws. -/
def histogramWork (intVal : ℤ) : ℕ → HistogramBucket → Option ℕ
  | 0 => bucketWork intVal fun bucket => some bucket.docCount
  | levels + 1 => bucketWork intVal (histogramWork intVal levels)

/-- **`NumberIndex::estimateWork`**; both conditions on the comparison hold always. -/
def numberIndexWork (intVal : ℤ) (cmpType : CmpType) (index : NumberIndex) : Option ℕ :=
  if index.maxValue < intVal ∧ (cmpType ≠ .LT ∨ cmpType ≠ .LTE) then some 0
  else if intVal < index.minValue ∧ (cmpType ≠ .GT ∨ cmpType ≠ .GTE) then some 0
  else index.histogram.bind fun histogram => histogramWork intVal (maxEffortDepth - 1) histogram.root

/-! ### The node -/

/-- A node, with the `docCount` of its trie. -/
structure IndexedNode extends UnionTreeNode where
  docCount : ℕ

/-- The number of range ends of a type. -/
def IndexedNode.sizeOf (node : IndexedNode) (t : RangeType) : UInt64 :=
  UInt64.ofNat (node.documents t).length

/-- The documents less the sizes. -/
def lessSizes (node : IndexedNode) (types : List RangeType) : UInt64 :=
  types.foldl (fun effort t => effort - node.sizeOf t) (UInt64.ofNat node.totalDocs)

/-- **`UnionTreeNode::estimateWork`** -/
def estimateWork (query : AdaptiveIndexQuery) (node : IndexedNode) : Option UInt64 :=
  if query.functionType ∈ [.EXISTS, .ISNULL, .ISBOOL, .ISNUMBER, .ISOBJECT, .ISSTRING, .TYPE] then
    some 1
  else
    match query.content with
    | .STRING strValue =>
      match node.adaptiveTrie with
      | some root => some (UInt64.ofNat (trieWork node.docCount strValue root))
      | none => some (lessSizes node [.number, .false, .null, .object, .true])
    | .BOOL _ => some 1
    | .INT intVal =>
      match node.numberIndex with
      | none => some NOT_APPLICABLE
      | some index =>
        if index.histogram.isSome then (numberIndexWork intVal query.cmpType index).map UInt64.ofNat
        else some (lessSizes node [.string, .false, .null, .object, .true])
    | .NONE => some (UInt64.ofNat node.totalDocs)

/-! ### The size of a trie -/

theorem length_listed_le {m : Node} {ns : List Node} (h : m ∈ ns) :
    (listed m).length ≤ (listedAll ns).length := by
  induction ns with
  | nil => cases h
  | cons n ns ih =>
    rw [listedAll, List.length_append]
    rcases List.mem_cons.mp h with rfl | h
    · exact Nat.le_add_right _ _
    · exact (ih h).trans (Nat.le_add_left _ _)

/-- **The estimate of a trie** is no more than the documents it lists. -/
theorem trieWork_le {docCount : ℕ} {strValue : Str} {root : Node} (hne : strValue ≠ [])
    (hcount : (listed root).length = docCount) : trieWork docCount strValue root ≤ docCount := by
  obtain ⟨c, rest, rfl⟩ := List.exists_cons_of_ne_nil hne
  rw [listed_eq, List.length_append, List.length_append] at hcount
  unfold trieWork
  dsimp only
  cases hchild : getChild c root.children with
  | none =>
    dsimp only
    omega
  | some found =>
    obtain ⟨before, child, after⟩ := found
    obtain ⟨hchildren, -⟩ := TrieInvariant.getChild_some hchild
    have hmem : child ∈ root.children := by rw [hchildren]; simp
    have hle := length_listed_le hmem
    rw [listed_eq, List.length_append, List.length_append] at hle
    dsimp only
    split_ifs
    · omega
    · omega
    · omega

/-! ### The size of a histogram -/

theorem length_entries_le {b : HistogramBucket} {buckets : List HistogramBucket} (h : b ∈ buckets) :
    b.entries.length ≤ (entriesOf buckets).length := by
  induction buckets with
  | nil => cases h
  | cons c buckets ih =>
    rw [entriesOf, List.length_append]
    rcases List.mem_cons.mp h with rfl | h
    · exact Nat.le_add_right _ _
    · exact (ih h).trans (Nat.le_add_left _ _)

/-- The work in a bucket is no more than its entries, if that further down is. -/
theorem bucketWork_le {intVal : ℤ} {further : HistogramBucket → Option ℕ} {b : HistogramBucket}
    {work : ℕ}
    (hfurther : ∀ {c : HistogramBucket} {work : ℕ}, Counted c → further c = some work →
      work ≤ c.entries.length)
    (hb : Counted b) (h : bucketWork intVal further b = some work) : work ≤ b.entries.length := by
  cases hb with
  | @leaf min max entries =>
    obtain rfl := Option.some.inj h
    rw [HistogramBucket.entries]
    split_ifs
    · exact Nat.zero_le _
    · exact le_rfl
  | @sub docCount min max bucketSize buckets count below =>
    rw [bucketWork] at h
    split_ifs at h with houtside
    · obtain rfl := Option.some.inj h
      exact Nat.zero_le _
    · obtain ⟨c, hc, h⟩ := Option.bind_eq_some_iff.mp h
      have hmem := List.mem_of_getElem? (bucketAt_some hc)
      refine le_trans ?_ (length_entries_le hmem)
      split_ifs at h with hempty hsub
      · obtain rfl := Option.some.inj h
        exact Nat.zero_le _
      · exact hfurther (below c hmem) h
      · obtain rfl := Option.some.inj h
        exact (below c hmem).docCount_eq.le

/-- **The estimate of a histogram** is no more than its entries. -/
theorem histogramWork_le {intVal : ℤ} {levels : ℕ} : ∀ {b : HistogramBucket} {work : ℕ}, Counted b →
    histogramWork intVal levels b = some work → work ≤ b.entries.length := by
  induction levels with
  | zero =>
    intro b work hb h
    refine bucketWork_le (fun hc hcount => ?_) hb h
    obtain rfl := Option.some.inj hcount
    exact hc.docCount_eq.le
  | succ levels ih => exact fun hb h => bucketWork_le ih hb h

/-! ### Nodes of documents -/

/-- The strings at a path, as a trie reads them. -/
def strings (docs : List (RJValue F)) (path : Str) : Documents where
  size := docs.length
  string k :=
    match pathAt docs path k with
    | some (.string s) => some s
    | _ => none

/-- The trie was filled with the documents of the strings, and was searched since. -/
def TrieOf (docs : List (RJValue F)) (node : IndexedNode) (root : Node) : Prop :=
  ∃ filling start past, Filling.run (strings docs node.jsonPath) filling = some start ∧
    filling.documents.Perm (elements (node.documents .string)) ∧
    node.docCount = filling.documents.length ∧
    Run (· = start) (TrieRuns.Step (strings docs node.jsonPath)) past root

/-- The histogram was built for the documents of the numbers, and was searched since. -/
def HistogramOf (docs : List (RJValue F)) (node : IndexedNode) (index : NumberIndex)
    (h : AdaptiveHistogram) : Prop :=
  ∃ values start past, initialSplitWithValues values 100 (pairs (node.documents .number))
      index.minValue index.maxValue = some start ∧
    Run (· = start) (Histogram.Step docs.length) past h

/-- **A node with exact ranges**, and with indexes of its documents. -/
structure ExactNode (docs : List (RJValue F)) (node : IndexedNode) : Prop where
  ranges : Exact docs node.jsonPath node.documents
  trie : ∀ root, node.adaptiveTrie = some root → TrieOf docs node root
  histogram : ∀ index h, node.numberIndex = some index → index.histogram = some h →
    HistogramOf docs node index h

section ExactNode

variable {docs : List (RJValue F)} {node : IndexedNode}

/-- Ranges have no more documents than there are. -/
theorem length_elements_le {l : List ℕ} (hvalid : Valid l) {n : ℕ} (hlt : ∀ k ∈ elements l, k < n) :
    (elements l).length ≤ n := by
  have hnodup : (elements l).Nodup := (elements_sorted hvalid).imp fun hlt => hlt.ne
  have hsubset : elements l ⊆ List.range n := fun k hk => List.mem_range.mpr (hlt k hk)
  have hle := (hnodup.subperm hsubset).length_le
  rwa [List.length_range] at hle

theorem length_documents_le (h : Exact docs node.jsonPath node.documents) (t : RangeType) :
    (elements (node.documents t)).length ≤ docs.length := by
  obtain ⟨hvalid, hmem⟩ := h t
  refine length_elements_le hvalid fun k hk => ?_
  obtain ⟨v, hv, -⟩ := Option.bind_eq_some_iff.mp ((hmem k).mp hk)
  obtain ⟨doc, hdoc, -⟩ := Option.bind_eq_some_iff.mp hv
  exact (List.getElem?_eq_some_iff.mp hdoc).1

theorem trieWork_le_length (h : ExactNode docs node) {root : Node} {strValue : Str}
    (hroot : node.adaptiveTrie = some root) (hne : strValue ≠ []) :
    trieWork node.docCount strValue root ≤ docs.length := by
  obtain ⟨filling, start, past, hstart, hperm, hcount, hrun⟩ := h.trie root hroot
  refine (trieWork_le hne ?_).trans ?_
  · rw [hcount, (run_listed hstart hrun).length_eq]
  · rw [hcount, hperm.length_eq]
    exact length_documents_le h.ranges .string

theorem numberIndexWork_le (h : ExactNode docs node) {index : NumberIndex} {intVal : ℤ}
    {cmpType : CmpType} {work : ℕ} (hindex : node.numberIndex = some index)
    (hwork : numberIndexWork intVal cmpType index = some work) : work ≤ docs.length := by
  unfold numberIndexWork at hwork
  split_ifs at hwork with hless hmore
  · obtain rfl := Option.some.inj hwork
    exact Nat.zero_le _
  · obtain rfl := Option.some.inj hwork
    exact Nat.zero_le _
  · obtain ⟨histogram, hhistogram, hwork⟩ := Option.bind_eq_some_iff.mp hwork
    obtain ⟨values, start, past, hstart, hrun⟩ := h.histogram index histogram hindex hhistogram
    obtain ⟨hcounted, hperm⟩ := run_counted hstart hrun
    refine (histogramWork_le hcounted hwork).trans ?_
    rw [hperm.length_eq, List.length_zip, documents_pairs (h.ranges .number).1]
    exact (Nat.min_le_right _ _).trans (length_documents_le h.ranges .number)

end ExactNode

/-! ### Subtractions -/

/-- **No subtraction wraps around**: no size is greater than what is left. -/
def NeverBelow : UInt64 → List UInt64 → Prop
  | _, [] => True
  | effort, size :: sizes => size ≤ effort ∧ NeverBelow (effort - size) sizes

def total (sizes : List UInt64) : ℕ := (sizes.map UInt64.toNat).sum

theorem neverBelow_iff {sizes : List UInt64} : ∀ {effort : UInt64},
    NeverBelow effort sizes ↔ total sizes ≤ effort.toNat := by
  induction sizes with
  | nil => exact fun {effort} => ⟨fun _ => Nat.zero_le _, fun _ => trivial⟩
  | cons size sizes ih =>
    intro effort
    have htotal : total (size :: sizes) = size.toNat + total sizes := by simp [total]
    rw [NeverBelow, ih, htotal, UInt64.le_iff_toNat_le]
    constructor
    · rintro ⟨hle, hrest⟩
      rw [UInt64.toNat_sub_of_le _ _ hle] at hrest
      omega
    · intro hle
      have hsize : size.toNat ≤ effort.toNat := by omega
      rw [UInt64.toNat_sub_of_le _ _ hsize]
      omega

theorem toNat_foldl_sub {sizes : List UInt64} : ∀ {effort : UInt64}, NeverBelow effort sizes →
    (sizes.foldl (· - ·) effort).toNat + total sizes = effort.toNat := by
  induction sizes with
  | nil => exact fun _ => rfl
  | cons size sizes ih =>
    rintro effort ⟨hle, hrest⟩
    have htotal : total (size :: sizes) = size.toNat + total sizes := by simp [total]
    have heq := ih hrest
    rw [UInt64.toNat_sub_of_le _ _ hle] at heq
    rw [UInt64.le_iff_toNat_le] at hle
    rw [List.foldl_cons, htotal]
    omega

/-! ### Sound estimates -/

/-- What an estimate is made from. -/
inductive Way where
  | constant
  | sizes (types : List RangeType)
  | trie (strValue : Str) (root : Node)
  | histogram (intVal : ℤ) (index : NumberIndex)
  | notApplicable

/-- What the estimate of a query is made from on a node. -/
def wayOf (query : AdaptiveIndexQuery) (node : IndexedNode) : Way :=
  if query.functionType ∈ [.EXISTS, .ISNULL, .ISBOOL, .ISNUMBER, .ISOBJECT, .ISSTRING, .TYPE] then
    .constant
  else
    match query.content with
    | .STRING strValue =>
      match node.adaptiveTrie with
      | some root => if strValue = [] then .constant else .trie strValue root
      | none => .sizes [.number, .false, .null, .object, .true]
    | .BOOL _ => .constant
    | .INT intVal =>
      match node.numberIndex with
      | none => .notApplicable
      | some index =>
        if index.histogram.isSome then .histogram intVal index
        else .sizes [.string, .false, .null, .object, .true]
    | .NONE => .sizes []

def Way.work (cmpType : CmpType) (node : IndexedNode) : Way → Option UInt64
  | constant => some 1
  | sizes types => some (lessSizes node types)
  | trie strValue root => some (UInt64.ofNat (trieWork node.docCount strValue root))
  | histogram intVal index => (numberIndexWork intVal cmpType index).map UInt64.ofNat
  | notApplicable => some NOT_APPLICABLE

theorem estimateWork_eq (query : AdaptiveIndexQuery) (node : IndexedNode) :
    estimateWork query node = (wayOf query node).work query.cmpType node := by
  unfold estimateWork wayOf
  by_cases hfunction : query.functionType ∈
      [.EXISTS, .ISNULL, .ISBOOL, .ISNUMBER, .ISOBJECT, .ISSTRING, .TYPE]
  · rw [if_pos hfunction, if_pos hfunction]
    rfl
  rw [if_neg hfunction, if_neg hfunction]
  cases query.content with
  | STRING strValue =>
    dsimp only
    cases node.adaptiveTrie with
    | none => rfl
    | some root => cases strValue <;> rfl
  | INT intVal =>
    dsimp only
    cases node.numberIndex with
    | none => rfl
    | some index =>
      dsimp only
      cases index.histogram <;> rfl
  | BOOL => rfl
  | NONE => rfl

/-- The indexes are those of the node. -/
def Way.From (node : IndexedNode) : Way → Prop
  | trie strValue root => node.adaptiveTrie = some root ∧ strValue ≠ []
  | histogram _ index => node.numberIndex = some index
  | constant | sizes _ | notApplicable => True

theorem wayOf_from (query : AdaptiveIndexQuery) (node : IndexedNode) :
    (wayOf query node).From node := by
  unfold wayOf
  split_ifs
  · trivial
  cases query.content with
  | STRING strValue =>
    dsimp only
    cases htrie : node.adaptiveTrie with
    | none => trivial
    | some root =>
      dsimp only
      split_ifs with hempty
      · trivial
      · exact ⟨htrie, hempty⟩
  | INT intVal =>
    dsimp only
    cases hindex : node.numberIndex with
    | none => trivial
    | some index =>
      dsimp only
      split_ifs
      · exact hindex
      · trivial
  | BOOL => trivial
  | NONE => trivial

/-- **A sound estimate**: no subtraction wraps around, and it is no more than the documents or not
applicable. -/
structure EstimateSound (docs : List (RJValue F)) (query : AdaptiveIndexQuery) (node : IndexedNode) :
    Prop where
  neverBelow : ∀ types, wayOf query node = .sizes types →
    NeverBelow (UInt64.ofNat node.totalDocs) (types.map node.sizeOf)
  bound : ∀ effort, estimateWork query node = some effort →
    effort.toNat ≤ docs.length ∨ effort = NOT_APPLICABLE

/-- **When an estimate is sound**: the sizes that are subtracted are no more than the documents of the
node, and these no more than all documents and the sizes; and there are documents where the estimate is
one. -/
structure EstimateFits (docs : List (RJValue F)) (query : AdaptiveIndexQuery) (node : IndexedNode) :
    Prop where
  sizes : ∀ types, wayOf query node = .sizes types →
    total (types.map node.sizeOf) ≤ (UInt64.ofNat node.totalDocs).toNat ∧
      ((UInt64.ofNat node.totalDocs).toNat ≤ docs.length + total (types.map node.sizeOf) ∨
        total (types.map node.sizeOf) = 0 ∧ UInt64.ofNat node.totalDocs = NOT_APPLICABLE)
  documents : wayOf query node = .constant → docs ≠ []

section Sound

variable {docs : List (RJValue F)} {query : AdaptiveIndexQuery} {node : IndexedNode}

theorem eq_notApplicable_iff {effort : UInt64} :
    effort = NOT_APPLICABLE ↔ effort.toNat = 2 ^ 64 - 1 :=
  UInt64.toNat_inj.symm

theorem toNat_lessSizes {types : List RangeType}
    (h : NeverBelow (UInt64.ofNat node.totalDocs) (types.map node.sizeOf)) :
    (lessSizes node types).toNat + total (types.map node.sizeOf) =
      (UInt64.ofNat node.totalDocs).toNat := by
  rw [← toNat_foldl_sub h, lessSizes, List.foldl_map]

theorem toNat_ofNat_le {work n : ℕ} (h : work ≤ n) : (UInt64.ofNat work).toNat ≤ n := by
  rw [UInt64.toNat_ofNat']
  exact (Nat.mod_le _ _).trans h

/-- **An estimate is sound** on a node with exact ranges exactly under the condition. -/
theorem estimate_sound_iff (h : ExactNode docs node) (query : AdaptiveIndexQuery) :
    EstimateSound docs query node ↔ EstimateFits docs query node := by
  have hwork := estimateWork_eq query node
  have hfrom := wayOf_from query node
  constructor
  · rintro ⟨hnever, hbound⟩
    refine ⟨fun types hway => ?_, fun hway hnil => ?_⟩
    · rw [hway] at hwork
      have hsum := toNat_lessSizes (hnever types hway)
      have hle := hbound _ hwork
      rw [eq_notApplicable_iff] at hle ⊢
      have hlt := (UInt64.ofNat node.totalDocs).toNat_lt
      omega
    · rw [hway] at hwork
      have hle := hbound _ hwork
      rw [hnil, List.length_nil] at hle
      exact absurd hle (by decide)
  · rintro ⟨hsizes, hdocuments⟩
    refine ⟨fun types hway => neverBelow_iff.mpr (hsizes types hway).1, fun effort heffort => ?_⟩
    rw [hwork] at heffort
    cases hway : wayOf query node with
    | constant =>
      rw [hway] at heffort
      obtain rfl := Option.some.inj heffort
      have hpos := List.length_pos_iff.mpr (hdocuments hway)
      exact .inl hpos
    | sizes types =>
      rw [hway] at heffort
      obtain rfl := Option.some.inj heffort
      obtain ⟨hle, hbound⟩ := hsizes types hway
      have hsum := toNat_lessSizes (neverBelow_iff.mpr hle)
      rw [eq_notApplicable_iff] at hbound ⊢
      omega
    | trie strValue root =>
      rw [hway] at heffort hfrom
      obtain rfl := Option.some.inj heffort
      exact .inl (toNat_ofNat_le (trieWork_le_length h hfrom.1 hfrom.2))
    | histogram intVal index =>
      rw [hway] at heffort hfrom
      obtain ⟨work, hindex, rfl⟩ := Option.map_eq_some_iff.mp heffort
      exact .inl (toNat_ofNat_le (numberIndexWork_le h hfrom hindex))
    | notApplicable =>
      rw [hway] at heffort
      exact .inr (Option.some.inj heffort).symm

end Sound

end Joda.Index.EstimateWork
