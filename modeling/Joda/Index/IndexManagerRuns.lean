import Joda.Index.IndexManager

/-! # Runs of the manager

A first visit of a path sees what is there if the documents are plain on the way: objects down to the
path, no arrays at it, and numbers the number index can take (`Plain`). Then every node that is kept has
exact ranges and right indexes, whatever was asked and removed before, and every answer is right for the
documents about which first and later visits agree (`run_exact`). -/

namespace Joda.Index.IndexManager

open Joda.Values.Value Joda.Values.Pointer Joda.Values.PointerSet Joda.Values.Provider Joda.Lib.Ranges
open Joda.Lib.Fuel Joda.Lib.Runs Joda.Index.Query Joda.Index.Trie Joda.Index.TrieRuns Joda.Index.Histogram
open Joda.Index.FirstVisit Joda.Index.EstimateWork Joda.Index.MemoryManager
open Joda.Index.SecondVisit (Ensured Indexed Created Disagrees FirstMeets wants wantsFirst)

variable {F : Type} {docs : List (RJValue F)} {path : Str} {R : List ℕ}

/-! ### Documents that are covered -/

/-- **Ranges that cover a path**: every document that has a value there is in them. -/
structure Covers (docs : List (RJValue F)) (path : Str) (R : List ℕ) : Prop where
  valid : Valid R
  lt : ∀ k ∈ elements R, k < docs.length
  covered : ∀ k v, pathAt docs path k = some v → k ∈ elements R

theorem lt_of_pathAt {k : ℕ} {v : RJValue F} (h : pathAt docs path k = some v) : k < docs.length := by
  obtain ⟨doc, hdoc, -⟩ := Option.bind_eq_some_iff.mp h
  exact (List.getElem?_eq_some_iff.mp hdoc).1

/-- The ranges of the root. -/
theorem covers_all (hsize : docs ≠ []) : Covers docs path [0, docs.length - 1] := by
  have hpos := List.length_pos_of_ne_nil hsize
  have hmem : ∀ k, k ∈ elements [0, docs.length - 1] ↔ k < docs.length := fun k => by
    rw [elements_pair, mem_range']
    omega
  exact ⟨.cons (Nat.zero_le _) (by simp) .nil, fun k hk => (hmem k).mp hk,
    fun k v hv => (hmem k).mpr (lt_of_pathAt hv)⟩

/-- Sorted lists with the same documents of a kind. -/
theorem filter_eq_of_sorted {l l' : List ℕ} (hl : l.Pairwise (· < ·)) (hl' : l'.Pairwise (· < ·))
    {p : ℕ → Bool} (h : ∀ k, p k = true → (k ∈ l ↔ k ∈ l')) : l.filter p = l'.filter p := by
  refine (hl.filter _).eq_of_mem_iff (hl'.filter _) fun k => ?_
  rw [List.mem_filter, List.mem_filter]
  exact and_congr_left fun hk => h k hk

/-- What is counted along a list is counted by the places. -/
theorem countP_places {α : Type*} (p : α → Bool) : ∀ l : List α,
    l.countP p = (List.range l.length).countP fun k => l[k]?.any p
  | [] => rfl
  | a :: l => by
    rw [List.length_cons, List.range_succ_eq_map, List.countP_cons, List.countP_cons, List.countP_map,
      countP_places p l]
    rfl

/-- The documents that have a value at the path are counted once. -/
theorem Covers.countP (h : Covers docs path R) :
    (elements R).countP (fun k => (pathAt docs path k).isSome) =
      docs.countP fun doc => (valueAt path doc).isSome := by
  have hplace : ∀ k, (docs[k]?.any fun doc => (valueAt path doc).isSome) = (pathAt docs path k).isSome := by
    intro k
    unfold pathAt
    cases docs[k]? <;> rfl
  rw [countP_places _ docs]
  simp only [hplace]
  rw [List.countP_eq_length_filter, List.countP_eq_length_filter,
    filter_eq_of_sorted (elements_sorted h.valid) List.pairwise_lt_range fun k hk => ?_]
  obtain ⟨v, hv⟩ := Option.isSome_iff_exists.mp hk
  exact ⟨fun hk => List.mem_range.mpr (h.lt k hk), fun _ => h.covered k v hv⟩

/-- The numbers at a path are found in any ranges that cover it. -/
theorem Covers.numbersAt {R' : List ℕ} (h : Covers docs path R) (h' : Covers docs path R') :
    numbersAt docs path R = numbersAt docs path R' := by
  have hsome : ∀ (l : List ℕ), l.filterMap (entryAt docs path) =
      (l.filter fun k => (entryAt docs path k).isSome).filterMap (entryAt docs path) := fun l => by
    rw [List.filterMap_filter]
    refine List.filterMap_congr fun k _ => ?_
    cases entryAt docs path k <;> rfl
  unfold FirstVisit.numbersAt
  rw [hsome, hsome (elements R'),
    filter_eq_of_sorted (elements_sorted h.valid) (elements_sorted h'.valid) fun k hk => ?_]
  obtain ⟨e, he⟩ := Option.isSome_iff_exists.mp hk
  obtain ⟨n, hn, -⟩ := entryAt_eq_some.mp he
  exact iff_of_true (h.covered k _ hn) (h'.covered k _ hn)

/-- So is a number the number index does not take. -/
theorem Covers.unsupported {R' : List ℕ} (h' : Covers docs path R') (hnumber : Unsupported docs path R) :
    Unsupported docs path R' := by
  obtain ⟨k, -, n, hn, hint⟩ := hnumber
  exact ⟨k, h'.covered k _ hn, n, hn, hint⟩

/-! ### Plain documents -/

/-- **The condition on the documents** of a first visit: no array at the path, only objects on the way,
numbers that can be indexed, no empty string for the trie. The name that is looked up in an object is not
unescaped. -/
structure Plain (docs : List (RJValue F)) (query : AdaptiveIndexQuery) : Prop where
  name : (126 : UInt8) ∉ memberName query.propertyPath
  arrays : ∀ k, isArray (pathAt docs query.propertyPath k) = false
  objects : ∀ above rest, query.propertyPath = above ++ 47 :: rest → above ≠ [] →
    ∀ k v, pathAt docs above k = some v → ∃ ms, v = .object ms
  numbers : Unsupported docs query.propertyPath [0, docs.length - 1] ∨
    NumbersRight docs query.propertyPath [0, docs.length - 1]
  strings : ∀ strValue, query.content = .STRING strValue →
    ∀ k s, pathAt docs query.propertyPath k = some (.string s) → cString s ≠ []

variable {query : AdaptiveIndexQuery} {us ws : List Str}

theorem Plain.objects_joined (h : Plain docs query) (hpath : query.propertyPath = joined (us ++ ws))
    (hus : us ≠ []) (hws : ws ≠ []) {k : ℕ} {v : RJValue F} (hv : pathAt docs (joined us) k = some v) :
    ∃ ms, v = .object ms := by
  obtain ⟨token, ws, rfl⟩ := List.exists_cons_of_ne_nil hws
  refine h.objects (joined us) (token ++ joined ws) ?_ (joined_ne_nil hus) k v hv
  rw [hpath, joined_append]
  rfl

theorem pathAt_append (htokens : ∀ token ∈ us ++ ws, (47 : UInt8) ∉ token)
    (hzero : (0 : UInt8) ∉ joined (us ++ ws)) (k : ℕ) :
    pathAt docs (joined (us ++ ws)) k =
      (pathAt docs (joined us) k).bind fun v => valueAt (joined ws) v := by
  obtain ⟨hus, hws⟩ := List.forall_mem_append.mp htokens
  unfold pathAt
  cases docs[k]? with
  | none => rfl
  | some doc => exact valueAt_append hus hws hzero doc

/-- A path is covered by the objects of a path above, and so is every path between. -/
theorem Plain.covers_objects (h : Plain docs query) {vs : List Str}
    (hpath : query.propertyPath = joined (us ++ ws ++ vs)) (hus : us ≠ []) (hws : ws ≠ [])
    (htokens : ∀ token ∈ us ++ ws, (47 : UInt8) ∉ token) (hzero : (0 : UInt8) ∉ joined (us ++ ws))
    {documents : RangeType → List ℕ} (hexact : Exact docs (joined us) documents) :
    Covers docs (joined (us ++ ws)) (documents .object) := by
  obtain ⟨hvalid, hmem⟩ := hexact .object
  refine ⟨hvalid, fun k hk => ?_, fun k v hv => (hmem k).mpr ?_⟩
  · obtain ⟨v, hv, -⟩ := Option.bind_eq_some_iff.mp ((hmem k).mp hk)
    exact lt_of_pathAt hv
  · rw [pathAt_append htokens hzero] at hv
    obtain ⟨w, hw, -⟩ := Option.bind_eq_some_iff.mp hv
    rw [List.append_assoc] at hpath
    obtain ⟨ms, rfl⟩ := h.objects_joined hpath hus (by simp [hws]) hw
    rw [HasType, hw]
    rfl

/-! ### A first visit sees what is there -/

theorem unescape_of_not_mem : ∀ {name : Str}, (126 : UInt8) ∉ name → unescape name = some name
  | [], _ => by unfold unescape; rfl
  | c :: name, h => by
    rw [List.mem_cons, not_or] at h
    unfold unescape
    rw [if_neg (Ne.symm h.1), unescape_of_not_mem h.2]
    rfl

theorem valueAt_single {token : Str} (hslash : (47 : UInt8) ∉ token) (hzero : (0 : UInt8) ∉ token)
    (htilde : (126 : UInt8) ∉ token) (v : RJValue F) : valueAt (joined [token]) v = child v token := by
  have hparse : parsePointer (joined [token]) = some [token] :=
    parsePointer_append hslash hzero (unescape_of_not_mem htilde) (show parsePointer [] = some [] from rfl)
  rw [valueAt, hparse, Option.bind_some, get_cons]
  simp only [get_nil, Option.bind_fun_some]

/-- The ancestors of a path, the last token of which is given. -/
structure Below (query : AdaptiveIndexQuery) (us : List Str) (token : Str) : Prop where
  path : query.propertyPath = joined (us ++ [token])
  slashes : ∀ name ∈ us ++ [token], (47 : UInt8) ∉ name
  zero : (0 : UInt8) ∉ query.propertyPath

variable {token : Str}

theorem Below.parentPath (h : Below query us token) :
    IndexManager.parentPath query.propertyPath = joined us ∧ memberName query.propertyPath = token := by
  rw [h.path]
  exact parentPath_concat (h.slashes token (by simp))

/-- With the parent's values at hand. -/
theorem Plain.seenAt (h : Plain docs query) (hbelow : Below query us token) (hus : us ≠ []) :
    FirstVisit.seenAt docs false query (joined us) = pathAt docs query.propertyPath := by
  funext k
  have hzero := hbelow.path ▸ hbelow.zero
  have htoken : (0 : UInt8) ∉ token := fun hmem => by
    rw [joined_append, List.mem_append, not_or] at hzero
    exact hzero.2 (by simp [joined, hmem])
  have hname := hbelow.parentPath.2
  rw [hbelow.path, pathAt_append hbelow.slashes hzero]
  unfold FirstVisit.seenAt pathAt
  cases hdoc : docs[k]? with
  | none => rfl
  | some doc =>
    simp only [Option.bind_some, seen, Bool.false_eq_true, if_false]
    cases hval : valueAt (joined us) doc with
    | none => rfl
    | some v =>
      obtain ⟨ms, rfl⟩ := h.objects_joined hbelow.path hus (by simp)
        (show pathAt docs (joined us) k = some v by rw [pathAt, hdoc]; exact hval)
      rw [Option.bind_some, valueAt_single (hbelow.slashes token (by simp)) htoken (hname ▸ h.name), hname]
      rfl

variable [Double F] {node parentNode parentDocRangeNode node' parentNode' : UnionTreeNode}
  {result : Finset ℕ}

/-- The nodes of a first visit: a new one, its parent, and one with ranges that cover the path; if that is
not the parent, the ranges cover the parent as well. -/
structure Nodes (docs : List (RJValue F)) (query : AdaptiveIndexQuery) (us : List Str)
    (node parentNode parentDocRangeNode : UnionTreeNode) : Prop where
  path : node.jsonPath = query.propertyPath
  trie : node.adaptiveTrie = none
  numbers : node.numberIndex = none
  covers : Covers docs query.propertyPath (parentDocRangeNode.documents .object)
  parent : parentNode.jsonPath ≠ parentDocRangeNode.jsonPath →
    us ≠ [] ∧ parentNode.jsonPath = joined us ∧
      Covers docs (joined us) (parentDocRangeNode.documents .object)

omit [Double F] in
/-- **The first visit of plain documents** meets its condition. -/
theorem Plain.firstMeets (h : Plain docs query) (hsize : docs ≠ []) (hbelow : Below query us token)
    (hnodes : Nodes docs query us node parentNode parentDocRangeNode) :
    FirstMeets docs query node parentNode parentDocRangeNode := by
  have hvalid := hnodes.covers.valid
  have hseen : FirstVisit.seenAt docs (parentNode.jsonPath == parentDocRangeNode.jsonPath) query
      parentNode.jsonPath = pathAt docs query.propertyPath := by
    by_cases hdirect : parentNode.jsonPath = parentDocRangeNode.jsonPath
    · rw [beq_iff_eq.mpr hdirect]
      rfl
    · obtain ⟨hus, hparent, -⟩ := hnodes.parent hdirect
      rw [beq_false_of_ne hdirect, hparent]
      exact h.seenAt hbelow hus
  have hfollowed : ∀ {a : ℕ → Option (RJValue F)}, (∀ k, isArray (a k) = false) →
      ∀ p ∈ pairs (parentDocRangeNode.documents .object), ∀ t k, p.1 ≤ k → k < p.2 → HasType a t k →
        isArray (a (k + 1)) = false := fun harrays _ _ _ _ _ _ _ => harrays _
  refine ⟨hnodes.path, hnodes.trie, hnodes.numbers, hvalid, fun k _ => congrFun hseen k, ⟨?_, ?_, ?_⟩, ?_⟩
  · rw [hseen]
    refine (filedIn_iff_hasType hvalid).mpr ⟨fun t k htype => ?_, hfollowed h.arrays⟩
    obtain ⟨v, hv, -⟩ := Option.bind_eq_some_iff.mp htype
    exact hnodes.covers.covered k v hv
  · rw [hseen]
    exact hnodes.covers.countP
  · intro hdirect
    obtain ⟨hus, hparent, hcovers⟩ := hnodes.parent (ne_of_beq_false hdirect)
    rw [hparent]
    refine ⟨fun t k htype => ?_, hfollowed fun k => ?_⟩
    · obtain ⟨v, hv, -⟩ := Option.bind_eq_some_iff.mp htype
      exact hcovers.covered k v hv
    · cases hv : pathAt docs (joined us) k with
      | none => rfl
      | some v =>
        obtain ⟨ms, rfl⟩ := h.objects_joined hbelow.path hus (by simp) hv
        rfl
  · have hall : Covers docs query.propertyPath [0, docs.length - 1] := covers_all hsize
    have hsame := hall.numbersAt hnodes.covers
    refine h.numbers.imp hnodes.covers.unsupported fun hright => ⟨fun p hp k => ?_, ?_, ?_⟩
    · exact hfollowed h.arrays p hp .number k
    · exact hsame ▸ hright.tracked
    · exact hsame ▸ hright.buildable

/-- **The parent's node after the visit** has exact ranges and right indexes: its values are objects, so
that the number index it gets has no documents. -/
theorem Plain.parent_indexed (h : Plain docs query) (hsize : docs ≠ []) (hbelow : Below query us token)
    (hnodes : Nodes docs query us node parentNode parentDocRangeNode)
    (hother : parentNode.jsonPath ≠ parentDocRangeNode.jsonPath)
    (htrie : ∀ root, parentNode.adaptiveTrie = some root →
      SecondVisit.TrieOf (EstimateWork.strings docs (joined us)) root)
    (hvisit : getDocumentsFirst docs query node parentNode parentDocRangeNode =
      some (result, node', parentNode')) :
    Indexed docs parentNode' ∧ parentNode'.jsonPath = joined us ∧
      parentNode'.relevantDocumentsCalculated = true := by
  have hmeets := h.firstMeets hsize hbelow hnodes
  obtain ⟨hus, hparent, -⟩ := hnodes.parent hother
  have hdirect : (parentNode.jsonPath == parentDocRangeNode.jsonPath) = false := beq_false_of_ne hother
  have hpath : parentNode'.jsonPath = joined us :=
    (getDocumentsFirst_spec hmeets.valid hvisit).2.2.2.1.trans hparent
  have hexact := ((ranges_exact hmeets.path hmeets.valid hvisit).mpr hmeets.right).2.2 hdirect
  have hobjects : ∀ k v, pathAt docs (joined us) k = some v → ∃ ms, v = .object ms :=
    fun k v hv => h.objects_joined hbelow.path hus (by simp) hv
  obtain ⟨pass, hpass, hfill⟩ := Option.bind_eq_some_iff.mp hvisit
  obtain ⟨filled, -, hres⟩ := Option.map_eq_some_iff.mp hfill
  obtain ⟨-, hfilled⟩ := Prod.mk.inj (Prod.mk.inj hres).2
  rw [hdirect, if_neg Bool.false_ne_true] at hfilled
  -- no number is seen at the parent
  have hnumbers : pass.parent.numbers = .empty none := by
    rw [(visitRanges_spec hmeets.valid hpass).1.parentNumbers hdirect, hparent]
    refine List.foldlRecOn (motive := fun s => s = NumberStats.empty none) _ _ rfl fun s hs k _ => ?_
    unfold addSeen
    cases hv : pathAt docs (joined us) k with
    | none => exact hs
    | some v =>
      obtain ⟨ms, rfl⟩ := hobjects k v hv
      exact hs
  have hnil : elements (parentNode'.documents .number) = [] := by
    refine List.eq_nil_iff_forall_not_mem.mpr fun k hk => ?_
    rw [hpath] at hexact
    obtain ⟨n, hn⟩ := hasType_number.mp (((hexact .number).2 k).mp hk)
    obtain ⟨ms, heq⟩ := hobjects k _ hn
    cases heq
  refine ⟨⟨hexact, fun root hroot => ?_, fun index hindex => ?_⟩, hpath, ?_⟩
  · rw [hpath]
    subst hfilled
    exact htrie root hroot
  · have hindex' : index = ⟨node.jsonPath, 2 ^ 63 - 1, -2 ^ 63, parentNode'.documents .number, none⟩ := by
      subst hfilled
      unfold fillParent createNumberIndex at hindex
      rw [hnumbers] at hindex
      exact (Option.some.inj hindex).symm
    subst hindex'
    exact ⟨rfl, fun hne => absurd hnil hne, fun _ => ⟨rfl, rfl⟩, fun _ hnone => by cases hnone⟩
  · subst hfilled
    rfl

/-! ### A first visit returns -/

section Returns

variable {direct : Bool} {parentPath : Str} {pass : Pass}

theorem visitDocument_returns {k : ℕ} {doc : RJValue F} (hdoc : docs[k]? = some doc)
    (hseen : seenAt docs direct query parentPath k = pathAt docs path k)
    (h : (feed docs query path pass.adaptiveTrie k).isSome) :
    ∃ pass', visitDocument direct query parentPath doc k pass = some pass' := by
  have hsame : seen direct query parentPath doc = pathAt docs path k := by
    rw [← hseen, seenAt, hdoc]
    rfl
  unfold visitDocument feed at *
  rw [hsame]
  cases hval : pathAt docs path k with
  | none => exact ⟨_, rfl⟩
  | some v =>
    rw [hval] at h
    obtain ⟨trie, htrie⟩ := Option.isSome_iff_exists.mp h
    cases direct with
    | true => exact ⟨_, Option.map_eq_some_iff.mpr ⟨trie, htrie, rfl⟩⟩
    | false => exact ⟨_, Option.map_eq_some_iff.mpr ⟨trie, htrie, rfl⟩⟩

theorem foldlM_visit_returns {l : List ℕ} (hlt : ∀ k ∈ l, k < docs.length)
    (hseen : ∀ k ∈ l, seenAt docs direct query parentPath k = pathAt docs path k)
    (h : (l.foldlM (feed docs query path) pass.adaptiveTrie).isSome) :
    ∃ pass', l.foldlM (fun pass k => (docs[k]?).bind fun doc =>
      visitDocument direct query parentPath doc k pass) pass = some pass' := by
  induction l generalizing pass with
  | nil => exact ⟨pass, rfl⟩
  | cons k l ih =>
    obtain ⟨hk, hl⟩ := List.forall_mem_cons.mp hseen
    obtain ⟨hklt, hllt⟩ := List.forall_mem_cons.mp hlt
    rw [List.foldlM_cons] at h ⊢
    obtain ⟨trie, htrie⟩ := Option.isSome_iff_exists.mp h
    obtain ⟨trie₁, hfirst, hrest⟩ := Option.bind_eq_some_iff.mp htrie
    have hdoc : docs[k]? = some docs[k] := List.getElem?_eq_getElem hklt
    obtain ⟨pass₁, hpass₁⟩ := visitDocument_returns hdoc hk (Option.isSome_of_eq_some hfirst)
    have hsame := visitDocument_feed hdoc hk hpass₁
    obtain ⟨pass', hpass'⟩ := @ih pass₁ hllt hl (by
      rw [← Option.some.inj (hfirst.symm.trans hsame), hrest]
      rfl)
    refine ⟨pass', ?_⟩
    rw [hdoc, Option.bind_some, hpass₁]
    exact hpass'

theorem visitRanges_returns {R : List ℕ} (hR : Valid R) (hlt : ∀ k ∈ elements R, k < docs.length)
    (hseen : ∀ k ∈ elements R, seenAt docs direct query parentPath k = pathAt docs path k)
    (h : ((elements R).foldlM (feed docs query path) pass.adaptiveTrie).isSome) :
    ∃ pass', visitRanges docs direct query parentPath R pass = some pass' := by
  induction hR generalizing pass with
  | nil => exact ⟨pass, rfl⟩
  | @cons lo hi rest le lt tail ih =>
    obtain ⟨hrange, hrest⟩ := List.forall_mem_append.mp hseen
    obtain ⟨hrangeLt, hrestLt⟩ := List.forall_mem_append.mp hlt
    rw [elements, List.foldlM_append] at h
    obtain ⟨trie, htrie⟩ := Option.isSome_iff_exists.mp h
    obtain ⟨trie₁, hfirst, hothers⟩ := Option.bind_eq_some_iff.mp htrie
    obtain ⟨pass₁, hpass₁⟩ := foldlM_visit_returns hrangeLt hrange (Option.isSome_of_eq_some hfirst)
    have hsame := foldlM_visit_feed hrange hpass₁
    obtain ⟨pass', hpass'⟩ := @ih (endRange hi pass₁) hrestLt hrest (by
      show ((elements rest).foldlM (feed docs query path) pass₁.adaptiveTrie).isSome = true
      rw [← Option.some.inj (hfirst.symm.trans hsame), hothers]
      rfl)
    refine ⟨pass', ?_⟩
    rw [visitRanges, hpass₁]
    exact hpass'

end Returns

omit [Double F] in
/-- The strings of plain documents fill a trie. -/
theorem Plain.feed_returns (h : Plain docs query) (hcovers : Covers docs query.propertyPath R) :
    ((elements R).foldlM (feed docs query query.propertyPath)
      (match query.content with
        | .STRING _ => some { Node.root with isVirtual := false }
        | _ => none)).isSome := by
  cases hcontent : query.content with
  | STRING strValue =>
    dsimp only
    rw [foldlM_feed_string hcontent, Option.isSome_map]
    have hlists : Lists (EstimateWork.strings docs query.propertyPath)
        (.steps ((elements R).filter (isString docs query.propertyPath))) := by
      intro k
      show k ∈ (elements R).filter _ ↔ _
      rw [List.mem_filter]
      refine ⟨fun hk => hk.2, fun hk => ⟨?_, hk⟩⟩
      obtain ⟨v, hv, -⟩ := Option.bind_eq_some_iff.mp (SecondVisit.isSome_string.mp hk)
      exact hcovers.covered k v hv
    have hnonempty : ∀ k v, (EstimateWork.strings docs query.propertyPath).string k = some v →
        cString v ≠ [] := by
      intro k v hv
      refine h.strings strValue hcontent k v ?_
      unfold EstimateWork.strings at hv
      dsimp only at hv
      cases hval : pathAt docs query.propertyPath k with
      | none =>
        rw [hval] at hv
        cases hv
      | some w =>
        rw [hval] at hv
        cases w with
        | string s =>
          cases hv
          rfl
        | null | bool | number | array | object => cases hv
    obtain ⟨root, hroot, -⟩ := TrieLex.fill_forks hlists ⟨hnonempty, fun _ hfull => by cases hfull⟩
    have hsome : ((elements R).filter (isString docs query.propertyPath)).foldlM
        (step docs query.propertyPath) { Node.root with isVirtual := false } = some root := hroot
    rw [hsome]
    rfl
  | BOOL | INT | NONE =>
    dsimp only
    rw [foldlM_feed_other (by rw [hcontent]; exact fun _ heq => by cases heq)]
    rfl

/-- The numbers that are indexed fill a histogram. -/
theorem fillNode_returns {pass : Pass} (hmeets : FirstMeets docs query node parentNode parentDocRangeNode)
    (hpass : firstVisit docs query node parentNode parentDocRangeNode = some pass) :
    ∃ filled, fillNode pass.node pass.adaptiveTrie node = some filled := by
  unfold fillNode createNumberIndex
  cases hunsupported : pass.node.numbers.unsupportedDouble with
  | true => exact ⟨_, rfl⟩
  | false =>
    cases hvalues : pass.node.numbers.numberValues with
    | none => exact ⟨_, rfl⟩
    | some values =>
      obtain ⟨hof, hrecorded⟩ := hmeets.numbersOf hpass hunsupported
      obtain ⟨hvalid, hmem⟩ := hmeets.exact hpass .number
      obtain ⟨built, hbuilt, -⟩ := hof.split hvalid hmem
      have hsplit : initialSplitWithValues values 100 (pairs (pass.node.ranges.documents .number))
          pass.node.numbers.intMin pass.node.numbers.intMax = some built := by
        rw [hrecorded values hvalues, initialSplitWithValues_eq]
        exact hbuilt
      simp only [Bool.false_eq_true, if_false]
      exact ⟨_, Option.map_eq_some_iff.mpr ⟨_, Option.map_eq_some_iff.mpr
        ⟨_, Option.map_eq_some_iff.mpr ⟨built, hsplit, rfl⟩, rfl⟩, rfl⟩⟩

/-- **The first visit of plain documents returns.** -/
theorem Plain.first_returns (h : Plain docs query) (hsize : docs ≠ []) (hbelow : Below query us token)
    (hnodes : Nodes docs query us node parentNode parentDocRangeNode) :
    ∃ result node' parentNode', getDocumentsFirst docs query node parentNode parentDocRangeNode =
      some (result, node', parentNode') := by
  have hmeets := h.firstMeets hsize hbelow hnodes
  have hpass : ∃ pass, firstVisit docs query node parentNode parentDocRangeNode = some pass := by
    refine visitRanges_returns hmeets.valid hnodes.covers.lt hmeets.seen ?_
    rw [hnodes.trie]
    exact h.feed_returns hnodes.covers
  obtain ⟨pass, hpass⟩ := hpass
  obtain ⟨filled, hfilled⟩ := fillNode_returns hmeets hpass
  unfold getDocumentsFirst
  rw [hpass, Option.bind_some, hfilled]
  exact ⟨_, _, _, rfl⟩

/-! ### The first visit of a path -/

/-- **The answer is right** for the documents about which first and later visits agree, where the index
takes the query for what it says. -/
def Right (docs : List (RJValue F)) (query : AdaptiveIndexQuery) (result : Finset ℕ) : Prop :=
  ∀ k, ¬ Disagrees query (pathAt docs query.propertyPath k) →
    SecondVisit.Told query (pathAt docs query.propertyPath k) →
    (k ∈ result ↔ k < docs.length ∧
      (pathAt docs query.propertyPath k).any (satisfies query) = true)

/-- The node that `buildAndGetParentDocRange` found: the root, or one above the path. -/
structure Found (us : List Str) (index : ReverseIndex) (found : UnionTreeNode) : Prop where
  there : index found.jsonPath = some found
  near : found.jsonPath = slash ∨ ∃ vs, vs ≠ [] ∧ vs <+: us ∧ found.jsonPath = joined vs ∧
    found.relevantDocumentsCalculated = true

variable {index : ReverseIndex} {found : UnionTreeNode}

omit [Double F] in
/-- A node that is held has lost nothing but indexes. -/
theorem held_left (memory : Freed) (h : index node.jsonPath = some node) :
    ∃ gone : Ensured, held (memory.left index) node = gone.left node := by
  unfold held
  cases hleft : memory.left index node.jsonPath with
  | none => exact ⟨⟨true, []⟩, rfl⟩
  | some left =>
    obtain ⟨before, hbefore, gone, rfl⟩ := left_cases memory hleft
    obtain rfl := Option.some.inj (hbefore.symm.trans h)
    exact ⟨gone, rfl⟩

omit [Double F] in
/-- The object ranges of the node that was found cover the path and all that is between. -/
theorem Found.covers (h : Found us index found) (hinv : Inv docs index) (hsize : docs ≠ [])
    (hplain : Plain docs query) (hbelow : Below query us token) {ws vs : List Str}
    (hpath : us ++ [token] = ws ++ vs)
    (hws : ∀ above, above <+: us → found.jsonPath = joined above → above <+: ws ∧ above ≠ ws) :
    Covers docs (joined ws) (found.documents .object) := by
  have hnode := hinv _ _ h.there
  by_cases hroot : found.jsonPath = slash
  · rw [(hnode.root hroot).2]
    exact covers_all hsize
  · obtain ⟨above, hne, habove, hfound, hcalculated⟩ := h.near.resolve_left hroot
    obtain ⟨⟨rest, rfl⟩, hother⟩ := hws above habove hfound
    have hexact := (hnode.indexed hroot hcalculated).ranges
    rw [hfound] at hexact
    have hslashes := hbelow.slashes
    rw [hpath] at hslashes
    have hzero := hbelow.zero
    rw [hbelow.path, hpath, joined_append, List.mem_append, not_or] at hzero
    exact hplain.covers_objects (by rw [hbelow.path, hpath]) hne (fun hnil => hother (by simp [hnil]))
      (fun name hname => hslashes name (List.mem_append_left _ hname)) hzero.1 hexact

omit [Double F] in
theorem Found.nodes (h : Found us index found) (hinv : Inv docs index) (hsize : docs ≠ [])
    (hplain : Plain docs query) (hbelow : Below query us token)
    (hnode : index query.propertyPath = some node) (hnew : node.relevantDocumentsCalculated = false)
    (hparent : (index (joined us)).getD found = parentNode)
    (hthere : us ≠ [] → (index (joined us)).isSome) :
    Nodes docs query us node parentNode found := by
  have hat := hinv _ _ hnode
  refine ⟨hat.jsonPath, (hat.new hnew).1, (hat.new hnew).2, ?_, fun hother => ?_⟩
  · rw [hbelow.path]
    refine h.covers hinv hsize hplain hbelow (List.append_nil _).symm fun above habove _ => ?_
    refine ⟨habove.trans (List.prefix_append _ _), fun heq => ?_⟩
    have hlength := habove.length_le
    rw [heq, List.length_append, List.length_singleton] at hlength
    omega
  · have hus : us ≠ [] := fun hnil => by
      subst hnil
      cases hroot : index (joined []) with
      | none =>
        rw [hroot] at hparent
        exact hother (hparent ▸ rfl)
      | some root => cases (hinv _ _ hroot).starts
    obtain ⟨parent, hindex⟩ := Option.isSome_iff_exists.mp (hthere hus)
    rw [hindex] at hparent
    obtain rfl : parent = parentNode := hparent
    have hjson := (hinv _ _ hindex).jsonPath
    refine ⟨hus, hjson, h.covers hinv hsize hplain hbelow rfl fun above habove hfound => ?_⟩
    exact ⟨habove, fun heq => hother (by rw [hjson, hfound, heq])⟩

omit [Double F] in
/-- Indexes that are removed do not matter. -/
theorem Nodes.left (h : Nodes docs query us node parentNode found) (a b c : Ensured) :
    Nodes docs query us (a.left node) (b.left parentNode) (c.left found) := by
  refine ⟨?_, ?_, ?_, ?_, ?_⟩
  · rw [SecondVisit.left_jsonPath, h.path]
  · rw [SecondVisit.left_eq]
    simp [h.trie]
  · rw [SecondVisit.left_eq]
    simp [h.numbers]
  · rw [SecondVisit.left_documents]
    exact h.covers
  · rw [SecondVisit.left_jsonPath, SecondVisit.left_jsonPath, SecondVisit.left_documents]
    exact h.parent

/-- What is written of the nodes after a first visit. -/
theorem first_kept (h : getDocumentsFirst docs query node parentNode found =
    some (result, node', parentNode')) : node'.relevantDocumentsCalculated = true ∧
      (parentNode.jsonPath = found.jsonPath → parentNode' = parentNode) := by
  obtain ⟨pass, hpass, hfill⟩ := Option.bind_eq_some_iff.mp h
  obtain ⟨filled, hfilled, hres⟩ := Option.map_eq_some_iff.mp hfill
  obtain ⟨-, hres⟩ := Prod.mk.inj hres
  obtain ⟨rfl, rfl⟩ := Prod.mk.inj hres
  obtain ⟨index, -, rfl⟩ := Option.map_eq_some_iff.mp hfilled
  exact ⟨rfl, fun hdirect => if_pos (beq_iff_eq.mpr hdirect)⟩

/-- **The first visit of a path** of plain documents returns, keeps the invariant, and answers rightly. -/
theorem visitFirst_spec {call : Call} (hinv : Inv docs index) (hsize : docs ≠ [])
    (hcreated : Created call.query) (hplain : Plain docs call.query) (hbelow : Below call.query us token)
    (hroot : call.query.propertyPath ≠ slash) (hfound : Found us index found)
    (hnode : index call.query.propertyPath = some node) (hnew : node.relevantDocumentsCalculated = false)
    (hparent : (index (joined us)).getD found = parentNode)
    (hthere : us ≠ [] → (index (joined us)).isSome) :
    ∃ answer index', visitFirst docs call node parentNode found index = some (answer, index') ∧
      Inv docs index' ∧ ∀ result, answer = some result → Right docs call.query result := by
  have hleft := hinv.left call.visit
  unfold visitFirst
  dsimp only
  split_ifs with henough
  · have hnodes := hfound.nodes hinv hsize hplain hbelow hnode hnew hparent hthere
    -- the parent and the node that was found are in the map, too
    have hparentThere : index parentNode.jsonPath = some parentNode := by
      cases hindex : index (joined us) with
      | none =>
        rw [hindex] at hparent
        exact hparent ▸ hfound.there
      | some parent =>
        rw [hindex] at hparent
        obtain rfl : parent = parentNode := hparent
        rw [(hinv _ _ hindex).jsonPath]
        exact hindex
    have hnodePath := hnodes.path
    obtain ⟨a, ha⟩ := held_left call.visit (hnodePath ▸ hnode)
    obtain ⟨b, hb⟩ := held_left call.visit hparentThere
    obtain ⟨c, hc⟩ := held_left call.visit hfound.there
    have hheld := hnodes.left a b c
    rw [ha, hb, hc]
    obtain ⟨result, node', parentNode', hvisit⟩ := hplain.first_returns hsize hbelow hheld
    have hmeets := hplain.firstMeets hsize hbelow hheld
    obtain ⟨hindexed, hpath⟩ := SecondVisit.first_indexed hmeets hvisit
    obtain ⟨hcalculated, hdirect⟩ := first_kept hvisit
    rw [hvisit]
    refine ⟨some result, _, rfl, Inv.put (Inv.put hleft ?_) ?_, ?_⟩
    · have hat := (hinv _ _ hparentThere).left b
      by_cases hsame : (b.left parentNode).jsonPath = (c.left found).jsonPath
      · rw [hdirect hsame, hat.jsonPath]
        exact hat
      · obtain ⟨hus, hjson, -⟩ := hheld.parent hsame
        rw [SecondVisit.left_jsonPath] at hjson
        have hother : parentNode.jsonPath ≠ slash := fun hslash => by
          -- the only path above is the root
          have hfoundPath : found.jsonPath = slash := by
            rcases hfound.near with h | ⟨vs, hne, hvs, h, -⟩
            · exact h
            · rw [hjson] at hslash
              rw [eq_of_joined_slash hslash] at hvs
              obtain ⟨name, vs, rfl⟩ := List.exists_cons_of_ne_nil hne
              obtain ⟨rfl, hnil⟩ := List.cons_prefix_cons.mp hvs
              rw [h, List.prefix_nil.mp hnil]
              rfl
          exact hsame (by rw [SecondVisit.left_jsonPath, SecondVisit.left_jsonPath, hslash, hfoundPath])
        have htrie : ∀ root, (b.left parentNode).adaptiveTrie = some root →
            SecondVisit.TrieOf (EstimateWork.strings docs (joined us)) root := fun root htrie => by
          cases hparentCalculated : (b.left parentNode).relevantDocumentsCalculated with
          | true =>
            have hold := (hat.indexed hother hparentCalculated).trie root htrie
            rw [SecondVisit.left_jsonPath, hjson] at hold
            exact hold
          | false =>
            rw [(hat.new hparentCalculated).1] at htrie
            cases htrie
        obtain ⟨hparentIndexed, hparentPath, hparentCalculated⟩ :=
          hplain.parent_indexed hsize hbelow hheld hsame htrie hvisit
        refine ⟨rfl, ?_, fun h => ?_, fun _ _ => hparentIndexed, fun h => ?_⟩
        · rw [hparentPath]
          exact head_joined hus
        · exact absurd (hjson.trans (hparentPath.symm.trans h)) hother
        · rw [hparentCalculated] at h
          cases h
    · refine ⟨rfl, ?_, fun h => ?_, fun _ _ => hindexed, fun h => ?_⟩
      · rw [hpath, hbelow.path]
        exact head_joined (by simp)
      · exact absurd (hpath.symm.trans h) hroot
      · rw [hcalculated] at h
        cases h
    · rintro _ ⟨rfl⟩ k hk htold
      rw [SecondVisit.first_answer hmeets hvisit k, (SecondVisit.wantsFirst_iff hcreated _).mpr hk,
        SecondVisit.wants_eq hcreated htold]
  · exact ⟨none, _, rfl, hleft, fun _ h => by cases h⟩

/-! ### A later visit of a path -/

omit [Double F] in
theorem left_calculated (memory : Ensured) (node : UnionTreeNode) :
    (memory.left node).relevantDocumentsCalculated = node.relevantDocumentsCalculated := by
  rw [SecondVisit.left_eq]

omit [Double F] in
/-- The ranges of a visited node stay known. -/
theorem second_kept {memory : Ensured} {splitted : Bool} {fuel : ℕ} {answer : Option (Finset ℕ)}
    (h : SecondVisit.getDocumentsSecond docs query memory splitted node fuel = some (answer, node')) :
    node'.relevantDocumentsCalculated = node.relevantDocumentsCalculated := by
  have hstrings : ∀ {strValue : Str}, SecondVisit.getStrings docs query.cmpType strValue memory node =
      some (answer, node') → node'.relevantDocumentsCalculated = node.relevantDocumentsCalculated := by
    intro strValue h
    unfold SecondVisit.getStrings at h
    split_ifs at h
    · obtain ⟨root, -, h⟩ := Option.bind_eq_some_iff.mp h
      obtain ⟨found, -, h⟩ := Option.map_eq_some_iff.mp h
      obtain ⟨-, rfl⟩ := Prod.mk.inj h
      exact left_calculated memory node
    · obtain ⟨-, rfl⟩ := Prod.mk.inj (Option.some.inj h)
      exact left_calculated memory node
  have hnumbers : ∀ {intVal : ℤ}, SecondVisit.getNumbers docs query.cmpType intVal memory splitted node
      fuel = some (answer, node') →
        node'.relevantDocumentsCalculated = node.relevantDocumentsCalculated := by
    intro intVal h
    unfold SecondVisit.getNumbers at h
    split_ifs at h
    · obtain ⟨-, rfl⟩ := Prod.mk.inj (Option.some.inj h)
      rfl
    · obtain ⟨index, -, h⟩ := Option.bind_eq_some_iff.mp h
      obtain ⟨histogram, -, h⟩ := Option.bind_eq_some_iff.mp h
      obtain ⟨found, -, h⟩ := Option.map_eq_some_iff.mp h
      obtain ⟨-, rfl⟩ := Prod.mk.inj h
      exact left_calculated memory node
    · obtain ⟨-, rfl⟩ := Prod.mk.inj (Option.some.inj h)
      exact left_calculated memory node
  have hnow : ∀ {a : Option (Finset ℕ)}, some (a, node) = some (answer, node') →
      node'.relevantDocumentsCalculated = node.relevantDocumentsCalculated := by
    intro a h
    obtain ⟨-, rfl⟩ := Prod.mk.inj (Option.some.inj h)
    rfl
  unfold SecondVisit.getDocumentsSecond at h
  cases hfunction : query.functionType <;> cases hcontent : query.content <;>
    rw [hfunction, hcontent] at h <;> first | exact hnow h | exact hstrings h | exact hnumbers h

theorem visitSecond_spec {call : Call} (hinv : Inv docs index) (hcreated : Created call.query)
    (hroot : call.query.propertyPath ≠ slash) (hnode : index call.query.propertyPath = some node)
    (hcalculated : node.relevantDocumentsCalculated = true)
    (hmeets : SecondVisit.Meets docs node
      ⟨call.query, call.visit.ofPath call.query.propertyPath, call.splitted⟩) :
    ∃ answer index', Returns (visitSecond docs call node index) (answer, index') ∧ Inv docs index' ∧
      ∀ result, answer = some result → Right docs call.query result := by
  have hat := hinv _ _ hnode
  obtain ⟨answer, node', hreturns, hindexed, hpath, hwanted⟩ :=
    SecondVisit.visit_spec hcreated (hat.indexed hroot hcalculated) hmeets
  have hkept : node'.relevantDocumentsCalculated = true := by
    obtain ⟨n, hn⟩ := hreturns
    rw [second_kept (hn n le_rfl), hcalculated]
  have hjson : node'.jsonPath = call.query.propertyPath := hpath.trans hat.jsonPath
  refine ⟨answer, put node' (call.visit.left index), ?_, Inv.put (hinv.left call.visit) ?_, ?_⟩
  · unfold visitSecond
    rw [hat.jsonPath]
    exact hreturns.map fun r => (r.1, put r.2 (call.visit.left index))
  · refine ⟨rfl, hjson ▸ hat.starts, fun h => absurd (hjson.symm.trans h) hroot, fun _ _ => hindexed,
      fun h => ?_⟩
    rw [hkept] at h
    cases h
  · intro result hresult k _ htold
    have := hwanted result hresult k
    rwa [hat.jsonPath, SecondVisit.wants_eq hcreated htold] at this

/-! ### A query -/

/-- **The condition on a call.** The path is below the root, and no zero byte cuts it; for a first visit
the documents are plain, and a later visit meets its own condition. -/
structure CallMeets (docs : List (RJValue F)) (index : ReverseIndex) (call : Call) : Prop where
  created : Created call.query
  starts : call.query.propertyPath.head? = some 47
  root : call.query.propertyPath ≠ slash
  zero : (0 : UInt8) ∉ call.query.propertyPath
  first : calculated index call.query.propertyPath = none → Plain docs call.query
  later : ∀ node, calculated index call.query.propertyPath = some node → SecondVisit.Meets docs node
    ⟨call.query, call.visit.ofPath call.query.propertyPath, call.splitted⟩

omit [Double F] in
theorem calculated_eq_some {path : Str} : calculated index path = some node ↔
    index path = some node ∧ node.relevantDocumentsCalculated = true := Option.filter_eq_some_iff

omit [Double F] in
/-- **The nodes on the way** after `buildAndGetParentDocRange`: the node of the path is new. -/
theorem build_spec {memory : Freed} (hinv : Inv docs index) (hsize : docs ≠ [])
    (hint : docs.length < 2 ^ 31) (hbelow : Below query us token) (hroot : query.propertyPath ≠ slash)
    (hnew : calculated index query.propertyPath = none) (henough : memory.enough = true) :
    ∃ found index', buildAndGetParentDocRange query.propertyPath docs.length memory index =
        (some found, index') ∧ Inv docs index' ∧ Found us index' found ∧
      (us ≠ [] → (index' (joined us)).isSome) ∧
      ∃ node, index' query.propertyPath = some node ∧ node.relevantDocumentsCalculated = false := by
  have hleft := hinv.left memory
  unfold buildAndGetParentDocRange
  rw [if_pos henough, hbelow.path, splitSlash_of_joined hbelow.slashes, ← hbelow.path]
  generalize hstart : ((memory.left index) slash).getD
    (setRootDocuments (totalDocs docs.length) (.unvisited slash)) = root
  have hrootAt : NodeAt docs slash root := by
    cases hold : memory.left index slash with
    | none =>
      rw [hold] at hstart
      exact hstart ▸ nodeAt_root hsize hint
    | some old =>
      rw [hold] at hstart
      exact hstart ▸ hleft _ _ hold
  have hbuilt : Built docs [] (us ++ [token]) root
      (Function.update (memory.left index) slash (some root)) _ _ :=
    buildNodes_spec _ _ _ (hleft.update hrootAt) (by rw [Function.update_self]; rfl)
  generalize hr : buildNodes (us ++ [token]) (joined [] ++ slash) root
    (Function.update (memory.left index) slash (some root)) = r at hbuilt
  -- the node of the path is not calculated
  obtain ⟨node, hnode⟩ :=
    Option.isSome_iff_exists.mp (hbuilt.there (us ++ [token]) (by simp) List.prefix_rfl)
  rw [List.nil_append, ← hbelow.path] at hnode
  have hnodeNew : node.relevantDocumentsCalculated = false := by
    rcases hbuilt.made _ _ hnode with hold | ⟨-, rfl⟩
    · rw [Function.update_of_ne hroot] at hold
      obtain ⟨before, hbefore, gone, rfl⟩ := left_cases memory hold
      rw [left_calculated]
      by_contra hne
      have := calculated_eq_some.mpr ⟨hbefore, Bool.not_eq_false _ ▸ hne⟩
      rw [hnew] at this
      cases this
    · rfl
  refine ⟨r.1, r.2, by rw [← hr]; rfl, hbuilt.inv, ?_, fun hus => ?_, node, hnode, hnodeNew⟩
  · rcases hbuilt.near with heq | ⟨vs, hne, hvs, hfound, hcalculated⟩
    · rw [heq]
      refine ⟨?_, .inl hrootAt.jsonPath⟩
      rw [hrootAt.jsonPath]
      exact hbuilt.keeps _ _ (Function.update_self ..)
    · rw [List.nil_append] at hfound
      have hjson := (hbuilt.inv _ _ hfound).jsonPath
      refine ⟨hjson ▸ hfound, .inr ⟨vs, hne, ?_, hjson, hcalculated⟩⟩
      rcases List.prefix_concat_iff.mp hvs with rfl | hvs
      · rw [← hbelow.path, hnode] at hfound
        rw [Option.some.inj hfound, hcalculated] at hnodeNew
        cases hnodeNew
      · exact hvs
  · have := hbuilt.there us hus (List.prefix_append _ _)
    rwa [List.nil_append] at this

/-- A path below the root has a last token. -/
theorem exists_below (hstarts : query.propertyPath.head? = some 47)
    (hzero : (0 : UInt8) ∉ query.propertyPath) : ∃ us token, Below query us token := by
  obtain ⟨tokens, hpath, -, hne, hslashes⟩ := exists_tokens hstarts
  obtain ⟨us, token, rfl⟩ := (List.eq_nil_or_concat tokens).resolve_left hne
  rw [List.concat_eq_append] at hpath hslashes
  exact ⟨us, token, hpath, hslashes, hzero⟩

/-- The manager between calls: the nodes, and results that are right. -/
structure ManagerInv (docs : List (RJValue F)) (m : Manager) : Prop where
  nodes : Inv docs m.reverseIndex
  results : ∀ query result, (query, some result) ∈ m.cachedResults → Right docs query result

/-- What a call does: it returns, the invariant is kept, and an answer that is not the null pointer is
right. -/
def Answered (docs : List (RJValue F)) (call : Call) (m : Manager) : Prop :=
  ∃ answer m', Returns (executeQuery docs call m) (answer, m') ∧ ManagerInv docs m' ∧
    ∀ result, answer = some result → Right docs call.query result

/-- A result joins the cache. -/
theorem ManagerInv.visited {m : Manager} {call : Call} (h : ManagerInv docs m)
    (hcache : getCacheResult call.query m.cachedResults = none)
    (visited : ℕ → Option (Option (Finset ℕ) × ReverseIndex))
    (hvisit : ∀ fuel, visitNode docs call m.reverseIndex fuel = .inl (visited fuel))
    (hreturns : ∃ answer index', Returns visited (answer, index') ∧ Inv docs index' ∧
      ∀ result, answer = some result → Right docs call.query result) : Answered docs call m := by
  obtain ⟨answer, index', hreturns, hinv, hright⟩ := hreturns
  refine ⟨answer, ⟨index', m.cachedResults ++ [(call.query, answer)]⟩, ?_, ⟨hinv, ?_⟩, hright⟩
  · unfold executeQuery
    rw [hcache]
    simp only [hvisit]
    exact hreturns.map fun r => (r.1, (⟨r.2, m.cachedResults ++ [(call.query, r.1)]⟩ : Manager))
  · intro query result hmem
    rcases List.mem_append.mp hmem with hold | hlast
    · exact h.results query result hold
    · obtain ⟨rfl, heq⟩ := Prod.mk.inj (List.mem_singleton.mp hlast)
      exact hright result heq.symm

/-- **A call of `executeQuery`.** -/
theorem executeQuery_spec {call : Call} {m : Manager} (h : ManagerInv docs m) (hsize : docs ≠ [])
    (hint : docs.length < 2 ^ 31) (hmeets : CallMeets docs m.reverseIndex call) : Answered docs call m := by
  cases hcache : getCacheResult call.query m.cachedResults with
  | some result =>
    refine ⟨some result, m, ⟨0, fun fuel _ => ?_⟩, h, ?_⟩
    · unfold executeQuery
      rw [hcache]
    · rintro _ ⟨rfl⟩
      obtain ⟨found, hfound, hresult⟩ := Option.bind_eq_some_iff.mp hcache
      obtain ⟨query, found⟩ := found
      have hfirst := List.find?_some hfound
      have hquery : call.query = query := beq_iff_eq.mp hfirst
      obtain rfl : found = some result := hresult
      exact hquery ▸ h.results query result (List.mem_of_find?_eq_some hfound)
  | none =>
    cases hcalculated : calculated m.reverseIndex call.query.propertyPath with
    | some node =>
      obtain ⟨hnode, hknown⟩ := calculated_eq_some.mp hcalculated
      refine h.visited hcache (visitSecond docs call node m.reverseIndex) (fun fuel => ?_)
        (visitSecond_spec h.nodes hmeets.created hmeets.root hnode hknown (hmeets.later node hcalculated))
      unfold visitNode
      rw [hcalculated]
    | none =>
      obtain ⟨us, token, hbelow⟩ := exists_below hmeets.starts hmeets.zero
      cases henough : call.build.enough with
      | false =>
        refine ⟨none, ⟨call.build.left m.reverseIndex, m.cachedResults⟩, ⟨0, fun fuel _ => ?_⟩,
          ⟨h.nodes.left call.build, h.results⟩, fun _ hnone => by cases hnone⟩
        unfold executeQuery visitNode buildAndGetParentDocRange
        rw [hcache, hcalculated]
        simp only [henough, Bool.false_eq_true, if_false]
      | true =>
        obtain ⟨found, index', hbuild, hinv, hfound, hthere, node, hnode, hnew⟩ :=
          build_spec h.nodes hsize hint hbelow hmeets.root hcalculated henough
        obtain ⟨answer, index'', hvisit, hkept, hright⟩ := visitFirst_spec hinv hsize hmeets.created
          (hmeets.first hcalculated) hbelow hmeets.root hfound hnode hnew rfl hthere
        refine h.visited hcache (fun _ => visitFirst docs call node
          ((index' (joined us)).getD found) found index') (fun fuel => ?_)
          ⟨answer, index'', ⟨0, fun _ _ => hvisit⟩, hkept, hright⟩
        unfold visitNode
        rw [hcalculated]
        simp only [hbuild, hbelow.parentPath.1, hnode, Option.bind_some, hnew, Bool.false_eq_true, if_false]

/-! ### Runs -/

/-- What happens: a query, or a new `DataContext`. -/
inductive Event where
  | call (c : Call)
  | context

/-- An event takes place. -/
def Step (docs : List (RJValue F)) : Event → Manager → Manager → Prop
  | .call c, m, m' => ∃ answer, Returns (executeQuery docs c m) (answer, m')
  | .context, m, m' => m' = ⟨m.reverseIndex, []⟩

/-- At first there is no node. -/
def Init (m : Manager) : Prop := m = ⟨fun _ => none, []⟩

def EventMeets (docs : List (RJValue F)) (m : Manager) : Event → Prop
  | .call c => CallMeets docs m.reverseIndex c
  | .context => True

/-- A query returns, and an answer that is not the null pointer is right. -/
def Exactly (docs : List (RJValue F)) (m : Manager) : Event → Prop
  | .call c => ∃ answer m', Returns (executeQuery docs c m) (answer, m') ∧
      ∀ result, answer = some result → Right docs c.query result
  | .context => True

theorem init_inv {m : Manager} (h : Init m) : ManagerInv docs m := by
  subst h
  exact ⟨fun _ _ hnode => absurd hnode (by simp), fun _ _ hmem => absurd hmem List.not_mem_nil⟩

theorem step_inv {e : Event} {m m' : Manager} (hsize : docs ≠ []) (hint : docs.length < 2 ^ 31)
    (h : ManagerInv docs m) (hmeets : EventMeets docs m e) (hs : Step docs e m m') :
    ManagerInv docs m' := by
  cases e with
  | call c =>
    obtain ⟨answer, hreturns⟩ := hs
    obtain ⟨answer', m'', hreturns', hinv, -⟩ := executeQuery_spec h hsize hint hmeets
    obtain ⟨-, rfl⟩ := Prod.mk.inj (hreturns'.unique hreturns)
    exact hinv
  | context =>
    obtain rfl : m' = ⟨m.reverseIndex, []⟩ := hs
    exact ⟨h.nodes, fun _ _ hmem => by cases hmem⟩

theorem exactly_of_meets {e : Event} {m : Manager} (hsize : docs ≠ []) (hint : docs.length < 2 ^ 31)
    (h : ManagerInv docs m) (hmeets : EventMeets docs m e) : Exactly docs m e := by
  cases e with
  | call c =>
    obtain ⟨answer, m', hreturns, -, hright⟩ := executeQuery_spec h hsize hint hmeets
    exact ⟨answer, m', hreturns, hright⟩
  | context => trivial

/-- **The adaptive index over whole runs.** Whatever was asked, removed and cached before, a query that
meets its condition finds all nodes and documents it looks at, and an answer that is not the null pointer
is right: on the documents about which first and later visits agree and where the index takes the query for
what it says. -/
theorem run_exact {past : List (Manager × Event)} {m : Manager} (hsize : docs ≠ [])
    (hint : docs.length < 2 ^ 31) (hrun : Run Init (Step docs) past m)
    (hmeets : ∀ p ∈ past, EventMeets docs p.1 p.2) :
    (∀ p ∈ past, Exactly docs p.1 p.2) ∧ ∀ e, EventMeets docs m e → Exactly docs m e := by
  obtain ⟨hm, hpast⟩ := hrun.invariant (ManagerInv docs) (EventMeets docs) (fun _ h => init_inv h)
    (fun _ _ _ h hmeets hs => step_inv hsize hint h hmeets hs) hmeets
  exact ⟨fun p hp => exactly_of_meets hsize hint (hpast p hp) (hmeets p hp),
    fun e he => exactly_of_meets hsize hint hm he⟩

/-! ### Two strings -/

/-- Whether `/a` exists; then which documents have the first string there, while the number index goes. -/
def callExists : Call := ⟨existsQuery, ⟨true, []⟩, ⟨true, []⟩, by simp, false⟩

def callX : Call :=
  ⟨equalsX, ⟨true, []⟩, ⟨true, [(ascii "/a", .NumberIndexData)]⟩, by simp, false⟩

def unused : Manager := ⟨fun _ => none, []⟩

def afterExists : Manager := ((executeQuery twoStrings callExists unused 0).get rfl).2

theorem run_afterExists : Run Init (Step twoStrings) [(unused, .call callExists)] afterExists :=
  .step (.start rfl) ⟨_, 0, fun _ _ => rfl⟩

theorem plain_exists : Plain twoStrings existsQuery := by
  have harrays : ∀ k, isArray (pathAt twoStrings (ascii "/a") k) = false
    | 0 | 1 | _ + 2 => rfl
  refine ⟨by decide, harrays, fun above rest hpath hne => ?_, .inr ⟨fun p hp k _ _ _ => harrays _, ?_, ?_⟩,
    fun _ h => by cases h⟩
  · obtain ⟨c, above, rfl⟩ := List.exists_cons_of_ne_nil hne
    have htail : ascii "a" = above ++ 47 :: rest := List.tail_eq_of_cons_eq hpath
    have hslash : (47 : UInt8) ∉ ascii "a" := by decide
    rw [htail] at hslash
    exact absurd (List.mem_append_right _ List.mem_cons_self) hslash
  · trivial
  · intro least greatest hends
    obtain ⟨e, he, -⟩ := hends.least
    cases he

theorem exists_meets : ∀ p ∈ [(unused, Event.call callExists)], EventMeets twoStrings p.1 p.2 := by
  refine List.forall_mem_singleton.mpr ⟨.function (by simp) (by simp), rfl, by decide, by decide,
    fun _ => plain_exists, fun _ h => by cases h⟩

/-- The node of `/a` has the ranges of the strings, and no trie. -/
theorem node_afterExists : (calculated afterExists.reverseIndex (ascii "/a")).any (fun node =>
    node.jsonPath == ascii "/a" && node.adaptiveTrie.isNone &&
      node.documents .string == [0, 1]) = true := by
  decide +kernel

theorem callX_meets : EventMeets twoStrings afterExists (.call callX) := by
  obtain ⟨node, hnode, hfacts⟩ := (Option.any_eq_true _ _).mp node_afterExists
  rw [Bool.and_eq_true, Bool.and_eq_true] at hfacts
  obtain ⟨⟨hpath, htrie⟩, hstrings⟩ := hfacts
  have hpath' : callX.query.propertyPath = ascii "/a" := rfl
  refine ⟨.string, rfl, by decide, by decide, fun h => ?_, fun node' h => ?_⟩
  · cases hnode.symm.trans h
  · obtain rfl := Option.some.inj (hnode.symm.trans h)
    exact SecondVisit.equalsX_meets (beq_iff_eq.mp hpath) (Option.isNone_iff_eq_none.mp htrie)
      (beq_iff_eq.mp hstrings)

theorem run_exact_removed : Exactly twoStrings afterExists (.call callX) := by
  have hsize : twoStrings ≠ [] := List.cons_ne_nil _ _
  have hint : twoStrings.length < 2 ^ 31 := by decide
  exact (run_exact hsize hint run_afterExists exists_meets).2 (.call callX) callX_meets

end Joda.Index.IndexManager
