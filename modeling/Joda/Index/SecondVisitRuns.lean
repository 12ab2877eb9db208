import Joda.Index.SecondVisit

/-! # The visits of a path

A first visit, any later visits, and removals of indexes in between. The first visit leaves a node with
exact ranges and right indexes (`first_visit`), later visits keep it and answer exactly (`later_visits`).
The first visit answers some queries otherwise than the later ones (`Disagrees`): it keeps only strings
for an inequality of strings, and takes strings that name the type for a query of the type. -/

namespace Joda.Index.SecondVisit

open Joda.Values.Value Joda.Values.PointerSet Joda.Values.Provider Joda.Lib.Ranges Joda.Lib.Runs
open Joda.Lib.Fuel Joda.Index.Query Joda.Index.Trie Joda.Index.TrieInvariant Joda.Index.TrieRuns
open Joda.Index.TrieLex Joda.Index.Histogram Joda.Index.FirstVisit Joda.Index.EstimateWork
open Joda.Index.MemoryManager

variable {F : Type} [Double F] {docs : List (RJValue F)} {path : Str}

/-! ### Runs of later visits -/

/-- What happens to a node that was visited. -/
inductive Event where
  | visit (v : Visit)
  | remove (t : ManagedDataType)

/-- A visit returns; a removal by a query of another path comes in between. -/
def Step (docs : List (RJValue F)) : Event → UnionTreeNode → UnionTreeNode → Prop
  | .visit v, node, node' => ∃ answer, Returns (v.run docs node) (answer, node')
  | .remove t, node, node' => node' = removeElement node t

/-- **The condition on an event.** -/
def EventMeets (docs : List (RJValue F)) (node : UnionTreeNode) : Event → Prop
  | .visit v => Created v.query ∧ Meets docs node v
  | .remove _ => True

/-- A visit returns, and an answer that is not the null pointer is exact. -/
def Exactly (docs : List (RJValue F)) (path : Str) (node : UnionTreeNode) : Event → Prop
  | .visit v => ∃ answer node', Returns (v.run docs node) (answer, node') ∧
      ∀ result, answer = some result → Answers docs path v.query result
  | .remove _ => True

omit [Double F] in
theorem Indexed.remove {node : UnionTreeNode} (h : Indexed docs node) (t : ManagedDataType) :
    Indexed docs (removeElement node t) ∧ (removeElement node t).jsonPath = node.jsonPath :=
  ⟨h.left ⟨true, [t]⟩, left_jsonPath ⟨true, [t]⟩ node⟩

theorem step_indexed {e : Event} {node node' : UnionTreeNode} (h : Indexed docs node)
    (hmeets : EventMeets docs node e) (hstep : Step docs e node node') :
    Indexed docs node' ∧ node'.jsonPath = node.jsonPath := by
  cases e with
  | visit v =>
    obtain ⟨answer, hreturns⟩ := hstep
    obtain ⟨answer', node'', hreturns', hindexed, hpath, -⟩ := visit_spec hmeets.1 h hmeets.2
    obtain ⟨-, rfl⟩ := Prod.mk.inj (hreturns'.unique hreturns)
    exact ⟨hindexed, hpath⟩
  | remove t =>
    obtain rfl : node' = removeElement node t := hstep
    exact h.remove t

theorem exactly_of_meets {e : Event} {node : UnionTreeNode} (h : Indexed docs node)
    (hmeets : EventMeets docs node e) : Exactly docs node.jsonPath node e := by
  cases e with
  | visit v =>
    obtain ⟨answer, node', hreturns, -, -, hwanted⟩ := visit_spec hmeets.1 h hmeets.2
    exact ⟨answer, node', hreturns, fun result hresult => (hwanted result hresult).answers hmeets.1⟩
  | remove t => trivial

/-- The invariant along a run. -/
theorem run_indexed {start node : UnionTreeNode} {past : List (UnionTreeNode × Event)}
    (h : Indexed docs start) (hrun : Run (· = start) (Step docs) past node)
    (hmeets : ∀ p ∈ past, EventMeets docs p.1 p.2) :
    (Indexed docs node ∧ node.jsonPath = start.jsonPath) ∧
      ∀ p ∈ past, Indexed docs p.1 ∧ p.1.jsonPath = start.jsonPath := by
  refine hrun.invariant (fun node => Indexed docs node ∧ node.jsonPath = start.jsonPath)
    (EventMeets docs) ?_ ?_ hmeets
  · rintro _ rfl
    exact ⟨h, rfl⟩
  · rintro e node node' ⟨hnode, hpath⟩ hm hstep
    obtain ⟨hnode', hpath'⟩ := step_indexed hnode hm hstep
    exact ⟨hnode', hpath'.trans hpath⟩

/-! ### The answer of the first visit -/

/-- What the first visit takes: at once, or by the type. -/
def accepts (query : AdaptiveIndexQuery) (v : RJValue F) : Bool :=
  takes query v || (rangeType v).any (functionTypes query).contains

/-- What the first visit answers about a document, by its value at the path. -/
def wantsFirst (query : AdaptiveIndexQuery) (val : Option (RJValue F)) : Bool :=
  if flips query then !val.any (accepts query) else val.any (accepts query)

theorem process_result {query : AdaptiveIndexQuery} {val : Option (RJValue F)} {k : ℕ}
    {pass pass' : Pass} (h : process query val k pass = some pass') {j : ℕ} :
    j ∈ pass'.result ↔ j ∈ pass.result ∨ j = k ∧ val.any (takes query) = true := by
  cases val with
  | none =>
    obtain rfl := Option.some.inj h
    simp
  | some v =>
    obtain ⟨trie, -, rfl⟩ := Option.map_eq_some_iff.mp h
    dsimp only
    split_ifs with htakes
    · rw [Finset.mem_insert, Option.any_some, and_iff_left htakes, or_comm]
    · rw [Option.any_some, or_iff_left fun hj => htakes hj.2]

variable {direct : Bool} {query : AdaptiveIndexQuery} {parentPath : Str}

/-- The documents of one range that are taken at once. -/
theorem foldlM_result {l : List ℕ} {pass pass' : Pass}
    (h : l.foldlM (fun pass k => (docs[k]?).bind fun doc =>
      visitDocument direct query parentPath doc k pass) pass = some pass') {j : ℕ} :
    j ∈ pass'.result ↔ j ∈ pass.result ∨
      j ∈ l ∧ (seenAt docs direct query parentPath j).any (takes query) = true := by
  induction l generalizing pass with
  | nil =>
    obtain rfl := Option.some.inj h
    simp
  | cons k l ih =>
    rw [List.foldlM_cons] at h
    obtain ⟨pass₁, hstep, hrest⟩ := Option.bind_eq_some_iff.mp h
    obtain ⟨doc, hdoc, hstep⟩ := Option.bind_eq_some_iff.mp hstep
    have hseen : seenAt docs direct query parentPath k = seen direct query parentPath doc := by
      rw [seenAt, hdoc]
      rfl
    have hsame : (if direct = true then pass else
        { pass with parent := (handleValue (valueAt parentPath doc) k pass.parent).1 }).result =
          pass.result := by
      split_ifs <;> rfl
    rw [ih hrest, process_result hstep, ← hseen, hsame, List.mem_cons]
    constructor
    · rintro ((hj | ⟨rfl, htakes⟩) | ⟨hj, htakes⟩)
      · exact .inl hj
      · exact .inr ⟨.inl rfl, htakes⟩
      · exact .inr ⟨.inr hj, htakes⟩
    · rintro (hj | ⟨rfl | hj, htakes⟩)
      · exact .inl (.inl hj)
      · exact .inl (.inr ⟨rfl, htakes⟩)
      · exact .inr ⟨hj, htakes⟩

/-- **The documents taken at once**, along the ranges. -/
theorem visitRanges_result {R : List ℕ} (hR : Valid R) {pass pass' : Pass}
    (h : visitRanges docs direct query parentPath R pass = some pass') {j : ℕ} :
    j ∈ pass'.result ↔ j ∈ pass.result ∨
      j ∈ elements R ∧ (seenAt docs direct query parentPath j).any (takes query) = true := by
  induction hR generalizing pass with
  | nil =>
    obtain rfl := Option.some.inj h
    simp [elements]
  | @cons lo hi rest le lt tail ih =>
    obtain ⟨pass₁, hrange, hrest⟩ := Option.bind_eq_some_iff.mp h
    have hend : (endRange hi pass₁).result = pass₁.result := rfl
    rw [ih hrest, hend, foldlM_result hrange, elements, List.mem_append, or_assoc, or_and_right]

/-! ### What the first visit leaves -/

/-- **The condition on a first visit**: the node is new, the visit sees what is at the path, it is right,
and so is the number index where there is one. -/
structure FirstMeets (docs : List (RJValue F)) (query : AdaptiveIndexQuery)
    (node parentNode parentDocRangeNode : UnionTreeNode) : Prop where
  path : node.jsonPath = query.propertyPath
  trie : node.adaptiveTrie = none
  numbers : node.numberIndex = none
  valid : Valid (parentDocRangeNode.documents .object)
  seen : ∀ k ∈ elements (parentDocRangeNode.documents .object),
    seenAt docs (parentNode.jsonPath == parentDocRangeNode.jsonPath) query parentNode.jsonPath k =
      pathAt docs query.propertyPath k
  right : VisitRight docs (parentNode.jsonPath == parentDocRangeNode.jsonPath) query parentNode.jsonPath
    (parentDocRangeNode.documents .object)
  numbersRight : Unsupported docs query.propertyPath (parentDocRangeNode.documents .object) ∨
    NumbersRight docs query.propertyPath (parentDocRangeNode.documents .object)

variable {node parentNode parentDocRangeNode node' parentNode' : UnionTreeNode} {result : Finset ℕ}

omit [Double F] in
/-- A document whose value at the path has a type is visited. -/
theorem FirstMeets.covered (h : FirstMeets docs query node parentNode parentDocRangeNode) {k : ℕ}
    {t : RangeType} (hk : HasType (pathAt docs query.propertyPath) t k) :
    k ∈ elements (parentDocRangeNode.documents .object) := by
  obtain ⟨p, hp, j, h1, h2, h3, -⟩ := (h.right.filed t k).mpr hk
  exact (mem_elements h.valid).mpr ⟨p, hp, by omega, h3⟩

/-- No array is taken at once. -/
theorem hasType_of_takes {v : RJValue F} (h : takes query v = true) : ∃ t, rangeType v = some t := by
  cases v with
  | array vs =>
    unfold takes at h
    cases hcontent : query.content <;> rw [hcontent] at h <;> cases h
  | null | bool | number | string | object => exact ⟨_, rfl⟩

/-- **The first answer**, by the values at the path. -/
theorem first_answer (hmeets : FirstMeets docs query node parentNode parentDocRangeNode)
    (h : getDocumentsFirst docs query node parentNode parentDocRangeNode =
      some (result, node', parentNode')) (k : ℕ) :
    k ∈ result ↔ k < docs.length ∧ wantsFirst query (pathAt docs query.propertyPath k) = true := by
  have hexact : Exact docs node'.jsonPath node'.documents :=
    ((ranges_exact hmeets.path hmeets.valid h).mpr hmeets.right).1
  have hpath : node'.jsonPath = query.propertyPath :=
    (getDocumentsFirst_spec hmeets.valid h).1.trans hmeets.path
  obtain ⟨pass, hpass, hfill⟩ := Option.bind_eq_some_iff.mp h
  obtain ⟨filled, hfilled, hres⟩ := Option.map_eq_some_iff.mp hfill
  obtain ⟨hresult, hres⟩ := Prod.mk.inj hres
  obtain ⟨rfl, -⟩ := Prod.mk.inj hres
  -- before it is flipped, the answer has what is accepted
  have hset : ∀ j, j ∈ (functionTypes query).foldl
      (fun result t => setResult (filled.documents t) result) pass.result ↔
      (pathAt docs query.propertyPath j).any (accepts query) = true := by
    intro j
    have htypes : (∃ t ∈ functionTypes query, j ∈ elements (filled.documents t)) ↔
        j ∈ ofTypes filled (functionTypes query) := by
      unfold ofTypes
      rw [mem_foldl_setResult, or_iff_right (Finset.notMem_empty j)]
    rw [mem_foldl_setResult, visitRanges_result hmeets.valid hpass, or_iff_right (Finset.notMem_empty j),
      htypes, mem_ofTypes hexact, hpath]
    rw [Option.any_eq_true, Option.any_eq_true, Option.any_eq_true]
    constructor
    · rintro (⟨hj, hany⟩ | ⟨v, hv, htype⟩)
      · rw [hmeets.seen j hj] at hany
        obtain ⟨v, hv, htakes⟩ := hany
        exact ⟨v, hv, by rw [accepts, htakes]; rfl⟩
      · exact ⟨v, hv, by rw [accepts, htype, Bool.or_true]⟩
    · rintro ⟨v, hv, haccepts⟩
      rcases Bool.or_eq_true_iff.mp haccepts with htakes | htype
      · obtain ⟨t, ht⟩ := hasType_of_takes htakes
        have hj := hmeets.covered (show HasType _ t j by rw [HasType, hv]; exact ht)
        exact .inl ⟨hj, v, by rw [hmeets.seen j hj]; exact hv, htakes⟩
      · exact .inr ⟨v, hv, htype⟩
  rw [← hresult, wantsFirst]
  split_ifs with hflips
  · rw [Finset.mem_sdiff, Finset.mem_range, hset]
    simp
  · rw [hset]
    exact ⟨fun hk => ⟨lt_of_any hk, hk⟩, fun hk => hk.2⟩

/-! ### The indexes of the first visit -/

omit [Double F] in
/-- A trie that was filled step by step with the documents of the strings. -/
theorem trieOf_steps {ks : List ℕ} {root : Node}
    (hl : ∀ k, k ∈ ks ↔ HasType (pathAt docs path) .string k)
    (h : initializeSteps (strings docs path) ks = some root) : TrieOf (strings docs path) root := by
  have hlists : Lists (strings docs path) (.steps ks) := fun k => by
    rw [isSome_string]
    exact hl k
  have hnonempty : ∀ k v, (strings docs path).string k = some v → cString v ≠ [] := fun k v hv he => by
    have hnone : initializeSteps (strings docs path) ks = none := fill_throws hlists hv he
    rw [hnone] at h
    cases h
  obtain ⟨root', hroot', hforks⟩ := fill_forks hlists ⟨hnonempty, fun _ hfull => by cases hfull⟩
  obtain rfl : root' = root := Option.some.inj (hroot'.symm.trans h)
  refine ⟨hforks, fun k hk => ?_⟩
  obtain ⟨v, hv, hempty⟩ := Option.map_eq_some_iff.mp hk
  exact hnonempty k v hv hempty

omit [Double F] in
/-- The numbers of a visit that sees what is at the path. -/
theorem numbersOf_visited {R l : List ℕ} {values : Option (List ℤ)} {numbers : NumberStats}
    (hnumbers : numbers = (elements R).foldl (fun s k =>
      addSeen NumberStats.addNumber (pathAt docs path k) s) (.empty values))
    (hvalues : values = none ∨ values = some []) (hsupported : numbers.unsupportedDouble = false)
    (hR : Valid R) (hl : Valid l) (hmem : ∀ k, k ∈ elements l ↔ FiledIn (pathAt docs path) R .number k)
    (hright : NumbersRight docs path R) :
    NumbersOf docs path l ⟨path, numbers.intMin, numbers.intMax, l, none⟩ ∧
      ∀ vs, numbers.numberValues = some vs → vs = (documents (pairs l)).map (intAt docs path) := by
  have hall : ∀ k ∈ elements R, ∀ n, pathAt docs path k = some (.number n) → n.isInt64 = true :=
    fun k hk n hn => by
      by_contra hint
      have hunsupported : numbers.unsupportedDouble = true := by
        rw [hnumbers, unsupported_iff]
        exact .inr ⟨k, hk, n, hn, Bool.not_eq_true _ ▸ hint⟩
      rw [hsupported] at hunsupported
      cases hunsupported
  rw [addSeen_foldl hall] at hnumbers
  have hnew : ∀ vs, values = some vs → vs = [] := by
    rintro vs rfl
    exact hvalues.elim (fun h => by cases h) Option.some.inj
  have hsound := (sound_iff hnew hR hl hmem hall).mpr hright
  have hentries : entriesAt (intAt docs path) (pairs l) = numbersAt docs path R :=
    entriesAt_eq hR hl fun k => (hmem k).trans (filedIn_of_followed hR hright.followed k)
  subst hnumbers
  refine ⟨⟨rfl, fun _ => searched_sound hsound none, fun hnil => ?_, fun _ h => ?_⟩, fun vs hvs => ?_⟩
  · have hnone : numbersAt docs path R = [] := by
      rw [← hentries, entriesAt, documents_pairs hl, hnil]
      rfl
    show (NumberStats.trackAll ((numbersAt docs path R).map Prod.fst) (.empty values)).intMin = _ ∧
      (NumberStats.trackAll ((numbersAt docs path R).map Prod.fst) (.empty values)).intMax = _
    rw [hnone]
    exact ⟨rfl, rfl⟩
  · cases h
  · rw [documents_pairs hl]
    exact hsound.recorded vs hvs

omit [Double F] in
/-- The number index of a new node, with the histogram if the query built one. -/
theorem fillNode_index {h : UnionTreeNodeDocumentHelper} {trie : Option Node} {index : NumberIndex}
    (hnew : node.numberIndex = none) (hfill : fillNode h trie node = some node')
    (hindex : node'.numberIndex = some index) :
    h.numbers.unsupportedDouble = false ∧ ∃ histogram,
      index = ⟨node.jsonPath, h.numbers.intMin, h.numbers.intMax, h.ranges.documents .number, histogram⟩ ∧
      ∀ built, histogram = some built → ∃ values, h.numbers.numberValues = some values ∧
        initialSplitWithValues values 100 (pairs (h.ranges.documents .number)) h.numbers.intMin
          h.numbers.intMax = some built := by
  obtain ⟨filled, hbuilt, rfl⟩ := Option.map_eq_some_iff.mp hfill
  obtain rfl : filled = some index := hindex
  unfold createNumberIndex at hbuilt
  rw [hnew] at hbuilt
  cases hunsupported : h.numbers.unsupportedDouble with
  | true =>
    rw [hunsupported] at hbuilt
    cases hbuilt
  | false =>
    rw [hunsupported] at hbuilt
    refine ⟨rfl, ?_⟩
    cases hvalues : h.numbers.numberValues with
    | none =>
      rw [hvalues] at hbuilt
      obtain rfl := Option.some.inj (Option.some.inj hbuilt)
      exact ⟨none, rfl, fun _ hb => by cases hb⟩
    | some values =>
      rw [hvalues] at hbuilt
      obtain ⟨built, hsplit, hsame⟩ := Option.map_eq_some_iff.mp hbuilt
      obtain rfl := Option.some.inj hsame
      obtain ⟨start, hstart, rfl⟩ := Option.map_eq_some_iff.mp hsplit
      refine ⟨some start, rfl, ?_⟩
      rintro _ ⟨rfl⟩
      exact ⟨values, rfl, hstart⟩

/-- The ranges that the visit of the documents leaves. -/
theorem FirstMeets.exact {pass : Pass} (hmeets : FirstMeets docs query node parentNode parentDocRangeNode)
    (hpass : firstVisit docs query node parentNode parentDocRangeNode = some pass) :
    Exact docs query.propertyPath pass.node.ranges.documents := by
  intro t
  obtain ⟨-, hranges, -⟩ := visitRanges_spec hmeets.valid hpass
  rw [hranges]
  obtain ⟨hvalid, hmem⟩ := recordRanges_empty (a := seenAt docs
    (parentNode.jsonPath == parentDocRangeNode.jsonPath) query parentNode.jsonPath) hmeets.valid t
  exact ⟨hvalid, fun k => (hmem k).trans (hmeets.right.filed t k)⟩

/-- The numbers that the visit of the documents leaves. -/
theorem FirstMeets.numbersOf {pass : Pass}
    (hmeets : FirstMeets docs query node parentNode parentDocRangeNode)
    (hpass : firstVisit docs query node parentNode parentDocRangeNode = some pass)
    (hsupported : pass.node.numbers.unsupportedDouble = false) :
    NumbersOf docs query.propertyPath (pass.node.ranges.documents .number)
        ⟨query.propertyPath, pass.node.numbers.intMin, pass.node.numbers.intMax,
          pass.node.ranges.documents .number, none⟩ ∧
      ∀ vs, pass.node.numbers.numberValues = some vs →
        vs = (documents (pairs (pass.node.ranges.documents .number))).map
          (intAt docs query.propertyPath) := by
  have hR := hmeets.valid
  have hnumbers := (visitRanges_spec hR hpass).1.numbers
  rw [List.foldl_ext _ (fun s k => addSeen NumberStats.addNumber
    (pathAt docs query.propertyPath k) s) _ fun s k hk => by rw [hmeets.seen k hk]] at hnumbers
  have hright := hmeets.numbersRight.resolve_left fun hunsupported => by
    have htrue : pass.node.numbers.unsupportedDouble = true := by
      rw [hnumbers, unsupported_iff]
      exact .inr hunsupported
    rw [hsupported] at htrue
    cases htrue
  obtain ⟨hvalid, hmem⟩ := hmeets.exact hpass .number
  have hfiled : ∀ k, k ∈ elements (pass.node.ranges.documents .number) ↔
      FiledIn (pathAt docs query.propertyPath) (parentDocRangeNode.documents .object) .number k := by
    intro k
    rw [hmem, filedIn_of_followed hR hright.followed]
    exact ⟨fun hk => ⟨hmeets.covered hk, hk⟩, fun hk => hk.2⟩
  exact numbersOf_visited hnumbers (by
    cases query.content with
    | INT => exact .inr rfl
    | STRING | BOOL | NONE => exact .inl rfl) hsupported hR hvalid hfiled hright

/-- **A first visit leaves a node with right indexes.** -/
theorem first_indexed (hmeets : FirstMeets docs query node parentNode parentDocRangeNode)
    (h : getDocumentsFirst docs query node parentNode parentDocRangeNode =
      some (result, node', parentNode')) :
    Indexed docs node' ∧ node'.jsonPath = query.propertyPath := by
  have hR := hmeets.valid
  have hpath : node'.jsonPath = query.propertyPath :=
    (getDocumentsFirst_spec hR h).1.trans hmeets.path
  obtain ⟨pass, hpass, hfill⟩ := Option.bind_eq_some_iff.mp h
  obtain ⟨filled, hfilled, hres⟩ := Option.map_eq_some_iff.mp hfill
  obtain ⟨rfl, -⟩ := Prod.mk.inj (Prod.mk.inj hres).2
  have hexact := hmeets.exact hpass
  have hkept : filled.adaptiveTrie = pass.adaptiveTrie ∧
      filled.documents = pass.node.ranges.documents := by
    obtain ⟨index, -, rfl⟩ := Option.map_eq_some_iff.mp hfilled
    exact ⟨rfl, rfl⟩
  refine ⟨⟨?_, fun root hroot => ?_, fun index hindex => ?_⟩, hpath⟩
  · rw [hpath, hkept.2]
    exact hexact
  · have hstart := firstVisit_trie hmeets.trie hR hmeets.seen hpass (hkept.1.symm.trans hroot)
    rw [hpath]
    have hwithin : ∀ k ∈ elements (pass.node.ranges.documents .string),
        k ∈ elements (parentDocRangeNode.documents .object) := fun k hk =>
      hmeets.covered (((hexact .string).2 k).mp hk)
    rw [filter_isString hR hexact hwithin] at hstart
    exact trieOf_steps (hexact .string).2 hstart
  · obtain ⟨hsupported, histogram, rfl, hbuilt⟩ := fillNode_index hmeets.numbers hfilled hindex
    obtain ⟨hof, hrecorded⟩ := hmeets.numbersOf hpass hsupported
    obtain ⟨hvalid, hmem⟩ := hexact .number
    rw [hpath, hkept.2, hmeets.path]
    refine ⟨rfl, fun hnil => searched_sound (hof.sound hnil) _, hof.initial, ?_⟩
    rintro built rfl
    obtain ⟨values, hvalues, hsplit⟩ := hbuilt built rfl
    rw [hrecorded values hvalues, initialSplitWithValues_eq] at hsplit
    obtain ⟨built', hbuilt', hinv⟩ := hof.split hvalid hmem
    obtain rfl := Option.some.inj (hbuilt'.symm.trans hsplit)
    exact hinv

/-! ### First and later answers -/

/-- **Where the first visit answers otherwise** than the later ones: to an inequality of strings, about a
value that is no string; to a query of the type, about a string that compares to the name of the type. -/
def Disagrees (query : AdaptiveIndexQuery) (val : Option (RJValue F)) : Prop :=
  match query.functionType, query.content with
  | .NONE, .STRING _ => query.cmpType = .NOT_EQUALS ∧ ∀ s, val ≠ some (.string s)
  | .TYPE, .STRING strValue => strValue ≠ ascii "STRING" ∧
      ∃ s, val = some (.string s) ∧ matchesString query.cmpType strValue (cString s) = true
  | _, _ => False

omit [Double F] in
theorem string_mem_typesOf {strValue : Str} :
    (typesOf strValue).contains .string = true ↔ strValue = ascii "STRING" := by
  unfold typesOf
  split_ifs with h1 h2 h3 h4 h5
  · exact iff_of_true rfl h1
  all_goals exact iff_of_false (by decide) h1

/-- A comparison takes documents only at once. -/
theorem accepts_comparison (hquery : query.functionType = .NONE) (v : RJValue F) :
    accepts query v = takes query v := by
  unfold accepts FirstVisit.functionTypes
  rw [hquery]
  cases rangeType v <;> simp

theorem wantsFirst_string {path strValue : Str} {cmpType : CmpType} (val : Option (RJValue F)) :
    wantsFirst ⟨path, .STRING strValue, cmpType, .NONE⟩ val =
      val.any (asks ⟨path, .STRING strValue, cmpType, .NONE⟩) := by
  have hflips : flips ⟨path, .STRING strValue, cmpType, .NONE⟩ = false := Bool.and_false _
  rw [wantsFirst, hflips, if_neg Bool.false_ne_true]
  exact congrArg (Option.any · val) (funext (accepts_comparison rfl))

/-- A comparison of numbers or Boolean values, which is flipped. -/
theorem wantsFirst_flip {path : Str} {content : Content} {cmpType : CmpType}
    (hflips : flips ⟨path, content, cmpType, .NONE⟩ = (cmpType == .NOT_EQUALS))
    (htakes : ∀ v : RJValue F, takes ⟨path, content, .NOT_EQUALS, .NONE⟩ v =
      takes ⟨path, content, .EQUALS, .NONE⟩ v) (val : Option (RJValue F)) :
    wantsFirst ⟨path, content, cmpType, .NONE⟩ val = wants ⟨path, content, cmpType, .NONE⟩ val := by
  have haccepts : accepts ⟨path, content, cmpType, .NONE⟩ =
      (takes ⟨path, content, cmpType, .NONE⟩ : RJValue F → Bool) := funext (accepts_comparison rfl)
  rw [wantsFirst, wants, hflips, haccepts]
  by_cases hne : cmpType = .NOT_EQUALS
  · subst hne
    rw [if_pos (beq_self_eq_true _), if_pos ⟨rfl, .inl rfl⟩]
    exact congrArg (fun p => !Option.any p val) (funext htakes)
  · rw [if_neg fun h => hne (eq_of_beq h), if_neg fun h => hne h.1]
    rfl

/-- An inequality of strings. -/
theorem wantsFirst_unequal {path strValue : Str} (val : Option (RJValue F)) :
    wantsFirst ⟨path, .STRING strValue, .NOT_EQUALS, .NONE⟩ val =
        wants ⟨path, .STRING strValue, .NOT_EQUALS, .NONE⟩ val ↔ ∃ s, val = some (.string s) := by
  rw [wantsFirst_string, wants, if_pos ⟨rfl, .inl rfl⟩]
  cases val with
  | none => simp
  | some v =>
    cases v with
    | string s => simp [asks, takes, matchesString, bne]
    | null | bool | number | array | object => simp [asks, takes]

/-- A query of the type. -/
theorem wantsFirst_type {path strValue : Str} {cmpType : CmpType}
    (hcmpType : cmpType = .EQUALS ∨ cmpType = .NOT_EQUALS) (val : Option (RJValue F)) :
    wantsFirst ⟨path, .STRING strValue, cmpType, .TYPE⟩ val =
        wants ⟨path, .STRING strValue, cmpType, .TYPE⟩ val ↔
      ¬ (strValue ≠ ascii "STRING" ∧
        ∃ s, val = some (.string s) ∧ matchesString cmpType strValue (cString s) = true) := by
  have hplain : wantsFirst ⟨path, .STRING strValue, cmpType, .TYPE⟩ val =
        wants ⟨path, .STRING strValue, cmpType, .TYPE⟩ val ↔
      val.any (accepts ⟨path, .STRING strValue, cmpType, .TYPE⟩) =
        val.any fun v => (rangeType v).any (typesOf strValue).contains := by
    rcases hcmpType with rfl | rfl
    · exact Iff.rfl
    · exact Bool.not_inj_iff
  rw [hplain]
  cases val with
  | none => simp
  | some v =>
    rw [Option.any_some, Option.any_some, accepts]
    show (takes _ v || (rangeType v).any (typesOf strValue).contains) = _ ↔ _
    cases v with
    | string s =>
      have hstring : (rangeType (.string s : RJValue F)).any (typesOf strValue).contains = true ↔
          strValue = ascii "STRING" := string_mem_typesOf
      have htakes : takes ⟨path, .STRING strValue, cmpType, .TYPE⟩ (.string s : RJValue F) =
          matchesString cmpType strValue (cString s) := rfl
      rw [htakes]
      by_cases hname : strValue = ascii "STRING"
      · rw [hstring.mpr hname]
        simp [hname]
      · rw [eq_false_of_ne_true (mt hstring.mp hname)]
        simp [hname]
    | null | bool | number | array | object =>
      exact iff_of_true (Bool.false_or _) fun h => by
        obtain ⟨-, s, hs, -⟩ := h
        cases hs

theorem wantsFirst_iff (h : Created query) (val : Option (RJValue F)) :
    wantsFirst query val = wants query val ↔ ¬ Disagrees query val := by
  cases h with
  | @string path strValue cmpType =>
    by_cases hne : cmpType = .NOT_EQUALS
    · subst hne
      rw [wantsFirst_unequal]
      simp [Disagrees]
    · refine iff_of_true ?_ fun hd => hne hd.1
      rw [wantsFirst_string, wants, if_neg fun hc => hne hc.1]
  | @type path strValue cmpType hc _ => exact wantsFirst_type hc val
  | @int path intVal cmpType hc _ =>
    have hflips : flips ⟨path, .INT intVal, cmpType, .NONE⟩ = (cmpType == .NOT_EQUALS) :=
      Bool.and_true _
    refine iff_of_true (wantsFirst_flip hflips (fun v => ?_) val) id
    cases v with
    | number n => cases n <;> rfl
    | null | bool | string | array | object => rfl
  | @bool path boolVal cmpType hc =>
    have hflips : flips ⟨path, .BOOL boolVal, cmpType, .NONE⟩ = (cmpType == .NOT_EQUALS) :=
      Bool.and_true _
    refine iff_of_true (wantsFirst_flip hflips (fun v => ?_) val) id
    cases v <;> rfl
  | @function path functionType h1 h2 =>
    have haccepts : (accepts ⟨path, .NONE, .EQUALS, functionType⟩ : RJValue F → Bool) =
        asks ⟨path, .NONE, .EQUALS, functionType⟩ := by
      funext v
      cases functionType with
      | NONE => exact absurd rfl h1
      | TYPE => exact absurd rfl h2
      | ISNULL | ISBOOL | ISNUMBER | ISSTRING | ISOBJECT | EXISTS =>
        cases v with
        | bool b => cases b <;> rfl
        | null | number | string | array | object => rfl
    have hflips : flips ⟨path, .NONE, .EQUALS, functionType⟩ = false := rfl
    refine iff_of_true ?_ ?_
    · rw [wantsFirst, wants, hflips, haccepts, if_neg Bool.false_ne_true, if_neg fun h => by cases h.1]
    · cases functionType <;> exact id

/-- **First and later answers.** After a first visit of a path and any later events, a visit gives the
answer that a first visit of the same query gives, if and only if no document disagrees. -/
theorem first_agrees_iff {before : AdaptiveIndexQuery} {start last last' : UnionTreeNode}
    {past : List (UnionTreeNode × Event)} {v : Visit} {result₀ first later : Finset ℕ}
    {node₀ parent₀ range₀ parent₀' node₁ parent₁ range₁ node₁' parent₁' : UnionTreeNode}
    (hbefore : FirstMeets docs before node₀ parent₀ range₀)
    (h₀ : getDocumentsFirst docs before node₀ parent₀ range₀ = some (result₀, start, parent₀'))
    (hrun : Run (· = start) (Step docs) past last) (hmeets : ∀ p ∈ past, EventMeets docs p.1 p.2)
    (hpath : v.query.propertyPath = before.propertyPath) (hv : EventMeets docs last (.visit v))
    (hlater : Returns (v.run docs last) (some later, last'))
    (hfirst : FirstMeets docs v.query node₁ parent₁ range₁)
    (h₁ : getDocumentsFirst docs v.query node₁ parent₁ range₁ = some (first, node₁', parent₁')) :
    first = later ↔ ∀ k < docs.length, ¬ Disagrees v.query (pathAt docs v.query.propertyPath k) := by
  obtain ⟨hindexed, hstart⟩ := first_indexed hbefore h₀
  obtain ⟨⟨hlast, hsame⟩, -⟩ := run_indexed hindexed hrun hmeets
  obtain ⟨answer, node', hreturns, -, -, hexact⟩ := visit_spec hv.1 hlast hv.2
  obtain ⟨rfl, -⟩ := Prod.mk.inj (hreturns.unique hlater)
  have hwanted := hexact later rfl
  rw [hsame, hstart, ← hpath] at hwanted
  have hmem := first_answer hfirst h₁
  have hagree : ∀ k, (k ∈ first ↔ k ∈ later) ↔
      (k < docs.length → ¬ Disagrees v.query (pathAt docs v.query.propertyPath k)) := by
    intro k
    rw [← wantsFirst_iff hv.1, hmem k, hwanted k, and_congr_right_iff]
    exact imp_congr_right fun _ => Bool.eq_iff_iff.symm
  rw [Finset.ext_iff]
  exact forall_congr' hagree

/-- **The later visits** of a node, with removals in between: the visits that meet their condition return,
and every answer that is given is exact. -/
theorem later_visits {start node : UnionTreeNode} {past : List (UnionTreeNode × Event)}
    (h : Indexed docs start) (hrun : Run (· = start) (Step docs) past node)
    (hmeets : ∀ p ∈ past, EventMeets docs p.1 p.2) :
    (∀ p ∈ past, Exactly docs start.jsonPath p.1 p.2) ∧
      ∀ v, EventMeets docs node (.visit v) → Exactly docs start.jsonPath node (.visit v) := by
  obtain ⟨⟨hnode, hpath⟩, hpast⟩ := run_indexed h hrun hmeets
  refine ⟨fun p hp => ?_, fun v hv => hpath ▸ exactly_of_meets hnode hv⟩
  obtain ⟨hindexed, hsame⟩ := hpast p hp
  exact hsame ▸ exactly_of_meets hindexed (hmeets p hp)

/-! ### Two strings -/

/-- The first visits of `/a` in the two documents. -/
theorem firstMeets_twoStrings {query : AdaptiveIndexQuery} (hpath : query.propertyPath = ascii "/a")
    (hvisit : (getDocumentsFirst twoStrings query (.unvisited (ascii "/a")) rootOfTwo
      rootOfTwo).isSome = true)
    (hnumbers : (visitedNode twoStrings query 2).documents .number = [])
    (htotal : (visitedNode twoStrings query 2).totalDocs = 2)
    (hexact : Exact twoStrings (ascii "/a") (visitedNode twoStrings query 2).documents) :
    FirstMeets twoStrings query (.unvisited (ascii "/a")) rootOfTwo rootOfTwo ∧
      ∃ result parentNode', getDocumentsFirst twoStrings query (.unvisited (ascii "/a")) rootOfTwo
        rootOfTwo = some (result, (visitedNode twoStrings query 2).toUnionTreeNode, parentNode') := by
  obtain ⟨⟨result, node', parentNode'⟩, h⟩ := Option.isSome_iff_exists.mp hvisit
  have hnode : (visitedNode twoStrings query 2).toUnionTreeNode = node' := by
    unfold visitedNode
    rw [h]
    rfl
  rw [hnode] at hnumbers htotal hexact ⊢
  have hjson : node'.jsonPath = ascii "/a" := (getDocumentsFirst_spec valid_rootOfTwo h).1
  have hnone : numbersAt twoStrings (ascii "/a") (rootOfTwo.documents .object) = [] := rfl
  have hnumber : ∀ k, ¬ HasType (pathAt twoStrings (ascii "/a")) .number k := fun k htype => by
    have hk := ((hexact .number).2 k).mpr htype
    rw [hnumbers] at hk
    cases hk
  refine ⟨⟨hpath.symm, rfl, rfl, valid_rootOfTwo, fun k hk => rfl, ?_, .inr ?_⟩, result, parentNode', h⟩
  · refine (ranges_exact hpath.symm valid_rootOfTwo h).mp ⟨?_, ?_, fun hdirect => by cases hdirect⟩
    · rw [hjson]
      exact hexact
    · rw [htotal, hjson]
      rfl
  · rw [hpath]
    refine ⟨fun p hp k h1 h2 htype => absurd htype (hnumber k), ?_, fun least greatest hends => ?_⟩
    · rw [hnone]
      trivial
    · obtain ⟨e, he, -⟩ := hends.least
      rw [hnone] at he
      cases he

/-- The node after a query whether `/a` exists. -/
def startOfTwo : UnionTreeNode := (visitedNode twoStrings existsQuery 2).toUnionTreeNode

/-- A later query for the first string. -/
def visitForX : Visit := ⟨equalsX, ⟨true, []⟩, false⟩

theorem firstMeets_exists :
    FirstMeets twoStrings existsQuery (.unvisited (ascii "/a")) rootOfTwo rootOfTwo ∧
    ∃ result parentNode', getDocumentsFirst twoStrings existsQuery (.unvisited (ascii "/a")) rootOfTwo
      rootOfTwo = some (result, startOfTwo, parentNode') := by
  refine firstMeets_twoStrings rfl rfl rfl rfl (exact_of_lt (fun t => ?_) (fun t => ?_) fun t => ?_)
  · cases t <;> first | exact .nil | exact .cons (by decide) (by simp) .nil
  · cases t <;> decide
  · cases t <;> decide

/-- A query for the first string, when the node has no trie yet. -/
theorem equalsX_meets {node : UnionTreeNode} {memory : Ensured} {splitted : Bool}
    (hpath : node.jsonPath = ascii "/a") (htrie : node.adaptiveTrie = none)
    (hstrings : node.documents .string = [0, 1]) : Meets twoStrings node ⟨equalsX, memory, splitted⟩ := by
  refine ⟨fun strValue _ hcontent _ => ?_, fun intVal hcontent => by cases hcontent⟩
  cases hcontent
  refine ⟨fun hne => absurd htrie hne, fun _ => ?_, fun root hroot => ?_⟩
  · rw [hpath, hstrings]
    constructor
    · intro k v hv
      match k with
      | 0 | 1 =>
        cases hv
        decide
      | k + 2 => cases hv
    · intro ranges _ _ c
      by_cases hc : c = 120
      · exact ⟨1, ascii "y", rfl, by rw [hc]; decide⟩
      · exact ⟨0, ascii "x", rfl, fun h => hc (Option.some.inj h).symm⟩
  · unfold trieFor at hroot
    rw [htrie, hpath, hstrings] at hroot
    cases hroot
    refine ⟨fun _ n hn => ?_, fun hstarts => ?_, fun t ht => ?_, fun hnil => ?_⟩
    · cases hn
      exact .inl (by decide)
    · cases hstarts
    · cases ht
    · cases hnil

theorem visitForX_meets : EventMeets twoStrings (removeElement startOfTwo .NumberIndexData)
    (.visit visitForX) :=
  ⟨.string, equalsX_meets rfl rfl rfl⟩

/-- The number index is removed before. -/
theorem run_removed : Run (· = startOfTwo) (Step twoStrings) [(startOfTwo, .remove .NumberIndexData)]
    (removeElement startOfTwo .NumberIndexData) :=
  .step (.start rfl) rfl

theorem removed_meets : ∀ p ∈ [(startOfTwo, Event.remove .NumberIndexData)],
    EventMeets twoStrings p.1 p.2 :=
  List.forall_mem_singleton.mpr trivial

theorem later_visits_removed :
    Exactly twoStrings startOfTwo.jsonPath (removeElement startOfTwo .NumberIndexData)
      (.visit visitForX) := by
  obtain ⟨hfirst, result, parentNode', h⟩ := firstMeets_exists
  exact (later_visits (first_indexed hfirst h).1 run_removed removed_meets).2 visitForX visitForX_meets

theorem first_agrees_removed : ∃ first node' parentNode' later last',
    getDocumentsFirst twoStrings equalsX (.unvisited (ascii "/a")) rootOfTwo rootOfTwo =
      some (first, node', parentNode') ∧
    Returns (visitForX.run twoStrings (removeElement startOfTwo .NumberIndexData)) (some later, last') ∧
    (first = later ↔
      ∀ k < twoStrings.length, ¬ Disagrees equalsX (pathAt twoStrings (ascii "/a") k)) := by
  obtain ⟨hbefore, result, parentNode', h₀⟩ := firstMeets_exists
  have hlater : ∃ later last', Returns (visitForX.run twoStrings
      (removeElement startOfTwo .NumberIndexData)) (some later, last') :=
    ⟨_, _, 0, fun n _ => rfl⟩
  obtain ⟨later, last', hlater⟩ := hlater
  have hother : FirstMeets twoStrings equalsX (.unvisited (ascii "/a")) rootOfTwo rootOfTwo ∧
      ∃ result parentNode', getDocumentsFirst twoStrings equalsX (.unvisited (ascii "/a")) rootOfTwo
        rootOfTwo = some (result, (visitedNode twoStrings equalsX 2).toUnionTreeNode, parentNode') := by
    refine firstMeets_twoStrings rfl rfl rfl rfl (exact_of_lt (fun t => ?_) (fun t => ?_) fun t => ?_)
    · cases t <;> first | exact .nil | exact .cons (by decide) (by simp) .nil
    · cases t <;> decide
    · cases t <;> decide
  obtain ⟨hfirst, first, parent', h₁⟩ := hother
  exact ⟨first, _, parent', later, last', h₁, hlater, first_agrees_iff hbefore h₀ run_removed
    removed_meets rfl visitForX_meets hlater hfirst h₁⟩

end Joda.Index.SecondVisit
