import Joda.Index.SecondVisitRuns

/-! # The manager of the adaptive index

`AdaptiveIndexManager` keeps a node for each path that was asked for, and for the paths on the way. A
query is answered from the results of its `DataContext`, by a later visit of the node of its path, or by
a first visit, before which the missing nodes on the way are made. The memory manager may remove any node
and any index when it is asked for memory, except for the node that asks. -/

namespace Joda.Index.IndexManager

open Joda.Values.Value Joda.Values.Pointer Joda.Values.PointerSet Joda.Lib.Ranges Joda.Lib.Fuel
open Joda.Index.Query Joda.Index.FirstVisit Joda.Index.MemoryManager
open Joda.Index.SecondVisit (Ensured Indexed getDocumentsSecond)

variable {F : Type} [Double F]

/-! ### The nodes by their paths -/

/-- `reverseIndex` -/
abbrev ReverseIndex := Str → Option UnionTreeNode

/-- **`AdaptiveIndexManager::removeElement`** -/
def removeElement (index : ReverseIndex) (jsonPath : Str) (dataType : ManagedDataType) : ReverseIndex :=
  match dataType with
  | .UnionTreeNodeData => Function.update index jsonPath none
  | dataType =>
    Function.update index jsonPath
      ((index jsonPath).map fun node => SecondVisit.removeElement node dataType)

/-- A call of `ensureMemory`: whether there is enough, and what it removes. -/
structure Freed where
  enough : Bool
  removed : List (Str × ManagedDataType)

/-- The nodes that are left. -/
def Freed.left (memory : Freed) (index : ReverseIndex) : ReverseIndex :=
  memory.removed.foldl (fun index element => removeElement index element.1 element.2) index

/-- What is removed of the node of a path. -/
def Freed.ofPath (memory : Freed) (jsonPath : Str) : Ensured :=
  ⟨memory.enough,
    memory.removed.filterMap fun element => if element.1 = jsonPath then some element.2 else none⟩

/-- The path of the root. -/
def slash : Str := [47]

/-- The nodes on the way, from `currentPath` on; the last one whose ranges are known is kept. -/
def buildNodes : List Str → Str → UnionTreeNode → ReverseIndex → UnionTreeNode × ReverseIndex
  | [], _, parentDocrangeNode, index => (parentDocrangeNode, index)
  | name :: splitPath, currentPath, parentDocrangeNode, index =>
    let currentPath := currentPath ++ name
    match index currentPath with
    | none =>
      buildNodes splitPath (currentPath ++ slash) parentDocrangeNode
        (Function.update index currentPath (some (.unvisited currentPath)))
    | some node =>
      buildNodes splitPath (currentPath ++ slash)
        (if node.relevantDocumentsCalculated then node else parentDocrangeNode) index

/-- The number of documents is handed on as an `int`. -/
def totalDocs (size : ℕ) : ℕ := (Int.bmod (size : ℤ) (2 ^ 32) % 2 ^ 64).toNat

/-- **`buildAndGetParentDocRange`**; the null pointer without memory. What is before the first slash is
not looked at. -/
def buildAndGetParentDocRange (propertyPath : Str) (size : ℕ) (memory : Freed) (index : ReverseIndex) :
    Option UnionTreeNode × ReverseIndex :=
  let index := memory.left index
  if memory.enough then
    let root := (index slash).getD (setRootDocuments (totalDocs size) (.unvisited slash))
    let (parentDocrangeNode, index) :=
      buildNodes (splitSlash propertyPath).2 slash root (Function.update index slash (some root))
    (some parentDocrangeNode, index)
  else (none, index)

/-- `propertyPath.substr(0, propertyPath.rfind("/"))` -/
def parentPath (propertyPath : Str) : Str :=
  if 47 ∈ propertyPath then ((propertyPath.reverse.dropWhile (· ≠ 47)).drop 1).reverse
  else propertyPath

/-! ### A query -/

/-- A call of `executeQuery`: what `buildAndGetParentDocRange` and the visit get from the memory manager,
which does not remove the visited node, and whether a bucket has been divided for the context. -/
structure Call where
  query : AdaptiveIndexQuery
  build : Freed
  visit : Freed
  kept : (query.propertyPath, ManagedDataType.UnionTreeNodeData) ∉ visit.removed
  splitted : Bool

/-- The nodes of a container, and the results of a `DataContext`. -/
structure Manager where
  reverseIndex : ReverseIndex
  cachedResults : List (AdaptiveIndexQuery × Option (Finset ℕ))

/-- `DataContext::getCacheResult` -/
def getCacheResult (query : AdaptiveIndexQuery)
    (cachedResults : List (AdaptiveIndexQuery × Option (Finset ℕ))) : Option (Finset ℕ) :=
  (cachedResults.find? fun result => query == result.1).bind Prod.snd

/-- A node that is held, as it is now. -/
def held (index : ReverseIndex) (node : UnionTreeNode) : UnionTreeNode :=
  (index node.jsonPath).getD node

/-- A node that is held changes; if it was removed, nobody sees it. -/
def put (node : UnionTreeNode) (index : ReverseIndex) : ReverseIndex :=
  if (index node.jsonPath).isSome then Function.update index node.jsonPath (some node) else index

/-- The first visit, after what its memory costs. -/
def visitFirst (docs : List (RJValue F)) (call : Call)
    (node parentNode parentDocRangeNode : UnionTreeNode) (index : ReverseIndex) :
    Option (Option (Finset ℕ) × ReverseIndex) :=
  let index := call.visit.left index
  if call.visit.enough then
    (getDocumentsFirst docs call.query (held index node) (held index parentNode)
      (held index parentDocRangeNode)).map fun (result, node, parentNode) =>
        (some result, put node (put parentNode index))
  else some (none, index)

/-- A later visit. -/
def visitSecond (docs : List (RJValue F)) (call : Call) (node : UnionTreeNode) (index : ReverseIndex)
    (fuel : ℕ) : Option (Option (Finset ℕ) × ReverseIndex) :=
  (getDocumentsSecond docs call.query (call.visit.ofPath node.jsonPath) call.splitted node fuel).map
    fun (result, node) => (result, put node (call.visit.left index))

/-- The node of a path, if its ranges are known. -/
def calculated (index : ReverseIndex) (path : Str) : Option UnionTreeNode :=
  (index path).filter (·.relevantDocumentsCalculated)

/-- The visit of the node, and its answer; `none` where a node or a document is not there. The answer is
the null pointer without memory. -/
def visitNode (docs : List (RJValue F)) (call : Call) (index : ReverseIndex) (fuel : ℕ) :
    Option (Option (Finset ℕ) × ReverseIndex) ⊕ ReverseIndex :=
  match calculated index call.query.propertyPath with
  | some node => .inl (visitSecond docs call node index fuel)
  | none =>
    match buildAndGetParentDocRange call.query.propertyPath docs.length call.build index with
    | (none, index) => .inr index
    | (some parentDocRangeNode, index) =>
      let parentNode := (index (parentPath call.query.propertyPath)).getD parentDocRangeNode
      .inl ((index call.query.propertyPath).bind fun node =>
        if node.relevantDocumentsCalculated then visitSecond docs call node index fuel
        else visitFirst docs call node parentNode parentDocRangeNode index)

/-- **`AdaptiveIndexManager::executeQuery`** in a container of these documents. -/
def executeQuery (docs : List (RJValue F)) (call : Call) (m : Manager) (fuel : ℕ) :
    Option (Option (Finset ℕ) × Manager) :=
  match getCacheResult call.query m.cachedResults with
  | some result => some (some result, m)
  | none =>
    match visitNode docs call m.reverseIndex fuel with
    | .inl visited =>
      visited.map fun (result, index) => (result, ⟨index, m.cachedResults ++ [(call.query, result)]⟩)
    | .inr index => some (none, ⟨index, m.cachedResults⟩)

/-! ### The texts of paths -/

section Paths

/-- Each token after a slash. -/
def joined (tokens : List Str) : Str := tokens.flatMap fun token => 47 :: token

theorem joined_append (us ws : List Str) : joined (us ++ ws) = joined us ++ joined ws :=
  List.flatMap_append

theorem joined_concat (us : List Str) (token : Str) :
    joined us ++ slash ++ token = joined (us ++ [token]) := by
  rw [joined_append, List.append_assoc]
  simp [joined, slash]

theorem splitSlash_joined : ∀ path : Str,
    path = (splitSlash path).1 ++ joined (splitSlash path).2
  | [] => rfl
  | c :: path => by
    have h := splitSlash_joined path
    rw [splitSlash]
    split_ifs with hc
    · subst hc
      exact congrArg (List.cons 47) h
    · exact congrArg (List.cons c) h

/-- No slash is left. -/
theorem not_mem_splitSlash : ∀ path : Str,
    (47 : UInt8) ∉ (splitSlash path).1 ∧ ∀ token ∈ (splitSlash path).2, (47 : UInt8) ∉ token
  | [] => ⟨by simp [splitSlash], by simp [splitSlash]⟩
  | c :: path => by
    obtain ⟨h1, h2⟩ := not_mem_splitSlash path
    rw [splitSlash]
    split_ifs with hc
    · exact ⟨by simp, List.forall_mem_cons.mpr ⟨h1, h2⟩⟩
    · exact ⟨by simpa [Ne.symm hc] using h1, h2⟩

/-- **The tokens of a path** that starts with a slash. -/
theorem exists_tokens {path : Str} (h : path.head? = some 47) :
    ∃ tokens, path = joined tokens ∧ (splitSlash path).2 = tokens ∧ tokens ≠ [] ∧
      ∀ token ∈ tokens, (47 : UInt8) ∉ token := by
  have hjoined := splitSlash_joined path
  have hfirst : (splitSlash path).1 = [] := by
    cases path with
    | nil => rfl
    | cons c path =>
      obtain rfl := Option.some.inj h
      rfl
  rw [hfirst, List.nil_append] at hjoined
  refine ⟨_, hjoined, rfl, fun hnil => ?_, (not_mem_splitSlash path).2⟩
  rw [hnil] at hjoined
  rw [hjoined] at h
  cases h

theorem head_joined {tokens : List Str} (h : tokens ≠ []) : (joined tokens).head? = some 47 := by
  cases tokens with
  | nil => exact absurd rfl h
  | cons token tokens => rfl

theorem joined_ne_nil {tokens : List Str} (h : tokens ≠ []) : joined tokens ≠ [] := fun hnil => by
  have := head_joined h
  rw [hnil] at this
  cases this

theorem eq_of_joined_slash {tokens : List Str} (h : joined tokens = slash) : tokens = [[]] := by
  cases tokens with
  | nil => cases h
  | cons token tokens =>
    have htail : token ++ joined tokens = [] := List.tail_eq_of_cons_eq h
    obtain ⟨rfl, hjoined⟩ := List.append_eq_nil_iff.mp htail
    cases tokens with
    | nil => rfl
    | cons => cases hjoined

theorem splitSlash_of_joined {tokens : List Str} (h : ∀ token ∈ tokens, (47 : UInt8) ∉ token) :
    splitSlash (joined tokens) = ([], tokens) := by
  induction tokens with
  | nil => rfl
  | cons token tokens ih =>
    obtain ⟨htoken, htokens⟩ := List.forall_mem_cons.mp h
    show splitSlash (47 :: (token ++ joined tokens)) = _
    rw [splitSlash, splitSlash_append htoken, ih htokens, if_pos rfl, List.append_nil]

/-- What is before the last token, and the last token. -/
theorem parentPath_concat {us : List Str} {token : Str} (h : (47 : UInt8) ∉ token) :
    parentPath (joined (us ++ [token])) = joined us ∧ memberName (joined (us ++ [token])) = token := by
  have hpath : joined (us ++ [token]) = joined us ++ 47 :: token := by
    rw [joined_append]
    simp [joined]
  have hall : ∀ c ∈ token.reverse, decide (c ≠ 47) = true := fun c hc =>
    decide_eq_true fun heq => h (heq ▸ List.mem_reverse.mp hc)
  have hreverse : (joined us ++ 47 :: token).reverse = token.reverse ++ 47 :: (joined us).reverse := by
    simp
  rw [hpath]
  constructor
  · rw [parentPath, if_pos (by simp), hreverse, List.dropWhile_append_of_pos hall]
    simp
  · rw [memberName, hreverse, List.takeWhile_append_of_pos hall]
    simp

omit [Double F] in
/-- **The value at a path** is found at the rest of the path, from the value at what is before. -/
theorem valueAt_append {us ws : List Str} (hus : ∀ token ∈ us, (47 : UInt8) ∉ token)
    (hws : ∀ token ∈ ws, (47 : UInt8) ∉ token) (hzero : (0 : UInt8) ∉ joined (us ++ ws))
    (doc : RJValue F) :
    valueAt (joined (us ++ ws)) doc = (valueAt (joined us) doc).bind fun v => valueAt (joined ws) v := by
  have hparse : ∀ tokens : List Str, (∀ token ∈ tokens, (47 : UInt8) ∉ token) →
      (0 : UInt8) ∉ joined tokens → parsePointer (joined tokens) = tokens.mapM unescape := by
    intro tokens htokens hzero
    unfold parsePointer
    rw [cString_eq_self.mpr hzero, splitSlash_of_joined htokens, if_pos rfl]
  have hsplit := joined_append us ws ▸ hzero
  rw [List.mem_append, not_or] at hsplit
  unfold valueAt
  rw [hparse _ (List.forall_mem_append.mpr ⟨hus, hws⟩) hzero, hparse _ hus hsplit.1,
    hparse _ hws hsplit.2, List.mapM_append]
  cases us.mapM unescape with
  | none => rfl
  | some ptr =>
    cases hrest : ws.mapM unescape with
    | none =>
      exact (Option.bind_fun_none (get doc ptr)).symm
    | some rest => exact get_append ptr rest doc

end Paths

/-! ### The nodes that are there -/

section Nodes

variable {docs : List (RJValue F)} {index : ReverseIndex} {path : Str} {node : UnionTreeNode}

/-- **What is known of the node of a path.** The ranges of the root are those of all documents; other
nodes are new, or were visited. -/
structure NodeAt (docs : List (RJValue F)) (path : Str) (node : UnionTreeNode) : Prop where
  jsonPath : node.jsonPath = path
  starts : path.head? = some 47
  root : path = slash →
    node.relevantDocumentsCalculated = true ∧ node.documents .object = [0, docs.length - 1]
  indexed : path ≠ slash → node.relevantDocumentsCalculated = true → Indexed docs node
  new : node.relevantDocumentsCalculated = false → node.adaptiveTrie = none ∧ node.numberIndex = none

/-- **The invariant of the nodes.** -/
def Inv (docs : List (RJValue F)) (index : ReverseIndex) : Prop :=
  ∀ path node, index path = some node → NodeAt docs path node

omit [Double F] in
theorem NodeAt.left (h : NodeAt docs path node) (memory : Ensured) :
    NodeAt docs path (memory.left node) := by
  have heq := SecondVisit.left_eq memory node
  refine ⟨?_, h.starts, fun hroot => ?_, fun hpath hcalculated => ?_, fun hnew => ?_⟩
  · rw [SecondVisit.left_jsonPath, h.jsonPath]
  · rw [heq]
    exact h.root hroot
  · rw [heq] at hcalculated
    exact (h.indexed hpath hcalculated).left memory
  · rw [heq] at hnew ⊢
    obtain ⟨htrie, hnumbers⟩ := h.new hnew
    exact ⟨by simp [htrie], by simp [hnumbers]⟩

/-- The node of the path goes, or one of its indexes. -/
theorem removeElement_apply (index : ReverseIndex) (jsonPath path : Str) (dataType : ManagedDataType) :
    removeElement index jsonPath dataType path =
      if path = jsonPath then
        if dataType = .UnionTreeNodeData then none
        else (index path).map fun node => SecondVisit.removeElement node dataType
      else index path := by
  by_cases hpath : path = jsonPath
  · subst hpath
    cases dataType <;> simp [removeElement]
  · cases dataType <;> simp [removeElement, hpath]

/-- A node that is left was there before, and lost nothing but indexes. -/
theorem removeElement_cases {jsonPath : Str} {dataType : ManagedDataType}
    (h : removeElement index jsonPath dataType path = some node) :
    ∃ before, index path = some before ∧ ∃ gone : Ensured, node = gone.left before := by
  rw [removeElement_apply] at h
  split_ifs at h
  · obtain ⟨before, hbefore, rfl⟩ := Option.map_eq_some_iff.mp h
    exact ⟨before, hbefore, ⟨true, [dataType]⟩, rfl⟩
  · exact ⟨node, h, ⟨true, []⟩, rfl⟩

theorem left_cases (memory : Freed) (h : memory.left index path = some node) :
    ∃ before, index path = some before ∧ ∃ gone : Ensured, node = gone.left before := by
  obtain ⟨enough, removed⟩ := memory
  induction removed generalizing index with
  | nil => exact ⟨node, h, ⟨true, []⟩, rfl⟩
  | cons element removed ih =>
    obtain ⟨after, hafter, gone, rfl⟩ := ih h
    obtain ⟨before, hbefore, gone', rfl⟩ := removeElement_cases hafter
    exact ⟨before, hbefore, ⟨true, gone'.removed ++ gone.removed⟩, List.foldl_append.symm⟩

omit [Double F] in
theorem Inv.left (h : Inv docs index) (memory : Freed) : Inv docs (memory.left index) := by
  intro path node hnode
  obtain ⟨before, hbefore, gone, rfl⟩ := left_cases memory hnode
  exact (h path before hbefore).left gone

omit [Double F] in
theorem Inv.update (h : Inv docs index) (hnode : NodeAt docs path node) :
    Inv docs (Function.update index path (some node)) := by
  intro path' node' hnode'
  rw [Function.update_apply] at hnode'
  split_ifs at hnode' with hpath
  · obtain rfl := Option.some.inj hnode'
    exact hpath ▸ hnode
  · exact h path' node' hnode'

omit [Double F] in
theorem Inv.put (h : Inv docs index) (hnode : NodeAt docs node.jsonPath node) :
    Inv docs (put node index) := by
  unfold IndexManager.put
  split_ifs
  · exact h.update hnode
  · exact h

omit [Double F] in
theorem nodeAt_unvisited (hstarts : path.head? = some 47) (hpath : path ≠ slash) :
    NodeAt docs path (.unvisited path) :=
  ⟨rfl, hstarts, fun h => absurd h hpath, fun _ h => absurd h Bool.false_ne_true, fun _ => ⟨rfl, rfl⟩⟩

omit [Double F] in
theorem nodeAt_root (hsize : docs ≠ []) (hint : docs.length < 2 ^ 31) :
    NodeAt docs slash (setRootDocuments (totalDocs docs.length) (.unvisited slash)) := by
  have htotal : totalDocs docs.length = docs.length := by
    unfold totalDocs
    rw [Int.bmod_eq_of_le (by omega) (by omega)]
    omega
  have hpos := List.length_pos_of_ne_nil hsize
  rw [htotal]
  refine ⟨rfl, rfl, fun _ => ⟨rfl, ?_⟩, fun h => absurd rfl h, fun h => absurd h.symm Bool.false_ne_true⟩
  have hlast : (((docs.length : ℤ) - 1) % 2 ^ 64).toNat = docs.length - 1 := by omega
  exact congrArg (fun last => [0, last]) hlast

/-- **What `buildNodes` does**: nodes are made where there was none, and there is one for each path on
the way; the node it finds is the one it starts with, or one of a path on the way whose ranges are known. -/
structure Built (docs : List (RJValue F)) (us ws : List Str) (start : UnionTreeNode) (index : ReverseIndex)
    (found : UnionTreeNode) (index' : ReverseIndex) : Prop where
  inv : Inv docs index'
  keeps : ∀ path node, index path = some node → index' path = some node
  made : ∀ path node, index' path = some node →
    index path = some node ∨ index path = none ∧ node = .unvisited path
  there : ∀ vs, vs ≠ [] → vs <+: ws → (index' (joined (us ++ vs))).isSome
  near : found = start ∨ ∃ vs, vs ≠ [] ∧ vs <+: ws ∧ index' (joined (us ++ vs)) = some found ∧
    found.relevantDocumentsCalculated = true

omit [Double F] in
theorem buildNodes_spec (us ws : List Str) (start : UnionTreeNode) (h : Inv docs index)
    (hroot : (index slash).isSome) :
    Built docs us ws start index (buildNodes ws (joined us ++ slash) start index).1
      (buildNodes ws (joined us ++ slash) start index).2 := by
  induction ws generalizing us start index with
  | nil =>
    refine ⟨h, fun _ _ h => h, fun _ _ h => .inl h, fun vs hne hvs => ?_, .inl rfl⟩
    exact absurd (List.prefix_nil.mp hvs) hne
  | cons name ws ih =>
    have hstarts : (joined (us ++ [name])).head? = some 47 := head_joined (by simp)
    -- the paths on the way are the next one, and those that come after it
    have hprefix : ∀ vs, vs ≠ [] → vs <+: name :: ws →
        vs = [name] ∨ ∃ vs', vs' ≠ [] ∧ vs' <+: ws ∧ us ++ vs = us ++ [name] ++ vs' := by
      intro vs hne hvs
      obtain ⟨c, vs, rfl⟩ := List.exists_cons_of_ne_nil hne
      obtain ⟨rfl, htail⟩ := List.cons_prefix_cons.mp hvs
      rcases List.eq_nil_or_concat vs with rfl | ⟨_, _, hvs'⟩
      · exact .inl rfl
      · exact .inr ⟨vs, by simp [hvs'], htail, by simp⟩
    have hback : ∀ vs', vs' <+: ws → name :: vs' <+: name :: ws ∧
        us ++ name :: vs' = us ++ [name] ++ vs' :=
      fun vs' hvs' => ⟨List.cons_prefix_cons.mpr ⟨rfl, hvs'⟩, by simp⟩
    unfold buildNodes
    rw [joined_concat]
    dsimp only
    cases hnode : index (joined (us ++ [name])) with
    | none =>
      have hne : joined (us ++ [name]) ≠ slash := fun heq => by
        rw [← heq, hnode] at hroot
        cases hroot
      have hbuilt := ih (us ++ [name]) start
        (h.update (nodeAt_unvisited hstarts hne)) (by
          rw [Function.update_of_ne (Ne.symm hne)]
          exact hroot)
      dsimp only
      generalize buildNodes ws (joined (us ++ [name]) ++ slash) start
        (Function.update index (joined (us ++ [name])) (some (.unvisited (joined (us ++ [name]))))) = r at *
      have hkeeps : ∀ path node, index path = some node → r.2 path = some node := fun path node hold =>
        hbuilt.keeps path node (by
          rw [Function.update_of_ne fun heq => by
            rw [heq, hnode] at hold
            cases hold]
          exact hold)
      refine ⟨hbuilt.inv, hkeeps, fun path node hafter => ?_, fun vs hvs hws => ?_, ?_⟩
      · rcases hbuilt.made path node hafter with hold | ⟨hold, hmade⟩ <;>
          rw [Function.update_apply] at hold <;> split_ifs at hold with hpath
        · exact .inr ⟨hpath ▸ hnode, hpath ▸ (Option.some.inj hold).symm⟩
        · exact .inl hold
        · exact .inr ⟨hold, hmade⟩
      · rcases hprefix vs hvs hws with rfl | ⟨vs', hne', hws', heq⟩
        · rw [hbuilt.keeps _ _ (Function.update_self ..)]
          rfl
        · rw [heq]
          exact hbuilt.there vs' hne' hws'
      · rcases hbuilt.near with hnear | ⟨vs', hne', hws', hfound, hcalculated⟩
        · exact .inl hnear
        · obtain ⟨hpre, heq⟩ := hback vs' hws'
          exact .inr ⟨name :: vs', by simp, hpre, heq ▸ hfound, hcalculated⟩
    | some next =>
      have hbuilt := ih (us ++ [name])
        (if next.relevantDocumentsCalculated then next else start) h hroot
      dsimp only
      generalize buildNodes ws (joined (us ++ [name]) ++ slash)
        (if next.relevantDocumentsCalculated then next else start) index = r at *
      have hnext := hbuilt.keeps _ _ hnode
      refine ⟨hbuilt.inv, hbuilt.keeps, hbuilt.made, fun vs hvs hws => ?_, ?_⟩
      · rcases hprefix vs hvs hws with rfl | ⟨vs', hne', hws', heq⟩
        · rw [hnext]
          rfl
        · rw [heq]
          exact hbuilt.there vs' hne' hws'
      · rcases hbuilt.near with hnear | ⟨vs', hne', hws', hfound, hcalculated⟩
        · split_ifs at hnear with hcalculated
          · exact .inr ⟨[name], by simp, by simp, hnear ▸ hnext, hnear ▸ hcalculated⟩
          · exact .inl hnear
        · obtain ⟨hpre, heq⟩ := hback vs' hws'
          exact .inr ⟨name :: vs', by simp, hpre, heq ▸ hfound, hcalculated⟩

end Nodes

end Joda.Index.IndexManager
