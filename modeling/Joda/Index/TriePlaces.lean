import Joda.Index.TrieLex

/-! # Where the trie keeps its documents

`nodesFrom` lists the nodes of a trie with the characters on the way to them, `places` the documents
in the lists of these nodes, each occurrence for itself. Whatever the queries extract, compress and
clear, the documents listed stay a permutation of those that were loaded (`visit_listed`,
`Walked.listed`), so that each has one place; where this is follows from what the nodes hold
(`place_spec`). The values are read up to their first zero byte, and with one in a value its place is
wrong as soon as the document is in an exact list. -/

namespace Joda.Index.TriePlaces

open Joda.Index.Trie Joda.Index.TrieInvariant Joda.Index.TrieSearch Joda.Index.TrieRuns
open Joda.Index.TrieLex Joda.Lib.Runs

variable {docs : Documents}

/-! ### Nodes and lists -/

mutual

/-- The nodes of a trie, each with the characters from the root to it. -/
def nodesFrom : Str → Node → List (Str × Node)
  | base, ⟨v, depth, chars, exact, start, children⟩ =>
    (base ++ chars, ⟨v, depth, chars, exact, start, children⟩) ::
      nodesFromAll (base ++ chars) children

def nodesFromAll : Str → List Node → List (Str × Node)
  | _, [] => []
  | base, n :: ns => nodesFrom base n ++ nodesFromAll base ns

end

/-- An occurrence of a document in a list of a node. -/
structure Place where
  path : Str
  exact : Bool
  doc : ℕ
  deriving DecidableEq

/-- The occurrences in the two lists of a node. -/
def placesAt (p : Str × Node) : List Place :=
  p.2.exactMatchingDocs.map (⟨p.1, true, ·⟩) ++ p.2.startMatchingDocs.map (⟨p.1, false, ·⟩)

/-- All occurrences below a path. -/
def places (base : Str) (n : Node) : List Place := (nodesFrom base n).flatMap placesAt

mutual

/-- The documents in all lists of a trie. -/
def listed : Node → List ℕ
  | ⟨_, _, _, exact, start, children⟩ => exact ++ start ++ listedAll children

def listedAll : List Node → List ℕ
  | [] => []
  | n :: ns => listed n ++ listedAll ns

end

theorem listed_eq (n : Node) :
    listed n = n.exactMatchingDocs ++ n.startMatchingDocs ++ listedAll n.children := by
  cases n
  rfl

theorem listedAll_append (ms ns : List Node) :
    listedAll (ms ++ ns) = listedAll ms ++ listedAll ns := by
  induction ms with
  | nil => rfl
  | cons m ms ih => rw [List.cons_append, listedAll, listedAll, ih, List.append_assoc]

mutual

theorem places_docs : ∀ (n : Node) (base : Str), (places base n).map Place.doc = listed n
  | ⟨v, depth, chars, exact, start, children⟩, base => by
    have hhere : (placesAt (base ++ chars, ⟨v, depth, chars, exact, start, children⟩)).map
        Place.doc = exact ++ start := by
      simp [placesAt, Function.comp_def]
    rw [places, nodesFrom, List.flatMap_cons, List.map_append, hhere, placesAll_docs children, listed]

theorem placesAll_docs : ∀ (ns : List Node) (base : Str),
    ((nodesFromAll base ns).flatMap placesAt).map Place.doc = listedAll ns
  | [], _ => rfl
  | n :: ns, base => by
    have hn : ((nodesFrom base n).flatMap placesAt).map Place.doc = listed n := places_docs n base
    rw [nodesFromAll, List.flatMap_append, List.map_append, hn, placesAll_docs ns, listedAll]

end

/-! ### The queries move documents, and lose none -/

theorem listed_addDoc (n : Node) (ends : Bool) (k : ℕ) :
    (listed (n.addDoc ends k)).Perm (k :: listed n) := by
  rw [List.perm_iff_count]
  intro j
  cases ends <;> simp [Node.addDoc, listed_eq, List.count_cons] <;> omega

/-- **One value is sorted in**: its document is added. -/
theorem addValue_listed {children children' : List Node} {value : Str} {depth k : ℕ}
    (h : addValue children value depth k = some children') :
    (listedAll children').Perm (k :: listedAll children) := by
  obtain ⟨c, -, rfl⟩ := Option.map_eq_some_iff.mp h
  cases hchild : getChild c children with
  | none =>
    have hnew : (listedAll [(Node.new c (depth + 1)).addDoc (value.length == depth + 1) k]).Perm [k] := by
      rw [listedAll, listedAll, List.append_nil]
      exact listed_addDoc _ _ _
    show (listedAll (children ++ [_])).Perm _
    rw [listedAll_append]
    exact (hnew.append_left _).trans (List.perm_append_singleton k _)
  | some res =>
    obtain ⟨before, child, after⟩ := res
    obtain ⟨rfl, -⟩ := getChild_some hchild
    show (listedAll (before ++ _ :: after)).Perm _
    rw [listedAll_append, listedAll_append, listedAll, listedAll]
    refine ((((listed_addDoc _ _ _).append_right _).append_left _).trans ?_)
    exact List.perm_middle

theorem addValues_listed {depth : ℕ} : ∀ {read : List (ℕ × Str)} {children children' : List Node},
    addValues depth read children = some children' →
    (listedAll children').Perm (read.map Prod.fst ++ listedAll children)
  | [], children, children', h => by
    obtain rfl := Option.some.inj h
    exact List.Perm.refl _
  | (k, value) :: read, children, children', h => by
    obtain ⟨children₁, h1, h2⟩ := Option.bind_eq_some_iff.mp h
    refine (addValues_listed h2).trans (((addValue_listed h1).append_left _).trans ?_)
    exact List.perm_middle

/-- The new children have no children. -/
theorem addValue_leaves {children children' : List Node} {value : Str} {depth k : ℕ}
    (hl : ∀ n ∈ children, n.children = []) (h : addValue children value depth k = some children') :
    ∀ n ∈ children', n.children = [] := by
  have hadd : ∀ (n : Node) (ends : Bool), (n.addDoc ends k).children = n.children := fun n ends => by
    cases ends <;> rfl
  obtain ⟨c, -, rfl⟩ := Option.map_eq_some_iff.mp h
  cases hchild : getChild c children with
  | none =>
    intro n hn
    rcases List.mem_append.mp hn with hn | hn
    · exact hl n hn
    · rw [List.mem_singleton.mp hn, hadd]
      rfl
  | some res =>
    obtain ⟨before, child, after⟩ := res
    obtain ⟨rfl, -⟩ := getChild_some hchild
    intro n hn
    rcases mem_replace hn with rfl | hn
    · rw [hadd]
      exact hl child (by simp)
    · exact hl n (mem_of_replace hn)

theorem addValues_leaves {depth : ℕ} : ∀ {read : List (ℕ × Str)} {children children' : List Node},
    (∀ n ∈ children, n.children = []) → addValues depth read children = some children' →
    ∀ n ∈ children', n.children = []
  | [], children, children', hl, h => by
    obtain rfl := Option.some.inj h
    exact hl
  | (k, value) :: read, children, children', hl, h => by
    obtain ⟨children₁, h1, h2⟩ := Option.bind_eq_some_iff.mp h
    exact addValues_leaves (addValue_leaves hl h1) h2

/-- The documents read are those of the list, whether the cache is used or not. -/
theorem readValues_docs (docs : Documents) (start : List ℕ) (cache : Cache) :
    (readValues docs start cache).1.map Prod.fst = start := by
  unfold readValues
  split_ifs <;> simp [Function.comp_def]

/-- The children that one pass of the extraction makes. -/
theorem pass_listed {depth : ℕ} {node : Node} {cache : Cache} {children : List Node}
    (hch : node.children = [])
    (h : addValues depth (readValues docs node.startMatchingDocs cache).1 node.children =
      some children) :
    (listedAll children).Perm node.startMatchingDocs ∧ ∀ n ∈ children, n.children = [] := by
  have hlisted := addValues_listed h
  rw [readValues_docs, hch, listedAll, List.append_nil] at hlisted
  exact ⟨hlisted, addValues_leaves (by simp [hch]) h⟩

/-- **The extraction** moves the documents of the node: to its children, or, with a character it takes
over, to itself. By induction on the fuel. -/
theorem extractFrom_listed : ∀ (fuel depth : ℕ) (node : Node) (cache : Cache) {n : Node}
    {cache' : Cache}, node.children = [] →
    extractFrom docs fuel depth node cache = some (n, cache') →
    (n.exactMatchingDocs ++ listedAll n.children).Perm
      (node.exactMatchingDocs ++ node.startMatchingDocs) := by
  intro fuel
  induction fuel with
  | zero => intro depth node cache n cache' _ h; cases h
  | succ fuel ih =>
    intro depth node cache n cache' hch h
    rw [extractFrom] at h
    obtain ⟨children, hadd, h⟩ := Option.bind_eq_some_iff.mp h
    obtain ⟨hlisted, hleaves⟩ := pass_listed hch hadd
    split at h
    · rename_i child hexact
      refine (ih _ _ _ rfl h).trans ?_
      have hchild : listedAll [child] = child.exactMatchingDocs ++ child.startMatchingDocs := by
        rw [listedAll, listedAll, listed_eq, hleaves child (by simp), listedAll, List.append_nil,
          List.append_nil]
      rw [hchild] at hlisted
      rw [hexact, List.nil_append]
      exact hlisted
    · obtain ⟨rfl, rfl⟩ : _ = n ∧ _ = cache' := by simpa using h
      exact hlisted.append_left _

/-- A node that is not read has no children. -/
def Unread (n : Node) : Prop := n.isVirtual = true → n.children = []

/-- **The shape of a trie**, whatever its values. -/
inductive Shaped : Node → Prop
  | node {n : Node} (unread : Unread n) (below : ∀ m ∈ n.children, Shaped m) : Shaped n

theorem shaped_of_leaf {n : Node} (h : n.children = []) : Shaped n :=
  .node (fun _ => h) (by simp [h])

/-- The extraction reads the node, and its children are not read. -/
theorem extractFrom_shaped : ∀ (fuel depth : ℕ) (node : Node) (cache : Cache) {n : Node}
    {cache' : Cache}, node.children = [] →
    extractFrom docs fuel depth node cache = some (n, cache') →
    n.isVirtual = false ∧ ∀ m ∈ n.children, m.children = [] := by
  intro fuel
  induction fuel with
  | zero => intro depth node cache n cache' _ h; cases h
  | succ fuel ih =>
    intro depth node cache n cache' hch h
    rw [extractFrom] at h
    obtain ⟨children, hadd, h⟩ := Option.bind_eq_some_iff.mp h
    split at h
    · exact ih _ _ _ rfl h
    · obtain ⟨rfl, rfl⟩ : _ = n ∧ _ = cache' := by simpa using h
      exact ⟨rfl, (pass_listed hch hadd).2⟩

/-- **A visit** keeps the documents: the list that is cleared has been moved. -/
theorem visit_listed {n n' : Node} {cache cache' : Cache} (hn : Shaped n)
    (h : visit docs n cache = some (n', cache')) : Shaped n' ∧ (listed n').Perm (listed n) := by
  rw [visit] at h
  split_ifs at h with hv
  · obtain ⟨⟨n₁, cache₁⟩, hextract, h⟩ := Option.map_eq_some_iff.mp h
    cases h
    obtain ⟨hunread, -⟩ := hn
    have hch : n.children = [] := hunread hv
    rw [extract] at hextract
    split_ifs at hextract with hstart
    · cases hextract
      refine ⟨shaped_of_leaf hch, ?_⟩
      rw [listed_eq, listed_eq, List.length_eq_zero_iff.mp hstart]
    · obtain ⟨hread, hleaves⟩ := extractFrom_shaped _ _ _ _ hch hextract
      refine ⟨.node (fun hvirtual => ?_) fun m hm => shaped_of_leaf (hleaves m hm), ?_⟩
      · rw [show n₁.isVirtual = true from hvirtual] at hread
        cases hread
      · have hmoved := extractFrom_listed _ _ _ _ hch hextract
        rw [listed_eq, listed_eq n, hch, listedAll, List.append_nil, List.append_nil]
        exact hmoved
  · cases h
    exact ⟨hn, List.Perm.refl _⟩

theorem listed_replace {n child child' : Node} {before after : List Node}
    (hn : n.children = before ++ child :: after) (h : (listed child').Perm (listed child)) :
    (listed { n with children := before ++ child' :: after }).Perm (listed n) := by
  rw [listed_eq, listed_eq n, hn, listedAll_append, listedAll_append, listedAll, listedAll]
  exact ((h.append_right _).append_left _).append_left _

/-- **A search** keeps the documents below a node. -/
theorem walked_listed {n n' : Node} {cache : Cache} (h : Walked docs n cache n') :
    Shaped n → Shaped n' ∧ (listed n').Perm (listed n) := by
  induction h with
  | stop => exact fun hn => ⟨hn, List.Perm.refl _⟩
  | visit hvisit => exact fun hn => visit_listed hn hvisit
  | @descend n n' child child' cache cache' before after d hvisit hch hcc _ ih =>
    intro hn
    obtain ⟨⟨hunread, hbelow⟩, hperm⟩ := visit_listed hn hvisit
    have hmem : child ∈ n'.children := by rw [hch]; simp
    obtain ⟨hchild, hmoved⟩ := ih (hbelow child hmem)
    refine ⟨.node (fun hv => ?_) fun m hm => ?_, (listed_replace hch hmoved).trans hperm⟩
    · rw [hunread hv] at hmem
      cases hmem
    · rcases mem_replace hm with rfl | hm
      · exact hchild
      · exact hbelow m (by rw [hch]; exact mem_of_replace hm)

theorem shaped_of_wf {base : Str} {c : UInt8} {n : Node} (h : Wf (values docs) base c n) : Shaped n := by
  induction h with
  | unread => exact shaped_of_leaf rfl
  | read he ht hz hh hw hc ih => exact .node (fun hv => by cases hv) ih

theorem root_listed {root root' : Node} (h : Rooted docs root) (hw : Walked docs root .empty root') :
    (listed root').Perm (listed root) := by
  have hread := h.inside.notVirtual
  refine (walked_listed hw (.node (fun hv => ?_) fun m hm => shaped_of_wf (h.inside.wf m hm))).2
  rw [hread] at hv
  cases hv

/-- A filled trie lists the documents it is filled with. -/
theorem fill_listed {filling : Filling} {root : Node} (h : filling.run docs = some root) :
    Shaped root ∧ (listed root).Perm filling.documents := by
  have hread : ∀ (ks : List ℕ) {children : List Node},
      addValues 0 (ks.map fun k => (k, docs.getString k)) [] = some children →
      (∀ m ∈ children, m.children = []) ∧ (listedAll children).Perm ks := by
    intro ks children hadd
    refine ⟨addValues_leaves (by simp) hadd, ?_⟩
    simpa [listedAll, Function.comp_def] using addValues_listed hadd
  have hroot : ∀ {children : List Node}, (∀ m ∈ children, m.children = []) →
      Shaped { Node.root with isVirtual := false, children := children } := fun hleaves =>
    .node (fun hv => by cases hv) fun m hm => shaped_of_leaf (hleaves m hm)
  cases filling with
  | steps ks =>
    rw [Filling.run, initializeSteps, initializeSteps_eq] at h
    obtain ⟨children, hadd, rfl⟩ := Option.map_eq_some_iff.mp h
    obtain ⟨hleaves, hperm⟩ := hread ks hadd
    exact ⟨hroot hleaves, hperm⟩
  | full ranges =>
    rw [Filling.run, initializeFull] at h
    split_ifs at h with hempty
    · obtain rfl := Option.some.inj h
      refine ⟨shaped_of_leaf rfl, ?_⟩
      rw [Filling.documents, List.length_eq_zero_iff.mp hempty]
      exact List.Perm.refl _
    · obtain ⟨children, hadd, h⟩ := Option.bind_eq_some_iff.mp h
      obtain ⟨hleaves, hperm⟩ := hread _ hadd
      split at h
      · -- the root takes over the character of its only child
        rename_i child
        obtain ⟨⟨n, cache⟩, hextract, rfl⟩ := Option.map_eq_some_iff.mp h
        obtain ⟨hnode, hbelow⟩ := extractFrom_shaped _ _ _ _ rfl hextract
        refine ⟨.node (fun hv => ?_) fun m hm => shaped_of_leaf (hbelow m hm), ?_⟩
        · rw [show n.isVirtual = true from hv] at hnode
          cases hnode
        · have hmoved := extractFrom_listed _ _ _ _ rfl hextract
          refine List.Perm.trans ?_ hperm
          rw [listed_eq, List.append_nil, listedAll, listedAll, listed_eq child,
            hleaves child (List.mem_singleton_self _), listedAll, List.append_nil, List.append_nil]
          exact hmoved
      · obtain rfl := Option.some.inj h
        exact ⟨hroot hleaves, hperm⟩

/-- **After any queries** the trie still lists them. -/
theorem run_listed {filling : Filling} {start root : Node} {past : List (Node × Call)}
    (hstart : filling.run docs = some start) (hrun : Run (· = start) (Step docs) past root) :
    (listed root).Perm filling.documents := by
  have hinv := hrun.invariant (fun root => Shaped root ∧ (listed root).Perm filling.documents)
    (fun _ _ => True) (fun s hs => by rw [show s = start from hs]; exact fill_listed hstart)
    (fun call s t hs _ hst => ?_) fun _ _ => trivial
  · exact hinv.1.2
  · obtain ⟨result, hcall⟩ := hst
    obtain ⟨hshaped, hperm⟩ := walked_listed (call_walked hcall) hs.1
    exact ⟨hshaped, hperm.trans hs.2⟩

/-! ### The extraction without the cache -/

/-- `extractFrom` with every value read from its document. -/
def extractFromUncached (docs : Documents) : ℕ → ℕ → Node → Option Node
  | 0, _, _ => none
  | fuel + 1, depth, node =>
    (addValues depth (node.startMatchingDocs.map fun k => (k, docs.getString k)) node.children).bind
      fun children =>
        match children, node.exactMatchingDocs with
        | [child], [] =>
          extractFromUncached docs fuel (depth + 1)
            { node with
              chars := node.chars ++ child.chars.take 1
              exactMatchingDocs := child.exactMatchingDocs
              startMatchingDocs := child.startMatchingDocs
              children := [] }
        | _, _ => some { node with isVirtual := false, children := children }

def extractUncached (docs : Documents) (node : Node) : Option Node :=
  if node.startMatchingDocs.length = 0 then some { node with isVirtual := false }
  else extractFromUncached docs (enough docs node.startMatchingDocs) node.depth node

/-- A cache that knows the documents of a node knows those of the child it takes over. -/
theorem extractFrom_uncached : ∀ (fuel depth : ℕ) (node : Node) (cache : Cache), node.children = [] →
    CacheOk docs cache (· ∈ node.startMatchingDocs) →
    (extractFrom docs fuel depth node cache).map Prod.fst =
      extractFromUncached docs fuel depth node := by
  intro fuel
  induction fuel with
  | zero => exact fun _ _ _ _ _ => rfl
  | succ fuel ih =>
    intro depth node cache hch hcache
    obtain ⟨hread, hcache'⟩ := readValues_spec hcache
    rw [extractFrom, extractFromUncached, ← hread]
    cases hadd : addValues depth (readValues docs node.startMatchingDocs cache).1 node.children with
    | none => rfl
    | some children =>
      obtain ⟨hlisted, -⟩ := pass_listed hch hadd
      rw [Option.bind_some, Option.bind_some]
      rcases children with _ | ⟨child, _ | ⟨second, others⟩⟩
      · rfl
      · cases node.exactMatchingDocs with
        | cons => rfl
        | nil =>
          refine ih (depth + 1) { node with
            chars := node.chars ++ child.chars.take 1
            exactMatchingDocs := child.exactMatchingDocs
            startMatchingDocs := child.startMatchingDocs
            children := [] } _ rfl (hcache'.mono fun k hk => hlisted.subset ?_)
          simp [listedAll, listed_eq, show k ∈ child.startMatchingDocs from hk]
      · rfl

theorem extract_uncached {n : Node} {cache : Cache} (hch : n.children = [])
    (hcache : CacheOk docs cache (· ∈ n.startMatchingDocs)) :
    (extract docs n cache).map Prod.fst = extractUncached docs n := by
  rw [extract, extractUncached]
  split_ifs
  · rfl
  · exact extractFrom_uncached _ _ _ _ hch hcache

/-- **What a search comes to** from a node: itself, and below it, when it is visited, the nodes that a
search of its children comes to with the cache there is then. -/
inductive Comes (docs : Documents) : Node → Cache → Node → Cache → Prop
  | here {n : Node} {cache : Cache} : Comes docs n cache n cache
  | deeper {n n' child m : Node} {cache cache' cache'' : Cache}
      (h : visit docs n cache = some (n', cache')) (hm : child ∈ n'.children)
      (hc : Comes docs child cache' m cache'') : Comes docs n cache m cache''

theorem Comes.wf {n m : Node} {cache cache' : Cache} (h : Comes docs n cache m cache') :
    ∀ {base : Str} {c : UInt8}, Wf (values docs) base c n →
      CacheOk docs cache (Beyond (values docs) (base ++ [c])) →
      ∃ base' c', Wf (values docs) base' c' m ∧
        CacheOk docs cache' (Beyond (values docs) (base' ++ [c'])) := by
  induction h with
  | here => exact fun hw hcache => ⟨_, _, hw, hcache⟩
  | deeper hvisit hm _ ih =>
    intro base c hw hcache
    obtain ⟨n₁, cache₁, cs, h1, -, -, -, hi, hcache₁, -, -⟩ := visit_spec hw hcache
    obtain ⟨rfl, rfl⟩ : n₁ = _ ∧ cache₁ = _ := by simpa using h1.symm.trans hvisit
    exact ih (hi.wf _ hm) (hcache₁.mono fun k hk => hk.mono (List.prefix_append _ _))

/-- The cached branches distribute the documents as the uncached one does. -/
theorem comes_uncached {root n : Node} {cache : Cache} (h : Rooted docs root)
    (hn : Comes docs root .empty n cache) (hv : n.isVirtual = true) :
    (extract docs n cache).map Prod.fst = extractUncached docs n := by
  have hwf : ∃ base c, Wf (values docs) base c n ∧
      CacheOk docs cache (Beyond (values docs) (base ++ [c])) := by
    cases hn with
    | here =>
      rw [h.inside.notVirtual] at hv
      cases hv
    | deeper hvisit hm hc =>
      rw [visit_root h] at hvisit
      cases hvisit
      exact hc.wf (h.inside.wf _ hm) (emptyCache_ok _)
  obtain ⟨base, c, hw, hcache⟩ := hwf
  rcases wf_iff.mp hw with ⟨hn', -, hs⟩ | ⟨cs, -, -, -, hi⟩
  · exact extract_uncached (by rw [hn']) (hcache.mono fun k hk => (hs k).mp hk)
  · rw [hi.notVirtual] at hv
    cases hv

/-! ### What the places say -/

/-- What an occurrence says, by the values as the trie reads them. -/
def Placed (val : ℕ → Option Str) (p : Place) : Prop :=
  if p.exact then At val p.path p.doc else Beyond val p.path p.doc

theorem mem_nodesFromAll {base : Str} {p : Str × Node} : ∀ {ns : List Node},
    p ∈ nodesFromAll base ns ↔ ∃ n ∈ ns, p ∈ nodesFrom base n
  | [] => by simp [nodesFromAll]
  | n :: ns => by simp [nodesFromAll, mem_nodesFromAll]

theorem mem_nodesFrom {base : Str} {p : Str × Node} {n : Node} : p ∈ nodesFrom base n ↔
    p = (base ++ n.chars, n) ∨ ∃ m ∈ n.children, p ∈ nodesFrom (base ++ n.chars) m := by
  cases n
  rw [nodesFrom, List.mem_cons, mem_nodesFromAll]

/-- What holds of each node of a trie. -/
structure NodeOk (val : ℕ → Option Str) (p : Str × Node) : Prop where
  placed : ∀ q ∈ placesAt p, Placed val q
  heads : (p.2.children.map fun m => m.chars.head?).Nodup
  started : ∀ m ∈ p.2.children, m.chars ≠ []

theorem mem_placesAt {p : Str × Node} {q : Place} : q ∈ placesAt p ↔ q.path = p.1 ∧
    (q.exact = true ∧ q.doc ∈ p.2.exactMatchingDocs ∨
      q.exact = false ∧ q.doc ∈ p.2.startMatchingDocs) := by
  obtain ⟨path, exact, doc⟩ := q
  cases exact <;> simp [placesAt] <;> tauto

theorem inside_ok {val : ℕ → Option Str} {P : Str} {n : Node} (h : Inside val P n) :
    NodeOk val (P, n) := by
  refine ⟨fun q hq => ?_, h.heads, fun m hm he => ?_⟩
  · obtain ⟨hpath, ⟨hexact, hdoc⟩ | ⟨-, hdoc⟩⟩ := mem_placesAt.mp hq
    · rw [Placed, if_pos hexact, hpath]
      exact (h.exact_iff _).mp hdoc
    · rw [h.start] at hdoc
      cases hdoc
  · have hhead := (h.wf m hm).head
    rw [he] at hhead
    cases hhead

/-- **The nodes below a path**, by induction on what they hold. -/
theorem wf_ok {val : ℕ → Option Str} {base : Str} {c : UInt8} {n : Node} (h : Wf val base c n) :
    ∀ p ∈ nodesFrom base n, NodeOk val p := by
  induction h with
  | @unread base c exact start he hs =>
    intro p hp
    rcases mem_nodesFrom.mp hp with rfl | ⟨m, hm, -⟩
    · refine ⟨fun q hq => ?_, by simp, by simp⟩
      obtain ⟨hpath, ⟨hexact, hdoc⟩ | ⟨hstart, hdoc⟩⟩ := mem_placesAt.mp hq
      · rw [Placed, if_pos hexact, hpath]
        exact (he _).mp hdoc
      · rw [Placed, if_neg (by simp [hstart]), hpath]
        exact (hs _).mp hdoc
    · cases hm
  | @read base cs c depth exact children he ht hz hh hw hc ih =>
    intro p hp
    rcases mem_nodesFrom.mp hp with rfl | ⟨m, hm, hp⟩
    · exact inside_ok ⟨rfl, he, rfl, hh, hw, hc⟩
    · exact ih m hm p hp

theorem rooted_ok {root : Node} (h : Rooted docs root) :
    ∀ p ∈ nodesFrom [] root, NodeOk (values docs) p := by
  have hi := inside_ok h.inside
  intro p hp
  rcases mem_nodesFrom.mp hp with rfl | ⟨m, hm, hp⟩
  · rw [h.chars]
    exact hi
  · rw [h.chars] at hp
    exact wf_ok (h.inside.wf m hm) p hp

theorem mem_places {root : Node} {q : Place} :
    q ∈ places [] root ↔ ∃ p ∈ nodesFrom [] root, q ∈ placesAt p := List.mem_flatMap

/-- **Each occurrence is where it belongs.** -/
theorem place_spec {root : Node} (h : Rooted docs root) {q : Place} (hq : q ∈ places [] root) :
    Placed (values docs) q := by
  obtain ⟨p, hp, hq⟩ := mem_places.mp hq
  exact (rooted_ok h p hp).placed q hq

/-! ### The invariant -/

/-- **What the trie promises**: each document occurs once; the way to it is a prefix of its value, and
the value itself exactly for those in an exact list; children start with different characters; and
with its cache every extraction does the same as without. -/
structure Represents (docs : Documents) (root : Node) : Prop where
  once : ∀ k v, docs.string k = some v → ∃ p, (places [] root).filter (fun p => p.doc == k) = [p] ∧
    p.path <+: v ∧ (p.path = v ↔ p.exact = true)
  heads : ∀ p ∈ nodesFrom [] root, (p.2.children.map fun m => m.chars.head?).Nodup ∧
    ∀ m ∈ p.2.children, m.chars ≠ []
  uncached : ∀ n cache, Comes docs root .empty n cache → n.isVirtual = true →
    (extract docs n cache).map Prod.fst = extractUncached docs n

/-- The invariant of the runs: the trie holds its documents, and lists those of `ks`. -/
structure Kept (docs : Documents) (ks : List ℕ) (root : Node) : Prop where
  rooted : Rooted docs root
  listed : (listed root).Perm ks

theorem Kept.call {ks : List ℕ} {root root' : Node} (h : Kept docs ks root) {call : Call}
    {result : Finset ℕ} (hc : call.run docs root = some (result, root')) : Kept docs ks root' := by
  refine ⟨?_, (root_listed h.rooted (call_walked hc)).trans h.listed⟩
  obtain ⟨result', root₁, h1, h2, -⟩ := call_spec h.rooted call
  obtain ⟨-, rfl⟩ : result' = result ∧ root₁ = root' := by simpa using h1.symm.trans hc
  exact h2

theorem fill_kept {ks : List ℕ} (hl : Lists docs (.steps ks)) (hf : Fits docs (.steps ks)) :
    ∃ root, initializeSteps docs ks = some root ∧ Kept docs ks root := by
  obtain ⟨root, hrun, hrooted⟩ := fill_rooted hl hf
  exact ⟨root, hrun, hrooted, (fill_listed hrun).2⟩

/-- The place of a document whose value has no zero byte. -/
theorem placed_right {p : Place} {v : Str} (hp : Placed (values docs) p)
    (hv : docs.string p.doc = some v) (h0 : (0 : UInt8) ∉ v) :
    p.path <+: v ∧ (p.path = v ↔ p.exact = true) := by
  have hval : values docs p.doc = some v := by
    rw [values, hv, Option.map_some, cString_eq_self.mpr h0]
  unfold Placed at hp
  split_ifs at hp with hexact
  · obtain rfl : v = p.path := Option.some.inj (hval.symm.trans hp)
    exact ⟨List.prefix_rfl, iff_of_true rfl hexact⟩
  · obtain ⟨w, hw, hinitial⟩ := hp.below
    obtain rfl := Option.some.inj (hval.symm.trans hw)
    refine ⟨hinitial, iff_of_false (fun he => ?_) hexact⟩
    have hlt := hp.length_lt hval
    rw [he] at hlt
    exact lt_irrefl _ hlt

theorem Kept.represents {ks : List ℕ} {root : Node} (h : Kept docs ks root) (hks : ks.Nodup)
    (hl : Lists docs (.steps ks)) (h0 : ∀ k v, docs.string k = some v → (0 : UInt8) ∉ v) :
    Represents docs root := by
  refine ⟨fun k v hv => ?_, fun p hp => ?_, fun n cache => comes_uncached h.rooted⟩
  · have hmem : k ∈ ks := (hl k).mpr (by rw [hv]; rfl)
    have hone : ((places [] root).filter fun p => p.doc == k).length = 1 := by
      rw [← List.countP_eq_length_filter]
      calc (places [] root).countP (fun p => p.doc == k)
          = ((places [] root).map Place.doc).count k := by
            rw [List.count, List.countP_map]
            rfl
        _ = ks.count k := by rw [places_docs, h.listed.count_eq]
        _ = 1 := List.count_eq_one_of_mem hks hmem
    obtain ⟨p, hp⟩ := List.length_eq_one_iff.mp hone
    have hpmem : p ∈ (places [] root).filter fun p => p.doc == k := by simp [hp]
    obtain ⟨hpin, hdoc⟩ := List.mem_filter.mp hpmem
    obtain rfl : p.doc = k := by simpa using hdoc
    exact ⟨p, hp, placed_right (place_spec h.rooted hpin) hv (h0 _ v hv)⟩
  · exact ⟨(rooted_ok h.rooted p hp).heads, (rooted_ok h.rooted p hp).started⟩

/-! ### Zero bytes -/

/-- The node a search finds is one of the trie it leaves. -/
theorem find_mem {s : Str} {startsWithSearch : Bool} : ∀ (fuel d : ℕ) (n : Node) (cache : Cache)
    {r n' : Node} {cache' : Cache}, findMatchingNode docs s startsWithSearch fuel d n cache =
      some (some r, n', cache') → ∀ base, ∃ P, (P, r) ∈ nodesFrom base n' := by
  have hself : ∀ (n : Node) (base : Str), ∃ P, (P, n) ∈ nodesFrom base n := fun n base =>
    ⟨_, mem_nodesFrom.mpr (Or.inl rfl)⟩
  intro fuel
  induction fuel with
  | zero =>
    intro d n cache r n' cache' h
    cases h
    exact hself n
  | succ fuel ih =>
    intro d n cache r n' cache' h
    rw [findMatchingNode] at h
    split_ifs at h with hlt
    · obtain ⟨⟨n₁, cache₁⟩, hvisit, h⟩ := Option.bind_eq_some_iff.mp h
      dsimp only at h
      split at h
      · split_ifs at h
        · cases h
          exact hself _
        · cases h
      · split_ifs at h
        · cases h
          exact hself _
        · split at h
          · cases h
          · rename_i before child after hchild
            obtain ⟨⟨r', child', cache₂⟩, hbelow, h⟩ := Option.map_eq_some_iff.mp h
            cases h
            intro base
            obtain ⟨P, hP⟩ := ih _ _ _ hbelow (base ++ n₁.chars)
            exact ⟨P, mem_nodesFrom.mpr (Or.inr ⟨child', by simp, hP⟩)⟩
    · cases h
      exact hself n

/-- A search for a value finds its documents. -/
theorem outcome_exact {val : ℕ → Option Str} {s : Str} {here r : Option Node} {k : ℕ}
    (h : Outcome val s false here r) (hk : At val s k) :
    ∃ n, r = some n ∧ k ∈ n.exactMatchingDocs := by
  have hentered : ∀ {base : Str} {c : UInt8} {n : Node}, Wf val base c n → s = base ++ [c] →
      k ∈ n.exactMatchingDocs := by
    intro base c n hw hc
    rcases wf_iff.mp hw with ⟨-, he, -⟩ | ⟨cs, -, hthrough, -, hi⟩
    · exact (he k).mpr (hc ▸ hk)
    · have hlong := hthrough k (hc ▸ below_of_at hk)
      obtain rfl : cs = [] := by
        by_contra hne
        have := List.length_pos_of_ne_nil hne
        refine hk.not_below ?_ hlong
        rw [hc]
        simp only [List.length_append, List.length_cons, List.length_nil]
        omega
      exact (hi.exact_iff k).mpr (hc ▸ hk)
  cases h with
  | missed h hno => exact absurd hk (hno k)
  | @entered base c n h hw hc => exact ⟨n, rfl, hentered hw hc⟩
  | @fresh base c n h hw hc => exact ⟨n, rfl, hentered hw hc⟩
  | @inside base cs c n h hi hlt hb hp hall heq => exact ⟨n, rfl, (hi.exact_iff k).mpr (heq rfl ▸ hk)⟩

/-- After a search for what the trie reads of its value, a document is in an exact list. -/
theorem findEq_places {root : Node} (h : Rooted docs root) {k : ℕ} {v : Str}
    (hv : docs.string k = some v) (hne : cString v ≠ []) :
    ∃ result root', findEq docs root (cString v) = some (result, root') ∧
      ∃ P, (⟨P, true, k⟩ : Place) ∈ places [] root' := by
  obtain ⟨c, rest, hs⟩ := List.exists_cons_of_ne_nil hne
  have hk : At (values docs) (c :: rest) k := at_iff.mpr ⟨v, hv, hs⟩
  obtain ⟨r, root', cache', hfind, -, hout⟩ := find_root false h c rest
  obtain ⟨n, rfl, hn⟩ := outcome_exact hout hk
  obtain ⟨P, hP⟩ := find_mem _ _ _ _ hfind []
  refine ⟨n.exactMatchingDocs.toFinset, root', ?_, P, mem_places.mpr ⟨_, hP, ?_⟩⟩
  · rw [findEq, hs, hfind]
    rfl
  · exact mem_placesAt.mpr ⟨rfl, Or.inl ⟨rfl, hn⟩⟩

/-- **A zero byte**: the document is found at the end of a path that is not its value. -/
theorem zero_breaks {root : Node} (h : Rooted docs root) {k : ℕ} {v : Str} {P : Str}
    (hv : docs.string k = some v) (hP : (⟨P, true, k⟩ : Place) ∈ places [] root)
    (hr : Represents docs root) : (0 : UInt8) ∉ v := by
  obtain ⟨p, hp, -, hexact⟩ := hr.once k v hv
  obtain rfl : (⟨P, true, k⟩ : Place) = p := by
    have : (⟨P, true, k⟩ : Place) ∈ (places [] root).filter fun p => p.doc == k :=
      List.mem_filter.mpr ⟨hP, by simp⟩
    rw [hp] at this
    exact List.mem_singleton.mp this
  obtain ⟨w, hw, hcut⟩ := at_iff.mp (place_spec h hP)
  obtain rfl := Option.some.inj (hv.symm.trans hw)
  rw [hexact.mpr rfl] at hcut
  exact cString_eq_self.mp hcut

/-! ### Runs -/

/-- **The trie keeps its promise in every run of queries, exactly if no value has a zero byte.** -/
theorem represents_iff {ks : List ℕ} (hks : ks.Nodup) (hl : Lists docs (.steps ks))
    (hne : ∀ k v, docs.string k = some v → v ≠ []) :
    (∃ root, initializeSteps docs ks = some root ∧ ∀ (past : List (Node × Call)) (trie : Node),
      Run (· = root) (Step docs) past trie →
        Represents docs trie ∧ ∀ call : Call, ∃ result, call.run docs trie = some result) ↔
      ∀ k v, docs.string k = some v → (0 : UInt8) ∉ v := by
  constructor
  · rintro ⟨root, hroot, hruns⟩ k v hv
    have hnonempty : ∀ k v, docs.string k = some v → cString v ≠ [] := fun k v hv he => by
      have hthrow : (Filling.steps ks).run docs = none := fill_throws hl hv he
      rw [Filling.run, hroot] at hthrow
      cases hthrow
    obtain ⟨root₁, hroot₁, hkept⟩ := fill_kept hl ⟨hnonempty, fun ranges h => by cases h⟩
    obtain rfl : root = root₁ := Option.some.inj (hroot.symm.trans hroot₁)
    obtain ⟨result, root', hfind, P, hP⟩ := findEq_places hkept.rooted hv (hnonempty k v hv)
    have hcall : Call.run docs root (.findEq (cString v)) = some (result, root') := hfind
    have hrun : Run (· = root) (Step docs) [(root, .findEq (cString v))] root' :=
      .step (.start rfl) ⟨result, hcall⟩
    exact zero_breaks (hkept.call hcall).rooted hv hP (hruns _ _ hrun).1
  · intro h0
    have hnonempty : ∀ k v, docs.string k = some v → cString v ≠ [] := fun k v hv => by
      rw [cString_eq_self.mpr (h0 k v hv)]
      exact hne k v hv
    obtain ⟨root, hroot, hkept⟩ := fill_kept hl ⟨hnonempty, fun ranges h => by cases h⟩
    refine ⟨root, hroot, fun past trie hrun => ?_⟩
    have hstep : ∀ (call : Call) (s t : Node), Kept docs ks s → True → Step docs call s t →
        Kept docs ks t := by
      intro call s t hs _ hst
      obtain ⟨result, hst⟩ := hst
      exact hs.call hst
    have htrie : Kept docs ks trie := (hrun.invariant (Kept docs ks) (fun _ _ => True)
      (fun s (hs : s = root) => hs ▸ hkept) hstep fun _ _ => trivial).1
    refine ⟨htrie.represents hks hl h0, fun call => ?_⟩
    obtain ⟨result, trie', hcall, -⟩ := call_spec htrie.rooted call
    exact ⟨(result, trie'), hcall⟩

theorem twoDocs_represents_iff :
    (∃ root, initializeSteps twoDocs [0, 1] = some root ∧ ∀ (past : List (Node × Call)) (trie : Node),
      Run (· = root) (Step twoDocs) past trie →
        Represents twoDocs trie ∧ ∀ call : Call, ∃ result, call.run twoDocs trie = some result) ↔
      ∀ k v, twoDocs.string k = some v → (0 : UInt8) ∉ v := by
  refine represents_iff (by decide) (fun k => ?_) fun k v hv => ?_
  · simp only [Filling.documents, twoDocs]
    split_ifs <;> simp_all
  · simp only [twoDocs] at hv
    split_ifs at hv <;> cases hv <;> decide

/-- The document `a`, zero byte, `b`. -/
def zeroDoc : Documents := ⟨1, fun k => if k = 0 then some [97, 0, 98] else none⟩

/-- It is loaded into the exact list of `a`. -/
theorem zeroDoc_misplaced :
    ¬ ∀ root, initializeSteps zeroDoc [0] = some root → ∀ (past : List (Node × Call)) (trie : Node),
      Run (· = root) (Step zeroDoc) past trie → Represents zeroDoc trie := by
  intro h
  have hloaded : ∃ root, initializeSteps zeroDoc [0] = some root ∧
      places [] root = [⟨[97], true, 0⟩] := ⟨_, rfl, rfl⟩
  obtain ⟨root, hroot, hplaces⟩ := hloaded
  obtain ⟨p, hp, -, hexact⟩ := (h root hroot [] root (.start rfl)).once 0 [97, 0, 98] rfl
  rw [hplaces] at hp
  obtain rfl : (⟨[97], true, 0⟩ : Place) = p := by simpa using hp
  have := hexact.mpr rfl
  simp at this

end Joda.Index.TriePlaces
