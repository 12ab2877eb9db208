import Joda.Execution.MixedQuery

/-! # Index queries

`AdaptiveIndexQueryTreeVisitor` builds a tree of index queries out of a predicate, and
`AdaptiveQueryExecutorVisitor` runs it. A `NOT` has no node of its own: it marks the node made last as
negated, once for all the negations above it. -/

namespace Joda.Execution.QueryTree

open Joda.Values.Value Joda.Values.Provider Joda.Values.Provider.IValueProvider
open Joda.Values.Optimize Joda.Index.Query Joda.Execution.Container Joda.Execution.MixedQuery
open Joda.Lib.Fuel

variable {D F : Type} [Double F] [RapidJsonDocument D F]

/-! ### The tree -/

inductive Connective where
  | and | or
  deriving DecidableEq, Repr

def Connective.calc : Connective → BoolCalc
  | and => .and
  | or => .or

/-- What a node is; its children are the places of nodes. -/
inductive NodeKind (D F : Type) where
  | binary (op : Connective) (lhs rhs : Option ℕ)
  | executable (query : AdaptiveIndexQuery) (predicate : IValueProvider D F)
  | unsupported (predicate : IValueProvider D F)

structure QueryNode (D F : Type) where
  kind : NodeKind D F
  negated : Bool

/-- **`AdaptiveIndexQueryTreeVisitor`**, with the nodes it has made. -/
structure TreeVisitor (D F : Type) where
  nodes : List (QueryNode D F)
  queryRoot : Option ℕ
  workingNode : Option ℕ
  upFromConjunction : Bool
  indexFound : Bool
  unsupportedFound : Bool

namespace TreeVisitor

def init : TreeVisitor D F := ⟨[], none, none, false, false, false⟩

/-- A binary node takes a child on its left, or on its right if there is one on its left. -/
def addChild (child : ℕ) (node : QueryNode D F) : QueryNode D F :=
  match node.kind with
  | .binary op lhs rhs =>
    if lhs.isSome then { node with kind := .binary op lhs (some child) }
    else { node with kind := .binary op (some child) rhs }
  | _ => node

/-- The node at `child` is put below the working node. -/
def link (nodes : List (QueryNode D F)) (workingNode : Option ℕ) (child : ℕ) :
    List (QueryNode D F) :=
  match workingNode with
  | some w => nodes.modify w (addChild child)
  | none => nodes

def setNegated (v : TreeVisitor D F) (node : ℕ) : TreeVisitor D F :=
  { v with nodes := v.nodes.modify node fun n => { n with negated := true } }

/-- The node of a connective is made, and is the working node. -/
def enter (op : Connective) (v : TreeVisitor D F) : TreeVisitor D F :=
  let bNode := v.nodes.length
  { v with
    nodes := link v.nodes v.workingNode bNode ++ [⟨.binary op none none, false⟩]
    queryRoot := v.queryRoot.or (some bNode)
    workingNode := some bNode }

/-- A connective, with the visits of its two sides. -/
def visitConnective (op : Connective) (lhs rhs : TreeVisitor D F → Option (TreeVisitor D F))
    (v : TreeVisitor D F) : Option (TreeVisitor D F) :=
  let bNode := v.nodes.length
  (lhs (enter op v)).bind fun v =>
    (rhs { v with workingNode := some bNode }).map fun v =>
      { v with workingNode := some bNode, upFromConjunction := true }

/-- After a negation: the last node added is negative. -/
def negateLast (v : TreeVisitor D F) : TreeVisitor D F :=
  match v.workingNode with
  -- only one root with negate
  | none => v.queryRoot.elim v v.setNegated
  | some w =>
    if v.upFromConjunction then v.setNegated w
    else
      match (v.nodes[w]?).map QueryNode.kind with
      -- the right side, if it is set
      | some (.binary _ (some _) (some rhs)) => v.setNegated rhs
      | some (.binary _ (some lhs) none) => v.setNegated lhs
      -- whole and/or negated
      | _ => v.setNegated w

/-- The node of a query, or of an expression without one. -/
def queryNode (negated : Bool) (query : Option AdaptiveIndexQuery) (p : IValueProvider D F) :
    QueryNode D F :=
  match query with
  | some query => ⟨.executable query p, negated⟩
  | none => ⟨.unsupported p, negated⟩

/-- `addExecutableNode` -/
def addExecutableNode (query : Option AdaptiveIndexQuery) (p : IValueProvider D F)
    (v : TreeVisitor D F) : TreeVisitor D F :=
  let node := v.nodes.length
  { v with
    nodes := link v.nodes v.workingNode node ++ [queryNode false query p]
    queryRoot := if v.workingNode.isSome then v.queryRoot else some node
    indexFound := v.indexFound || query.isSome
    unsupportedFound := v.unsupportedFound || query.isNone }

/-- **`visit`**, `none` where `createQuery` is not defined for a leaf. -/
def visit : IValueProvider D F → TreeVisitor D F → Option (TreeVisitor D F)
  | .bool .and lhs rhs, v => visitConnective .and (visit lhs) (visit rhs) v
  | .bool .or lhs rhs, v => visitConnective .or (visit lhs) (visit rhs) v
  | .not sub, v => (visit sub v).map negateLast
  | e, v => (createQuery e).map fun query =>
    { addExecutableNode query (duplicate e) v with upFromConjunction := false }

def isIndexOnly (v : TreeVisitor D F) : Bool := v.indexFound && !v.unsupportedFound

end TreeVisitor

open TreeVisitor

/-! ### The executor -/

section Executor

variable (cont : List D) (executeQuery : AdaptiveIndexQuery → Option DocIndex)

/-- The documents that are not selected, if the node is negated. -/
def flip (negated : Bool) (result : DocIndex) : DocIndex :=
  if negated then Finset.range cont.length \ result else result

def Connective.combine : Connective → DocIndex → DocIndex → DocIndex
  | .and, lhs, rhs => lhs ∩ rhs
  | .or, lhs, rhs => lhs ∪ rhs

/-- The answer of the index, or of the default check if the index fails. -/
def queryResult (query : AdaptiveIndexQuery) (predicate : IValueProvider D F) : DocIndex :=
  (executeQuery query).getD (checkDocuments cont (check predicate))

/-- **`AdaptiveQueryExecutorVisitor`**, `none` at a node that is missing and when the fuel runs
out. -/
def accept (nodes : List (QueryNode D F)) : ℕ → Option ℕ → Option DocIndex
  | 0, _ => none
  | _ + 1, none => none
  | fuel + 1, some node =>
    nodes[node]?.bind fun n =>
      match n.kind with
      | .binary op lhs rhs =>
        (accept nodes fuel lhs).bind fun lhsResult =>
          (accept nodes fuel rhs).map fun rhsResult =>
            flip cont n.negated (op.combine lhsResult rhsResult)
      | .executable query predicate =>
        some (flip cont n.negated (queryResult cont executeQuery query predicate))
      | .unsupported predicate => some (checkDocuments cont (check predicate))

/-- **The execution of a predicate** that the index supports. -/
def executeIndexOnly (pred : IValueProvider D F) (fuel : ℕ) : Option DocIndex :=
  (visit pred init).bind fun v => accept cont executeQuery v.nodes fuel v.queryRoot

end Executor

/-! ### The nodes of a predicate -/

/-- The number of nodes. -/
def count : IValueProvider D F → ℕ
  | .bool .and lhs rhs => count lhs + count rhs + 1
  | .bool .or lhs rhs => count lhs + count rhs + 1
  | .not sub => count sub
  | _ => 1

/-- The node of a leaf. -/
def leafNode (negated : Bool) (e : IValueProvider D F) : QueryNode D F :=
  queryNode negated (queryOf e) (duplicate e)

/-- The nodes of a predicate from `base` on. -/
def layout (base : ℕ) (negated : Bool) : IValueProvider D F → List (QueryNode D F)
  | .bool .and lhs rhs =>
    ⟨.binary .and (some (base + 1)) (some (base + 1 + count lhs)), negated⟩ ::
      (layout (base + 1) false lhs ++ layout (base + 1 + count lhs) false rhs)
  | .bool .or lhs rhs =>
    ⟨.binary .or (some (base + 1)) (some (base + 1 + count lhs)), negated⟩ ::
      (layout (base + 1) false lhs ++ layout (base + 1 + count lhs) false rhs)
  | .not sub => layout base true sub
  | e => [leafNode negated e]

/-- Below its negations there is a connective. -/
def isConnective : IValueProvider D F → Bool
  | .bool .and _ _ => true
  | .bool .or _ _ => true
  | .not sub => isConnective sub
  | _ => false

/-- Whether a leaf is such. -/
def anyLeaf (f : IValueProvider D F → Bool) : IValueProvider D F → Bool
  | .bool .and lhs rhs => anyLeaf f lhs || anyLeaf f rhs
  | .bool .or lhs rhs => anyLeaf f lhs || anyLeaf f rhs
  | .not sub => anyLeaf f sub
  | e => f e

/-- The visitor can take a child: at the root, or below a node with a free side. -/
def Ready (v : TreeVisitor D F) : Prop :=
  match v.workingNode with
  | none => v.queryRoot = none
  | some w => v.queryRoot.isSome ∧
      ∃ op lhs negated, v.nodes[w]? = some ⟨.binary op lhs none, negated⟩

/-- The visitor after a predicate whose leaves have their queries. -/
def after (e : IValueProvider D F) (v : TreeVisitor D F) : TreeVisitor D F where
  nodes := link v.nodes v.workingNode v.nodes.length ++ layout v.nodes.length false e
  queryRoot := v.queryRoot.or (some v.nodes.length)
  workingNode := if isConnective e then some v.nodes.length else v.workingNode
  upFromConjunction := isConnective e
  indexFound := v.indexFound || anyLeaf (fun e => (queryOf e).isSome) e
  unsupportedFound := v.unsupportedFound || anyLeaf (fun e => (queryOf e).isNone) e

omit [RapidJsonDocument D F] [Double F] in
theorem length_link (nodes : List (QueryNode D F)) (w : Option ℕ) (child : ℕ) :
    (link nodes w child).length = nodes.length := by
  cases w with
  | none => rfl
  | some w => exact List.length_modify _ _ _

/-- Neither a connective nor a negation. -/
structure IsLeaf (e : IValueProvider D F) : Prop where
  connective : ∀ (op : Connective) lhs rhs, e ≠ .bool op.calc lhs rhs
  negation : ∀ sub, e ≠ .not sub

omit [RapidJsonDocument D F] [Double F] in
/-- The cases of the visitor: a connective, a negation and a leaf. -/
@[elab_as_elim]
theorem tree_induction {motive : IValueProvider D F → Prop}
    (connective : ∀ (op : Connective) lhs rhs, motive lhs → motive rhs →
      motive (.bool op.calc lhs rhs))
    (negation : ∀ sub, motive sub → motive (.not sub)) (leaf : ∀ e, IsLeaf e → motive e)
    (e : IValueProvider D F) : motive e := by
  induction e using count.induct with
  | case1 lhs rhs ihl ihr => exact connective .and lhs rhs ihl ihr
  | case2 lhs rhs ihl ihr => exact connective .or lhs rhs ihl ihr
  | case3 sub ih => exact negation sub ih
  | case4 e h1 h2 h3 =>
    refine leaf e ⟨fun op => ?_, h3⟩
    cases op with
    | and => exact h1
    | or => exact h2

omit [RapidJsonDocument D F] [Double F] in
theorem count_connective (op : Connective) (lhs rhs : IValueProvider D F) :
    count (.bool op.calc lhs rhs) = count lhs + count rhs + 1 := by
  cases op <;> rfl

omit [RapidJsonDocument D F] [Double F] in
theorem IsLeaf.count_eq {e : IValueProvider D F} (h : IsLeaf e) : count e = 1 := by
  rw [count]
  · exact h.connective .and
  · exact h.connective .or
  · exact h.negation

theorem layout_connective (op : Connective) (lhs rhs : IValueProvider D F) (base : ℕ) (negated : Bool) :
    layout base negated (.bool op.calc lhs rhs) =
      ⟨.binary op (some (base + 1)) (some (base + 1 + count lhs)), negated⟩ ::
        (layout (base + 1) false lhs ++ layout (base + 1 + count lhs) false rhs) := by
  cases op <;> rfl

theorem IsLeaf.layout_eq {e : IValueProvider D F} (h : IsLeaf e) (base : ℕ) (negated : Bool) :
    layout base negated e = [leafNode negated e] := by
  rw [layout]
  · exact h.connective .and
  · exact h.connective .or
  · exact h.negation

omit [RapidJsonDocument D F] [Double F] in
theorem isConnective_connective (op : Connective) (lhs rhs : IValueProvider D F) :
    isConnective (.bool op.calc lhs rhs) = true := by
  cases op <;> rfl

omit [RapidJsonDocument D F] [Double F] in
theorem IsLeaf.isConnective_eq {e : IValueProvider D F} (h : IsLeaf e) : isConnective e = false := by
  rw [isConnective]
  · exact h.connective .and
  · exact h.connective .or
  · exact h.negation

omit [RapidJsonDocument D F] [Double F] in
theorem anyLeaf_connective (f : IValueProvider D F → Bool) (op : Connective)
    (lhs rhs : IValueProvider D F) :
    anyLeaf f (.bool op.calc lhs rhs) = (anyLeaf f lhs || anyLeaf f rhs) := by
  cases op <;> rfl

omit [RapidJsonDocument D F] [Double F] in
theorem IsLeaf.anyLeaf_eq {e : IValueProvider D F} (h : IsLeaf e) (f : IValueProvider D F → Bool) :
    anyLeaf f e = f e := by
  rw [anyLeaf]
  · exact h.connective .and
  · exact h.connective .or
  · exact h.negation

theorem visit_connective (op : Connective) (lhs rhs : IValueProvider D F) (v : TreeVisitor D F) :
    visit (.bool op.calc lhs rhs) v = visitConnective op (visit lhs) (visit rhs) v := by
  cases op <;> rfl

theorem IsLeaf.visit_eq {e : IValueProvider D F} (h : IsLeaf e) (v : TreeVisitor D F) :
    visit e v = (createQuery e).map fun query =>
      { addExecutableNode query (duplicate e) v with upFromConjunction := false } := by
  rw [visit]
  · exact h.connective .and
  · exact h.connective .or
  · exact h.negation

theorem leavesDefined_connective (op : Connective) (lhs rhs : IValueProvider D F) :
    leavesDefined (.bool op.calc lhs rhs) = (leavesDefined lhs && leavesDefined rhs) := by
  cases op <;> rfl

theorem IsLeaf.leavesDefined_eq {e : IValueProvider D F} (h : IsLeaf e) :
    leavesDefined e = (createQuery e).isSome := by
  rw [leavesDefined]
  · exact h.connective .and
  · exact h.connective .or
  · exact h.negation

theorem length_layout (e : IValueProvider D F) : ∀ (base : ℕ) (negated : Bool),
    (layout base negated e).length = count e := by
  induction e using tree_induction with
  | connective op lhs rhs ihl ihr =>
    intro base negated
    rw [layout_connective, count_connective, List.length_cons, List.length_append, ihl, ihr]
  | negation sub ih =>
    intro base negated
    rw [layout, count, ih]
  | leaf e h =>
    intro base negated
    rw [h.layout_eq, h.count_eq]
    rfl

/-! ### Nodes among others -/

/-- **The nodes of a predicate lie at `base`**, among others. -/
def Laid (nodes : List (QueryNode D F)) (base : ℕ) (negated : Bool) (e : IValueProvider D F) : Prop :=
  ∃ u w, u.length = base ∧ nodes = u ++ layout base negated e ++ w

section Laid

variable {nodes : List (QueryNode D F)} {base : ℕ} {negated : Bool} {lhs rhs sub e : IValueProvider D F}

theorem Laid.connective {op : Connective} (h : Laid nodes base negated (.bool op.calc lhs rhs)) :
    nodes[base]? = some ⟨.binary op (some (base + 1)) (some (base + 1 + count lhs)), negated⟩ ∧
      Laid nodes (base + 1) false lhs ∧ Laid nodes (base + 1 + count lhs) false rhs := by
  obtain ⟨u, w, rfl, rfl⟩ := h
  rw [layout_connective]
  generalize (⟨.binary op (some (u.length + 1)) (some (u.length + 1 + count lhs)), negated⟩ :
    QueryNode D F) = n
  refine ⟨by simp, ⟨u ++ [n], layout (u.length + 1 + count lhs) false rhs ++ w, by simp, by simp⟩,
    u ++ n :: layout (u.length + 1) false lhs, w, ?_, by simp⟩
  rw [List.length_append, List.length_cons, length_layout]
  omega

theorem Laid.negation (h : Laid nodes base negated (.not sub)) : Laid nodes base true sub := h

theorem Laid.leaf (h : Laid nodes base negated e) (he : IsLeaf e) :
    nodes[base]? = some (leafNode negated e) := by
  obtain ⟨u, w, rfl, rfl⟩ := h
  rw [he.layout_eq]
  simp

end Laid

theorem modify_append {α : Type} (a b : List α) (f : α → α) (n : α) :
    (a ++ n :: b).modify a.length f = a ++ f n :: b := by
  induction a with
  | nil => rfl
  | cons x a ih => simpa using ih

/-- The first node is the one to negate. -/
theorem layout_cons (base : ℕ) (e : IValueProvider D F) : ∃ kind rest,
    layout base true e = ⟨kind, true⟩ :: rest ∧
      (isConnective e = true → ∃ op lhs rhs, kind = .binary op lhs rhs) ∧
      ∃ negated, layout base false e = ⟨kind, negated⟩ :: rest := by
  induction e using tree_induction with
  | connective op lhs rhs ihl ihr =>
    rw [layout_connective, layout_connective]
    exact ⟨_, _, rfl, fun _ => ⟨_, _, _, rfl⟩, _, rfl⟩
  | negation sub ih =>
    obtain ⟨kind, rest, h1, h2, -⟩ := ih
    exact ⟨kind, rest, h1, h2, true, h1⟩
  | leaf e he =>
    rw [he.layout_eq, he.layout_eq, he.isConnective_eq]
    unfold leafNode queryNode
    cases queryOf e <;> exact ⟨_, _, rfl, fun h => (Bool.false_ne_true h).elim, _, rfl⟩

theorem setNegated_after (e : IValueProvider D F) (v : TreeVisitor D F) :
    (after e v).setNegated v.nodes.length = after (.not e) v := by
  obtain ⟨kind, rest, h1, -, negated, h2⟩ := layout_cons v.nodes.length e
  have hnodes : (after e v).nodes.modify v.nodes.length (fun n => { n with negated := true }) =
      (after (.not e) v).nodes := by
    have hlength := length_link v.nodes v.workingNode v.nodes.length
    unfold after
    dsimp only
    rw [layout, h1, h2]
    have hmodify := modify_append (link v.nodes v.workingNode v.nodes.length) rest
      (fun n => { n with negated := true }) ⟨kind, negated⟩
    rw [hlength] at hmodify
    exact hmodify
  unfold setNegated
  rw [hnodes]
  unfold after
  simp only [isConnective, anyLeaf]
  rfl

/-- The node made last is the one that is found. -/
theorem negateLast_after {v : TreeVisitor D F} (h : Ready v) (e : IValueProvider D F) :
    negateLast (after e v) = after (.not e) v := by
  rw [← setNegated_after]
  unfold Ready at h
  have hworking : (after e v).workingNode =
      if isConnective e then some v.nodes.length else v.workingNode := rfl
  have hup : (after e v).upFromConjunction = isConnective e := rfl
  unfold negateLast
  by_cases hc : isConnective e = true
  · rw [hworking, hup, if_pos hc]
    simp only [hc, if_true]
  · rw [hworking, hup, if_neg hc]
    cases hw : v.workingNode with
    | none =>
      rw [hw] at h
      have hroot : (after e v).queryRoot = some v.nodes.length := by
        unfold after
        rw [h, Option.none_or]
      rw [hroot]
      rfl
    | some w =>
      rw [hw] at h
      obtain ⟨-, op, lhs, negated, hnode⟩ := h
      have hlt : w < v.nodes.length := (List.getElem?_eq_some_iff.mp hnode).1
      have hfound : (after e v).nodes[w]? =
          some (addChild v.nodes.length ⟨.binary op lhs none, negated⟩) := by
        have hlink : w < (link v.nodes (some w) v.nodes.length).length := by
          rw [length_link]
          exact hlt
        unfold after
        dsimp only
        rw [hw, List.getElem?_append_left hlink]
        unfold link
        dsimp only
        rw [List.getElem?_modify_eq, hnode]
        rfl
      simp only [hc, if_false, Bool.false_eq_true, hfound]
      cases lhs <;> rfl

/-- A connective, with what its sides do. -/
theorem visitConnective_after {op : Connective} {lhs rhs : IValueProvider D F} {v : TreeVisitor D F}
    (hlhs : ∀ v, Ready v → visit lhs v = if leavesDefined lhs then some (after lhs v) else none)
    (hrhs : ∀ v, Ready v → visit rhs v = if leavesDefined rhs then some (after rhs v) else none) :
    visitConnective op (visit lhs) (visit rhs) v =
      if leavesDefined (.bool op.calc lhs rhs) then some (after (.bool op.calc lhs rhs) v)
      else none := by
  have hlength := length_link v.nodes v.workingNode v.nodes.length
  have hlink : ∀ n rest c, link (link v.nodes v.workingNode v.nodes.length ++ n :: rest)
      (some v.nodes.length) c =
      link v.nodes v.workingNode v.nodes.length ++ addChild c n :: rest := fun n rest c => by
    have hmodify := modify_append (link v.nodes v.workingNode v.nodes.length) rest (addChild c) n
    rw [hlength] at hmodify
    exact hmodify
  have hnode : ∀ (n : QueryNode D F) rest, (link v.nodes v.workingNode v.nodes.length ++
      n :: rest)[v.nodes.length]? = some n := fun n rest => by
    rw [List.getElem?_append_right (by omega), hlength, Nat.sub_self, List.getElem?_cons_zero]
  have hroot : (v.queryRoot.or (some v.nodes.length)).isSome := by cases v.queryRoot <;> rfl
  -- the left side
  have h1 : Ready (enter op v) := ⟨hroot, op, none, false, hnode _ _⟩
  have hlength1 : (enter op v).nodes.length = v.nodes.length + 1 := by
    unfold enter
    simp [hlength]
  have hleft : (after lhs (enter op v)).nodes = link v.nodes v.workingNode v.nodes.length ++
      ⟨.binary op (some (v.nodes.length + 1)) none, false⟩ ::
        layout (v.nodes.length + 1) false lhs := by
    unfold after
    rw [hlength1]
    unfold enter
    dsimp only
    rw [hlink, List.append_assoc]
    rfl
  -- the right side
  have h2 : Ready { after lhs (enter op v) with workingNode := some v.nodes.length } := by
    refine ⟨?_, op, some (v.nodes.length + 1), false, ?_⟩
    · unfold after enter
      dsimp only
      rw [Option.isSome_or, hroot]
      rfl
    · dsimp only
      rw [hleft]
      exact hnode _ _
  have hlength2 : (after lhs (enter op v)).nodes.length = v.nodes.length + 1 + count lhs := by
    rw [hleft]
    simp only [List.length_append, List.length_cons, length_layout, hlength]
    omega
  have hright : (after rhs { after lhs (enter op v) with
      workingNode := some v.nodes.length }).nodes =
      link v.nodes v.workingNode v.nodes.length ++
        layout v.nodes.length false (.bool op.calc lhs rhs) := by
    rw [layout_connective, after]
    dsimp only
    rw [hleft, hlink, ← hleft, hlength2, List.append_assoc]
    rfl
  unfold visitConnective
  dsimp only
  rw [hlhs _ h1, leavesDefined_connective]
  cases leavesDefined lhs with
  | false => rfl
  | true =>
    rw [if_pos rfl, Option.bind_some, hrhs _ h2, Bool.true_and]
    cases leavesDefined rhs with
    | false => rfl
    | true =>
      rw [if_pos rfl, if_pos rfl, Option.map_some, Option.some.injEq, hright]
      unfold after enter
      simp only [isConnective_connective, anyLeaf_connective, if_true, Bool.or_assoc]
      cases v.queryRoot <;> rfl

/-- **The nodes the visitor makes**, where the leaves have their queries. -/
theorem visit_after (e : IValueProvider D F) : ∀ v : TreeVisitor D F, Ready v →
    visit e v = if leavesDefined e then some (after e v) else none := by
  induction e using tree_induction with
  | connective op lhs rhs ihl ihr =>
    intro v _
    rw [visit_connective]
    exact visitConnective_after ihl ihr
  | negation sub ih =>
    intro v h
    rw [visit, ih v h, leavesDefined]
    cases leavesDefined sub with
    | false => rfl
    | true => rw [if_pos rfl, if_pos rfl, Option.map_some, negateLast_after h]
  | leaf e he =>
    intro v h
    have hroot : (if v.workingNode.isSome then v.queryRoot else some v.nodes.length) =
        v.queryRoot.or (some v.nodes.length) := by
      unfold Ready at h
      cases hw : v.workingNode with
      | none =>
        rw [hw] at h
        rw [h]
        rfl
      | some w =>
        rw [hw] at h
        obtain ⟨r, hr⟩ := Option.isSome_iff_exists.mp h.1
        rw [hr]
        rfl
    rw [he.visit_eq, he.leavesDefined_eq]
    cases hq : createQuery e with
    | none => rfl
    | some query =>
      have hquery : queryOf e = query := by rw [queryOf, hq, Option.join_some]
      rw [Option.map_some, Option.isSome_some, if_pos rfl, Option.some.injEq]
      unfold addExecutableNode after
      simp only [he.layout_eq, he.isConnective_eq, he.anyLeaf_eq, hroot, hquery, leafNode]
      rfl

/-- The tree of a predicate. -/
def tree (pred : IValueProvider D F) : TreeVisitor D F := after pred init

theorem visit_init (pred : IValueProvider D F) :
    visit pred init = if leavesDefined pred then some (tree pred) else none :=
  visit_after pred init rfl

theorem laid_tree (pred : IValueProvider D F) : Laid (tree pred).nodes 0 false pred :=
  ⟨[], [], rfl, (List.append_nil _).symm⟩

/-- The visitor finds supported leaves only. -/
theorem isIndexOnly_iff {pred : IValueProvider D F} {v : TreeVisitor D F}
    (hv : visit pred init = some v) :
    v.isIndexOnly = true ↔ anyLeaf (fun e => (queryOf e).isNone) pred = false := by
  have hany : anyLeaf (fun e => (queryOf e).isNone) pred = false →
      anyLeaf (fun e => (queryOf e).isSome) pred = true := by
    clear hv
    induction pred using tree_induction with
    | connective op lhs rhs ihl ihr =>
      intro h
      rw [anyLeaf_connective, Bool.or_eq_false_iff] at h
      rw [anyLeaf_connective, ihl h.1, Bool.true_or]
    | negation sub ih => exact ih
    | leaf e he =>
      intro h
      rw [he.anyLeaf_eq] at h ⊢
      rw [← Option.not_isNone, h]
      rfl
  rw [visit_init] at hv
  split_ifs at hv
  rw [← Option.some.inj hv]
  unfold isIndexOnly tree after init
  simp only [Bool.false_or, Bool.and_eq_true, Bool.not_eq_true']
  exact ⟨And.right, fun h => ⟨hany h, h⟩⟩

/-! ### The result -/

section Result

variable (cont : List D) (executeQuery : AdaptiveIndexQuery → Option DocIndex)

/-- The result of a leaf. -/
def leafResult (negated : Bool) (e : IValueProvider D F) : DocIndex :=
  match queryOf e with
  | some query => flip cont negated (queryResult cont executeQuery query (duplicate e))
  | none => checkDocuments cont (check (duplicate e))

/-- The result of a predicate. -/
def result (negated : Bool) : IValueProvider D F → DocIndex
  | .bool .and lhs rhs => flip cont negated (result false lhs ∩ result false rhs)
  | .bool .or lhs rhs => flip cont negated (result false lhs ∪ result false rhs)
  | .not sub => result true sub
  | e => leafResult cont executeQuery negated e

/-- A connective, whose sides have their results. -/
theorem accept_connective {op : Connective} {negated : Bool} {lhs rhs : ℕ} {l r : DocIndex}
    {nodes : List (QueryNode D F)} {node fuel : ℕ}
    (hnode : nodes[node]? = some ⟨.binary op (some lhs) (some rhs), negated⟩)
    (hlhs : accept cont executeQuery nodes fuel (some lhs) = some l)
    (hrhs : accept cont executeQuery nodes fuel (some rhs) = some r) :
    accept cont executeQuery nodes (fuel + 1) (some node) =
      some (flip cont negated (op.combine l r)) := by
  rw [accept, hnode, Option.bind_some]
  dsimp only
  rw [hlhs, hrhs]
  rfl

theorem result_connective (op : Connective) (negated : Bool) (lhs rhs : IValueProvider D F) :
    result cont executeQuery negated (.bool op.calc lhs rhs) =
      flip cont negated (op.combine (result cont executeQuery false lhs)
        (result cont executeQuery false rhs)) := by
  cases op <;> rfl

theorem IsLeaf.result_eq {e : IValueProvider D F} (h : IsLeaf e) (negated : Bool) :
    result cont executeQuery negated e = leafResult cont executeQuery negated e := by
  rw [result]
  · exact h.connective .and
  · exact h.connective .or
  · exact h.negation

/-- **The executor** returns the result of the predicate. -/
theorem accept_result (e : IValueProvider D F) : ∀ {nodes : List (QueryNode D F)} {base : ℕ}
    {negated : Bool} (fuel : ℕ), Laid nodes base negated e → e.size ≤ fuel →
    accept cont executeQuery nodes fuel (some base) = some (result cont executeQuery negated e) := by
  induction e using tree_induction with
  | connective op lhs rhs ihl ihr =>
    intro nodes base negated fuel h hfuel
    rw [size] at hfuel
    obtain ⟨fuel, rfl⟩ : ∃ n, fuel = n + 1 := ⟨fuel - 1, by omega⟩
    obtain ⟨hnode, hlhs, hrhs⟩ := h.connective
    rw [result_connective]
    exact accept_connective cont executeQuery hnode (ihl fuel hlhs (by omega))
      (ihr fuel hrhs (by omega))
  | negation sub ih =>
    intro nodes base negated fuel h hfuel
    rw [size] at hfuel
    exact ih fuel h.negation (by omega)
  | leaf e he =>
    intro nodes base negated fuel h hfuel
    have hpos := e.size_pos
    obtain ⟨fuel, rfl⟩ : ∃ n, fuel = n + 1 := ⟨fuel - 1, by omega⟩
    rw [accept, h.leaf he, Option.bind_some, he.result_eq]
    unfold leafNode queryNode leafResult
    cases queryOf e <;> rfl

end Result

/-! ### On one document -/

def Connective.holds : Connective → Bool → Bool → Bool
  | .and, lhs, rhs => lhs && rhs
  | .or, lhs, rhs => lhs || rhs

/-- A wrong answer of one side changes that of the connective where the other side does not decide;
of both sides, where they are equal. -/
def sidesDiffer (op : Connective) (lhsDiffers rhsDiffers lhs rhs : Bool) : Bool :=
  match lhsDiffers, rhsDiffers, op with
  | false, false, _ => false
  | true, false, .and => rhs
  | true, false, .or => !rhs
  | false, true, .and => lhs
  | false, true, .or => !lhs
  | true, true, _ => lhs == rhs

/-- A connective below a positive, even number of negations, which are taken for one. -/
def doublyNegated (negations : ℕ) : Bool := negations != 0 && negations % 2 == 0

/-- A leaf below negations. A supported one is wrong where they are taken for one, and below an odd
number where it is no Boolean, which `NOT` leaves alone; an unsupported one is never negated. -/
def leafDiffers (json : D) (negations : ℕ) (e : IValueProvider D F) : Bool :=
  if (queryOf e).isSome then
    doublyNegated negations || (negations % 2 == 1 && (boolOf (getValue json e)).isNone)
  else negations % 2 == 1 && (boolOf (getValue json e)).isSome

/-- **Whether a wrong answer reaches the top** on a document, for a predicate below negations. -/
def differs (json : D) (negations : ℕ) : IValueProvider D F → Bool
  | .bool .and lhs rhs =>
    doublyNegated negations ^^
      sidesDiffer .and (differs json 0 lhs) (differs json 0 rhs) (check lhs json) (check rhs json)
  | .bool .or lhs rhs =>
    doublyNegated negations ^^
      sidesDiffer .or (differs json 0 lhs) (differs json 0 rhs) (check lhs json) (check rhs json)
  | .not sub => differs json (negations + 1) sub
  | e => leafDiffers json negations e

/-- Whether a document is in the result. -/
def answer (json : D) (negated : Bool) : IValueProvider D F → Bool
  | .bool .and lhs rhs => (answer json false lhs && answer json false rhs) ^^ negated
  | .bool .or lhs rhs => (answer json false lhs || answer json false rhs) ^^ negated
  | .not sub => answer json true sub
  | e => check e json ^^ ((queryOf e).isSome && negated)

theorem boolOf_iterate (json : D) (e : IValueProvider D F) : ∀ n,
    boolOf (getValue json (IValueProvider.not^[n] e)) =
      (boolOf (getValue json e)).map (· ^^ n % 2 == 1)
  | 0 => by simp
  | n + 1 => by
    have hparity : ((n + 1) % 2 == 1) = !(n % 2 == 1) := by
      rcases Nat.mod_two_eq_zero_or_one n with h | h
      · have h' : (n + 1) % 2 = 1 := by omega
        rw [h, h']
        rfl
      · have h' : (n + 1) % 2 = 0 := by omega
        rw [h, h']
        rfl
    rw [Function.iterate_succ_apply', getValue_not, notValue_eq, boolOf_iterate json e n,
      Option.map_map, hparity]
    refine congrArg (fun f => Option.map f _) (funext fun b => ?_)
    exact (Bool.xor_not _ _).symm

/-- A predicate below negations. -/
theorem check_iterate (json : D) (e : IValueProvider D F) (n : ℕ) :
    check (IValueProvider.not^[n] e) json =
      ((boolOf (getValue json e)).map (· ^^ n % 2 == 1)).getD false := by
  rw [check, asBool_eq, boolOf_iterate]

/-- Negations are taken for one: the visitor is right about an odd number and about none. -/
theorem negations_cases (n : ℕ) :
    ((n % 2 == 1) = false ∧ (n != 0) = doublyNegated n) ∨
      ((n % 2 == 1) = true ∧ (n != 0) = true ∧ doublyNegated n = false) := by
  unfold doublyNegated
  rcases Nat.mod_two_eq_zero_or_one n with h | h
  · left
    rw [h]
    simp
  · right
    have hne : n ≠ 0 := by omega
    rw [h]
    simp [hne]

theorem answer_leaf (json : D) (e : IValueProvider D F) (n : ℕ) :
    (check e json ^^ ((queryOf e).isSome && n != 0)) =
      (check (IValueProvider.not^[n] e) json ^^ leafDiffers json n e) := by
  rw [check_iterate, check, asBool_eq, leafDiffers]
  rcases negations_cases n with ⟨h1, h2⟩ | ⟨h1, h2, h3⟩
  · rw [h1, h2]
    cases boolOf (getValue json e) <;> cases (queryOf e).isSome <;> simp
  · rw [h1, h2, h3]
    cases hb : boolOf (getValue json e) with
    | none => cases (queryOf e).isSome <;> simp
    | some b => cases (queryOf e).isSome <;> cases b <;> simp

theorem sidesDiffer_eq (op : Connective) (lhsDiffers rhsDiffers lhs rhs : Bool) :
    sidesDiffer op lhsDiffers rhsDiffers lhs rhs =
      (op.holds (lhs ^^ lhsDiffers) (rhs ^^ rhsDiffers) ^^ op.holds lhs rhs) := by
  cases op <;> cases lhsDiffers <;> cases rhsDiffers <;> cases lhs <;> cases rhs <;> rfl

theorem answer_connective (json : D) (op : Connective) (negated : Bool) (lhs rhs : IValueProvider D F) :
    answer json negated (.bool op.calc lhs rhs) =
      (op.holds (answer json false lhs) (answer json false rhs) ^^ negated) := by
  cases op <;> rfl

theorem IsLeaf.answer_eq {e : IValueProvider D F} (h : IsLeaf e) (json : D) (negated : Bool) :
    answer json negated e = (check e json ^^ ((queryOf e).isSome && negated)) := by
  rw [answer]
  · exact h.connective .and
  · exact h.connective .or
  · exact h.negation

theorem differs_connective (json : D) (op : Connective) (n : ℕ) (lhs rhs : IValueProvider D F) :
    differs json n (.bool op.calc lhs rhs) = (doublyNegated n ^^
      sidesDiffer op (differs json 0 lhs) (differs json 0 rhs) (check lhs json) (check rhs json)) := by
  cases op <;> rfl

theorem IsLeaf.differs_eq {e : IValueProvider D F} (h : IsLeaf e) (json : D) (n : ℕ) :
    differs json n e = leafDiffers json n e := by
  rw [differs]
  · exact h.connective .and
  · exact h.connective .or
  · exact h.negation

theorem boolOf_connective (json : D) (op : Connective) (lhs rhs : IValueProvider D F) :
    boolOf (getValue json (.bool op.calc lhs rhs)) =
      some (op.holds (check lhs json) (check rhs json)) := by
  rw [getValue_bool]
  cases op <;> rfl

/-- **The answer on a document** is the value of the predicate, unless a wrong answer reaches the
top. -/
theorem answer_eq (json : D) (e : IValueProvider D F) : ∀ n : ℕ,
    answer json (n != 0) e = (check (IValueProvider.not^[n] e) json ^^ differs json n e) := by
  -- the answer of a connective, from those of its sides
  have hconnective : ∀ (a v d : Bool) (e : IValueProvider D F) (n : ℕ),
      boolOf (getValue json e) = some v → a = (d ^^ v) →
      (a ^^ (n != 0)) = (check (IValueProvider.not^[n] e) json ^^ (doublyNegated n ^^ d)) := by
    intro a v d e n hv ha
    rw [check_iterate, hv, ha, Option.map_some, Option.getD_some]
    rcases negations_cases n with ⟨h1, h2⟩ | ⟨h1, h2, h3⟩
    · rw [h1, h2]
      cases d <;> cases v <;> cases doublyNegated n <;> rfl
    · rw [h1, h2, h3]
      cases d <;> cases v <;> rfl
  induction e using tree_induction with
  | connective op lhs rhs ihl ihr =>
    intro n
    have hl : answer json false lhs = (check lhs json ^^ differs json 0 lhs) := ihl 0
    have hr : answer json false rhs = (check rhs json ^^ differs json 0 rhs) := ihr 0
    rw [answer_connective, differs_connective]
    refine hconnective _ _ _ _ n (boolOf_connective json op lhs rhs) ?_
    rw [hl, hr, sidesDiffer_eq, Bool.xor_assoc, Bool.xor_self, Bool.xor_false]
  | negation sub ih =>
    intro n
    have hsub : answer json true sub =
        (check (IValueProvider.not^[n + 1] sub) json ^^ differs json (n + 1) sub) := ih (n + 1)
    rw [answer, differs, hsub, Function.iterate_succ_apply]
  | leaf e he =>
    intro n
    rw [he.answer_eq, he.differs_eq, answer_leaf]

/-! ### All documents -/

section Documents

variable {cont : List D} {executeQuery : AdaptiveIndexQuery → Option DocIndex}

omit [Double F] [RapidJsonDocument D F] in
theorem mem_flip {negated : Bool} {res : DocIndex} {func : D → Bool} {i : ℕ}
    (h : i ∈ res ↔ passes cont func i = true) :
    i ∈ flip cont negated res ↔ passes cont (fun json => func json ^^ negated) i = true := by
  unfold flip
  unfold passes at h ⊢
  rcases Nat.lt_or_ge i cont.length with hi | hi
  · rw [List.getElem?_eq_getElem hi] at h ⊢
    cases negated with
    | true => simp_all
    | false => simpa using h
  · rw [List.getElem?_eq_none hi] at h ⊢
    cases negated with
    | true => simpa using fun hlt => absurd hlt (not_lt.mpr hi)
    | false => simpa using h

omit [Double F] [RapidJsonDocument D F] in
theorem mem_combine (op : Connective) {l r : DocIndex} {f g : D → Bool} {i : ℕ}
    (hl : i ∈ l ↔ passes cont f i = true) (hr : i ∈ r ↔ passes cont g i = true) :
    i ∈ op.combine l r ↔ passes cont (fun json => op.holds (f json) (g json)) i = true := by
  unfold passes at hl hr ⊢
  cases op with
  | and =>
    rw [Connective.combine, Finset.mem_inter, hl, hr]
    cases cont[i]? <;> simp [Connective.holds]
  | or =>
    rw [Connective.combine, Finset.mem_union, hl, hr]
    cases cont[i]? <;> simp [Connective.holds]

theorem leaves_connective (op : Connective) (lhs rhs : IValueProvider D F) (r : Reading) :
    leaves (.bool op.calc lhs rhs) r = leaves lhs .condition ++ leaves rhs .condition := by
  cases op <;> rfl

theorem IsLeaf.leaves_eq {e : IValueProvider D F} (h : IsLeaf e) (r : Reading) :
    leaves e r = ((queryOf e).map fun query => (e, query, r)).toList := by
  rw [leaves]
  · exact h.connective .and
  · exact h.connective .or
  · exact h.negation

/-- **The documents of the result**, where the index answers its queries as it should. -/
theorem mem_result (e : IValueProvider D F) : Fresh e → ∀ (r : Reading) (negated : Bool),
    (∀ leaf query r', (leaf, query, r') ∈ leaves e r →
      ∀ res, executeQuery query = some res → res = select cont leaf) →
    ∀ i, i ∈ result cont executeQuery negated e ↔
      passes cont (fun json => answer json negated e) i = true := by
  induction e using tree_induction with
  | connective op lhs rhs ihl ihr =>
    intro hfresh r negated h i
    rw [leaves_connective] at h
    obtain ⟨hfreshl, hfreshr⟩ := fresh_bool.mp hfresh
    have hl := ihl hfreshl .condition false (fun leaf query r' hm =>
      h leaf query r' (List.mem_append_left _ hm)) i
    have hr := ihr hfreshr .condition false (fun leaf query r' hm =>
      h leaf query r' (List.mem_append_right _ hm)) i
    rw [result_connective, mem_flip (mem_combine op hl hr)]
    simp only [answer_connective]
  | negation sub ih =>
    intro hfresh r negated h i
    have hsub := ih (fresh_not.mp hfresh) .negated true (fun leaf query r' hm => h leaf query r' (by
      rw [leaves]; exact hm)) i
    rw [result, hsub]
    simp only [answer]
  | leaf e he =>
    intro hfresh r negated h i
    have hcheck : i ∈ checkDocuments cont (check e) ↔ passes cont (check e) i = true := mem_select
    simp only [he.answer_eq, he.result_eq]
    unfold leafResult
    rw [hfresh]
    cases hq : queryOf e with
    | none => simpa using hcheck
    | some query =>
      have hselect : queryResult cont executeQuery query e = checkDocuments cont (check e) := by
        unfold queryResult
        cases hres : executeQuery query with
        | none => rfl
        | some res =>
          refine h e query r ?_ res hres
          rw [he.leaves_eq, hq]
          simp
      dsimp only
      rw [hselect, mem_flip hcheck]
      simp

end Documents

theorem index_exact_equality (negations : ℕ) (leaf : IValueProvider (FlatDocument Float) Float)
    (query : AdaptiveIndexQuery) (r : Reading)
    (h : (leaf, query, r) ∈
      leaves (IValueProvider.not^[negations] (attributeIs "/a" "x")) .condition)
    (res : DocIndex) (hres : index documents query = some res) : res = select documents leaf := by
  have hleaves : ∀ n (r : Reading), ∃ r', leaves (IValueProvider.not^[n] (attributeIs "/a" "x")) r =
      [(attributeIs "/a" "x", ⟨ascii "/a", .STRING (ascii "x"), .EQUALS, .NONE⟩, r')] := by
    intro n
    induction n with
    | zero => exact fun r => ⟨r, rfl⟩
    | succ n ih =>
      intro r
      rw [Function.iterate_succ_apply', leaves]
      exact ih .negated
  obtain ⟨r', hr⟩ := hleaves negations .condition
  rw [hr, List.mem_singleton] at h
  obtain ⟨rfl, rfl, -⟩ := h
  rw [← Option.some.inj hres]
  decide

end Joda.Execution.QueryTree
