import Joda.Execution.QueryTree
import Joda.Index.VisitedNode
import Joda.Lib.WrappedSums

/-! # The effort of an index query

`AdaptiveIndexExecutor::estimateIndexEffort` adds up the estimates of the queries in a tree, whose
greatest number stands for an index that is not applicable. It tests the left summand for it twice and
the right one never, and no sum for an overflow. -/

namespace Joda.Execution.IndexEffort

open Joda.Values.Value Joda.Values.Provider Joda.Values.Provider.IValueProvider
open Joda.Index.Query Joda.Index.EstimateWork Joda.Execution.MixedQuery Joda.Execution.QueryTree
open Joda.Execution.QueryTree.TreeVisitor Joda.Lib.Fuel Joda.Lib.WrappedSums

variable {D F : Type} [Double F] [RapidJsonDocument D F]

/-! ### The estimate -/

/-- Both tests are of the left side. -/
def addEfforts (effort1 effort2 : UInt64) : UInt64 :=
  if effort1 = NOT_APPLICABLE ∨ effort1 = NOT_APPLICABLE then NOT_APPLICABLE else effort1 + effort2

/-- **`estimateIndexEffort`**, `none` when the fuel runs out. -/
def estimateIndexEffort (estimateWork : AdaptiveIndexQuery → UInt64) (nodes : List (QueryNode D F)) :
    ℕ → Option ℕ → Option UInt64
  | 0, _ => none
  | _ + 1, none => some 0
  | fuel + 1, some queryNode =>
    nodes[queryNode]?.bind fun n =>
      match n.kind with
      | .binary _ lhs rhs =>
        (estimateIndexEffort estimateWork nodes fuel lhs).bind fun effort1 =>
          (estimateIndexEffort estimateWork nodes fuel rhs).map fun effort2 =>
            addEfforts effort1 effort2
      | .executable query _ => some (estimateWork query)
      | .unsupported _ => some 0

/-- **`AdaptiveIndexExecutor::estimatedWork`** in a container of `size` documents, with the option
`adaptiveIndex`. -/
def estimatedWork (adaptiveIndex : Bool) (estimateWork : AdaptiveIndexQuery → UInt64) (size : UInt64)
    (v : TreeVisitor D F) (fuel : ℕ) : Option UInt64 :=
  if !adaptiveIndex || !v.indexFound then some NOT_APPLICABLE
  else
    (estimateIndexEffort estimateWork v.nodes fuel v.queryRoot).map fun effort =>
      if effort = NOT_APPLICABLE then NOT_APPLICABLE
      -- even if the effort is higher
      else if size - 1 < effort then size - 1
      else effort

/-! ### The effort of a predicate -/

section Effort

variable (estimateWork : AdaptiveIndexQuery → UInt64)

/-- The effort of the tree of a predicate. -/
def effortOf : IValueProvider D F → UInt64
  | .bool .and lhs rhs => addEfforts (effortOf lhs) (effortOf rhs)
  | .bool .or lhs rhs => addEfforts (effortOf lhs) (effortOf rhs)
  | .not sub => effortOf sub
  | e => (queryOf e).elim 0 estimateWork

/-- The sum that is the effort. -/
def term : IValueProvider D F → Term
  | .bool .and lhs rhs => .add (term lhs) (term rhs)
  | .bool .or lhs rhs => .add (term lhs) (term rhs)
  | .not sub => term sub
  | e => .leaf ((queryOf e).elim 0 estimateWork).toNat

theorem effortOf_connective (op : Connective) (lhs rhs : IValueProvider D F) :
    effortOf estimateWork (.bool op.calc lhs rhs) =
      addEfforts (effortOf estimateWork lhs) (effortOf estimateWork rhs) := by
  cases op <;> rfl

theorem effortOf_leaf {e : IValueProvider D F} (h : IsLeaf e) :
    effortOf estimateWork e = (queryOf e).elim 0 estimateWork := by
  rw [effortOf]
  · exact h.connective .and
  · exact h.connective .or
  · exact h.negation

theorem term_connective (op : Connective) (lhs rhs : IValueProvider D F) :
    term estimateWork (.bool op.calc lhs rhs) =
      .add (term estimateWork lhs) (term estimateWork rhs) := by
  cases op <;> rfl

theorem term_leaf {e : IValueProvider D F} (h : IsLeaf e) :
    term estimateWork e = .leaf ((queryOf e).elim 0 estimateWork).toNat := by
  rw [term]
  · exact h.connective .and
  · exact h.connective .or
  · exact h.negation

/-- **The estimate of a tree** is the effort of its predicate. -/
theorem estimateIndexEffort_laid (e : IValueProvider D F) :
    ∀ {nodes : List (QueryNode D F)} {base : ℕ} {negated : Bool} (fuel : ℕ),
      Laid nodes base negated e → e.size ≤ fuel →
      estimateIndexEffort estimateWork nodes fuel (some base) = some (effortOf estimateWork e) := by
  induction e using tree_induction with
  | connective op lhs rhs ihl ihr =>
    intro nodes base negated fuel h hfuel
    rw [size] at hfuel
    obtain ⟨fuel, rfl⟩ : ∃ n, fuel = n + 1 := ⟨fuel - 1, by omega⟩
    obtain ⟨hnode, hlhs, hrhs⟩ := h.connective
    rw [estimateIndexEffort, hnode, Option.bind_some, effortOf_connective]
    dsimp only
    rw [ihl fuel hlhs (by omega), ihr fuel hrhs (by omega)]
    rfl
  | negation sub ih =>
    intro nodes base negated fuel h hfuel
    rw [size] at hfuel
    exact ih fuel h.negation (by omega)
  | leaf e he =>
    intro nodes base negated fuel h hfuel
    have hpos := e.size_pos
    obtain ⟨fuel, rfl⟩ : ∃ n, fuel = n + 1 := ⟨fuel - 1, by omega⟩
    rw [estimateIndexEffort, h.leaf he, Option.bind_some, effortOf_leaf estimateWork he]
    unfold leafNode queryNode
    cases queryOf e <;> rfl

/-! ### Words and numbers -/

theorem toNat_addEfforts (effort1 effort2 : UInt64) : (addEfforts effort1 effort2).toNat =
    plus NOT_APPLICABLE.toNat effort1.toNat effort2.toNat := by
  unfold addEfforts plus
  by_cases h : effort1 = NOT_APPLICABLE
  · rw [if_pos (Or.inl h), if_pos (congrArg UInt64.toNat h)]
  · rw [if_neg (by rwa [or_self]), if_neg fun heq => h (UInt64.toNat_inj.mp heq)]
    exact UInt64.toNat_add effort1 effort2

theorem toNat_effortOf (e : IValueProvider D F) :
    (effortOf estimateWork e).toNat = (term estimateWork e).value NOT_APPLICABLE.toNat := by
  induction e using tree_induction with
  | connective op lhs rhs ihl ihr =>
    rw [effortOf_connective, term_connective, Term.value, toNat_addEfforts, ihl, ihr]
  | negation sub ih => exact ih
  | leaf e he =>
    rw [effortOf_leaf estimateWork he, term_leaf estimateWork he]
    rfl

theorem term_bounded (e : IValueProvider D F) :
    (term estimateWork e).Bounded NOT_APPLICABLE.toNat := by
  induction e using tree_induction with
  | connective op lhs rhs ihl ihr =>
    rw [term_connective]
    exact Term.bounded_add.mpr ⟨ihl, ihr⟩
  | negation sub ih => exact ih
  | leaf e he =>
    rw [term_leaf estimateWork he]
    intro a ha
    rw [List.mem_singleton.mp ha]
    exact Nat.le_of_lt_succ (UInt64.toNat_lt _)

/-- A sum of words that is no less than either. -/
theorem le_add_iff {a b : UInt64} :
    (a ≤ a + b ∧ b ≤ a + b) ↔ a.toNat + b.toNat ≤ NOT_APPLICABLE.toNat := by
  have htop : NOT_APPLICABLE.toNat = 2 ^ 64 - 1 := rfl
  have ha := a.toNat_lt
  have hb := b.toNat_lt
  rw [UInt64.le_iff_toNat_le, UInt64.le_iff_toNat_le, UInt64.toNat_add, htop]
  omega

/-! ### Sound efforts -/

/-- A query that has to be executed. -/
def Executed (nodes : List (QueryNode D F)) (query : AdaptiveIndexQuery) : Prop :=
  ∃ node ∈ nodes, ∃ predicate, node.kind = .executable query predicate

/-- The effort of a node. -/
def Estimates (nodes : List (QueryNode D F)) (node : Option ℕ) (effort : UInt64) : Prop :=
  Returns (fun fuel => estimateIndexEffort estimateWork nodes fuel node) effort

/-- The sum of a node does not wrap around. -/
def SumRight (nodes : List (QueryNode D F)) (node : QueryNode D F) : Prop :=
  ∀ op lhs rhs, node.kind = .binary op lhs rhs → ∀ effort1 effort2,
    Estimates estimateWork nodes lhs effort1 → Estimates estimateWork nodes rhs effort2 →
      effort1 ≠ NOT_APPLICABLE → effort1 ≤ effort1 + effort2 ∧ effort2 ≤ effort1 + effort2

/-- **A sound effort** of a predicate: not applicable exactly if a query that has to be executed is, and
otherwise no less than the estimate of any; and no sum on the way wraps around to a smaller effort. -/
structure EffortSound (pred : IValueProvider D F) : Prop where
  effort : ∃ effort, Estimates estimateWork (tree pred).nodes (tree pred).queryRoot effort ∧
    (effort = NOT_APPLICABLE ↔
      ∃ query, Executed (tree pred).nodes query ∧ estimateWork query = NOT_APPLICABLE) ∧
    (effort ≠ NOT_APPLICABLE →
      ∀ query, Executed (tree pred).nodes query → estimateWork query ≤ effort)
  sums : ∀ node ∈ (tree pred).nodes, SumRight estimateWork (tree pred).nodes node

/-- **When an effort is sound**: at every connective the estimates on its left are all zero, reach the
greatest number together, or do not exceed it together with those on its right; and a query that has to
be executed is not applicable, or all estimates together are less than the greatest number. -/
structure EffortFits (pred : IValueProvider D F) : Prop where
  connectives : (term estimateWork pred).Fits NOT_APPLICABLE.toNat
  total : (∃ query, Executed (tree pred).nodes query ∧ estimateWork query = NOT_APPLICABLE) ∨
    (term estimateWork pred).sum < NOT_APPLICABLE.toNat

theorem estimates_laid {nodes : List (QueryNode D F)} {base : ℕ} {negated : Bool}
    {e : IValueProvider D F} (h : Laid nodes base negated e) :
    Estimates estimateWork nodes (some base) (effortOf estimateWork e) :=
  ⟨e.size, fun n hn => estimateIndexEffort_laid estimateWork e n h hn⟩

omit [Double F] [RapidJsonDocument D F] in
theorem executed_singleton {node : QueryNode D F} {query : AdaptiveIndexQuery} :
    Executed [node] query ↔ ∃ predicate, node.kind = .executable query predicate := by
  unfold Executed
  rw [List.exists_mem_cons_iff]
  exact or_iff_left (by simp)

theorem executed_connective {op : Connective} {lhs rhs : IValueProvider D F} {base : ℕ} {negated : Bool}
    {query : AdaptiveIndexQuery} : Executed (layout base negated (.bool op.calc lhs rhs)) query ↔
      Executed (layout (base + 1) false lhs) query ∨
        Executed (layout (base + 1 + count lhs) false rhs) query := by
  unfold Executed
  rw [layout_connective, List.exists_mem_cons_iff]
  refine (or_iff_right fun h => ?_).trans ?_
  · obtain ⟨predicate, hkind⟩ := h
    cases hkind
  · simp only [List.mem_append, or_and_right, exists_or]

/-- The numbers of the sum are the estimates, and zero for what the index does not support. -/
theorem mem_leaves {a : ℕ} (ha : a ≠ 0) (e : IValueProvider D F) : ∀ {base : ℕ} {negated : Bool},
    a ∈ (term estimateWork e).leaves ↔
      ∃ query, Executed (layout base negated e) query ∧ (estimateWork query).toNat = a := by
  induction e using tree_induction with
  | connective op lhs rhs ihl ihr =>
    intro base negated
    rw [term_connective, Term.leaves, List.mem_append, @ihl (base + 1) false,
      @ihr (base + 1 + count lhs) false, ← exists_or]
    exact exists_congr fun query => by rw [executed_connective, or_and_right]
  | negation sub ih => exact fun {base negated} => @ih base true
  | leaf e he =>
    intro base negated
    simp only [term_leaf estimateWork he, he.layout_eq, Term.leaves, List.mem_singleton,
      executed_singleton]
    unfold leafNode
    cases hquery : queryOf e with
    | none =>
      refine iff_of_false ha ?_
      rintro ⟨query, ⟨predicate, hkind⟩, -⟩
      cases hkind
    | some query =>
      constructor
      · rintro rfl
        exact ⟨query, ⟨duplicate e, rfl⟩, rfl⟩
      · rintro ⟨query', ⟨predicate, hkind⟩, rfl⟩
        obtain ⟨rfl, -⟩ := NodeKind.executable.inj hkind
        rfl

/-- **No sum wraps around** exactly if that of no node does. -/
theorem sums_iff (e : IValueProvider D F) : ∀ {nodes : List (QueryNode D F)} {base : ℕ}
    {negated : Bool}, Laid nodes base negated e →
    ((∀ node ∈ layout base negated e, SumRight estimateWork nodes node) ↔
      (term estimateWork e).NeverWraps NOT_APPLICABLE.toNat) := by
  induction e using tree_induction with
  | connective op lhs rhs ihl ihr =>
    intro nodes base negated h
    obtain ⟨-, hlhs, hrhs⟩ := h.connective
    rw [layout_connective, List.forall_mem_cons, List.forall_mem_append, ihl hlhs, ihr hrhs,
      term_connective, Term.NeverWraps, ← toNat_effortOf, ← toNat_effortOf, ← le_add_iff,
      and_comm, and_assoc]
    refine and_congr_right fun _ => and_congr_right fun _ => ?_
    constructor
    · intro hright hne
      exact hright op _ _ rfl _ _ (estimates_laid estimateWork hlhs) (estimates_laid estimateWork hrhs)
        fun heq => hne (congrArg _ heq)
    · rintro hle op' lhs' rhs' hkind effort1 effort2 h1 h2 hne
      obtain ⟨-, rfl, rfl⟩ := NodeKind.binary.inj hkind
      obtain rfl := h1.unique (estimates_laid estimateWork hlhs)
      obtain rfl := h2.unique (estimates_laid estimateWork hrhs)
      exact hle fun heq => hne (UInt64.toNat_inj.mp heq)
  | negation sub ih => exact fun h => ih h.negation
  | leaf e he =>
    intro nodes base negated h
    rw [term_leaf estimateWork he, he.layout_eq]
    refine ⟨fun _ => trivial, fun _ node hnode op lhs rhs hkind => ?_⟩
    rw [List.mem_singleton.mp hnode] at hkind
    unfold leafNode at hkind
    cases hquery : queryOf e with
    | none => rw [hquery] at hkind; cases hkind
    | some query => rw [hquery] at hkind; cases hkind

theorem nodes_tree (pred : IValueProvider D F) : (tree pred).nodes = layout 0 false pred := rfl

/-- The effort at the root. -/
theorem estimates_tree (pred : IValueProvider D F) : Estimates estimateWork (tree pred).nodes
    (tree pred).queryRoot (effortOf estimateWork pred) :=
  estimates_laid estimateWork (laid_tree pred)

theorem notApplicable_mem_leaves (pred : IValueProvider D F) :
    NOT_APPLICABLE.toNat ∈ (term estimateWork pred).leaves ↔
      ∃ query, Executed (tree pred).nodes query ∧ estimateWork query = NOT_APPLICABLE := by
  rw [mem_leaves estimateWork (by decide) pred, nodes_tree]
  exact exists_congr fun query => and_congr_right fun _ => UInt64.toNat_inj

/-- What is no less than the numbers is no less than the estimates. -/
theorem leaves_le_iff (pred : IValueProvider D F) (effort : UInt64) :
    (∀ a ∈ (term estimateWork pred).leaves, a ≤ effort.toNat) ↔
      ∀ query, Executed (tree pred).nodes query → estimateWork query ≤ effort := by
  rw [nodes_tree]
  constructor
  · intro hall query hquery
    rw [UInt64.le_iff_toNat_le]
    rcases Nat.eq_zero_or_pos (estimateWork query).toNat with hzero | hpos
    · omega
    · exact hall _ ((mem_leaves estimateWork hpos.ne' pred).mpr ⟨query, hquery, rfl⟩)
  · intro hall a ha
    rcases Nat.eq_zero_or_pos a with rfl | hpos
    · exact Nat.zero_le _
    · obtain ⟨query, hquery, rfl⟩ := (mem_leaves estimateWork hpos.ne' pred).mp ha
      exact UInt64.le_iff_toNat_le.mp (hall query hquery)

/-- An effort is sound if its sum is. -/
theorem effortSound_iff_sound (pred : IValueProvider D F) :
    EffortSound estimateWork pred ↔ (term estimateWork pred).Sound NOT_APPLICABLE.toNat := by
  have hestimates := estimates_tree estimateWork pred
  have htop := notApplicable_mem_leaves estimateWork pred
  have hleaves := leaves_le_iff estimateWork pred (effortOf estimateWork pred)
  have hvalue := toNat_effortOf estimateWork pred
  have hsums : (∀ node ∈ (tree pred).nodes,
      SumRight estimateWork (tree pred).nodes node) ↔
        (term estimateWork pred).NeverWraps NOT_APPLICABLE.toNat := by
    rw [nodes_tree]
    exact sums_iff estimateWork pred ⟨[], [], rfl, (List.append_nil _).symm⟩
  constructor
  · rintro ⟨⟨effort, heffort, hna, hle⟩, hright⟩
    obtain rfl := heffort.unique hestimates
    refine ⟨hsums.mp hright, ?_, fun hne => ?_⟩
    · rw [← hvalue, UInt64.toNat_inj, hna, htop]
    · rw [← hvalue] at hne ⊢
      exact hleaves.mpr (hle fun heq => hne (congrArg _ heq))
  · rintro ⟨hwraps, hna, hle⟩
    rw [← hvalue] at hna hle
    refine ⟨⟨effortOf estimateWork pred, hestimates, ?_, fun hne => ?_⟩, hsums.mpr hwraps⟩
    · rw [← htop, ← hna, UInt64.toNat_inj]
    · exact hleaves.mp (hle fun heq => hne (UInt64.toNat_inj.mp heq))

/-- **An effort is sound** exactly under the condition. -/
theorem effortSound_iff (pred : IValueProvider D F) :
    EffortSound estimateWork pred ↔ EffortFits estimateWork pred := by
  rw [effortSound_iff_sound, Term.sound_iff (term_bounded estimateWork pred),
    notApplicable_mem_leaves estimateWork pred]
  exact ⟨fun h => ⟨h.1, h.2⟩, fun h => ⟨h.connectives, h.total⟩⟩

/-- **The index is promoted** exactly if it is applicable, where the effort is sound. -/
theorem estimatedWork_iff (adaptiveIndex : Bool) (docCount : UInt64) {pred : IValueProvider D F}
    (h : EffortFits estimateWork pred) : ∃ work,
      Returns (estimatedWork adaptiveIndex estimateWork docCount (tree pred)) work ∧
      (work ≠ NOT_APPLICABLE ↔ adaptiveIndex = true ∧ (tree pred).indexFound = true ∧
        ∀ query, Executed (tree pred).nodes query → estimateWork query ≠ NOT_APPLICABLE) := by
  obtain ⟨effort, ⟨N, hN⟩, hna, -⟩ := ((effortSound_iff estimateWork pred).mpr h).effort
  by_cases hindex : adaptiveIndex = true ∧ (tree pred).indexFound = true
  · have hsupported : ¬ (!adaptiveIndex || !(tree pred).indexFound) = true := by
      rw [hindex.1, hindex.2]
      decide
    rw [← and_assoc, and_iff_right hindex]
    refine ⟨if effort = NOT_APPLICABLE then NOT_APPLICABLE
      else if docCount - 1 < effort then docCount - 1 else effort, ⟨N, fun n hn => ?_⟩, ?_⟩
    · have hestimate := hN n hn
      dsimp only at hestimate
      unfold estimatedWork
      rw [if_neg hsupported, hestimate]
      rfl
    · have happlicable : effort ≠ NOT_APPLICABLE ↔ ∀ query, Executed (tree pred).nodes query →
          estimateWork query ≠ NOT_APPLICABLE := by
        rw [Ne, hna, not_exists]
        exact forall_congr' fun query => not_and
      rw [← happlicable]
      split_ifs with hnone hmore
      · exact iff_of_false (fun hne => hne rfl) fun hne => hne hnone
      · refine iff_of_true (fun heq => ?_) hnone
        rw [heq, UInt64.lt_iff_toNat_lt] at hmore
        exact absurd (Nat.le_of_lt_succ effort.toNat_lt) (not_le.mpr hmore)
      · exact Iff.rfl
  · refine ⟨NOT_APPLICABLE, ⟨0, fun n _ => if_pos ?_⟩, ?_⟩
    · rw [not_and_or] at hindex
      simpa using hindex
    · exact iff_of_false (fun hne => hne rfl) fun hall => hindex ⟨hall.1, hall.2.1⟩

end Effort

/-! ### Both estimates -/

/-- **The estimates of trees and of nodes are sound** exactly under the conditions. -/
theorem effort_sound_iff :
    (∀ (estimateWork : AdaptiveIndexQuery → UInt64) (pred : IValueProvider D F),
      EffortSound estimateWork pred ↔ EffortFits estimateWork pred) ∧
    ∀ (docs : List (RJValue F)) (node : IndexedNode) (query : AdaptiveIndexQuery),
      ExactNode docs node → (EstimateSound docs query node ↔ EstimateFits docs query node) :=
  ⟨effortSound_iff, fun _ _ query h => estimate_sound_iff h query⟩

/-- The estimate of a leaf on the right is not applicable. -/
def rightNotApplicable (query : AdaptiveIndexQuery) : UInt64 :=
  if query.propertyPath = ascii "/a" then 5 else NOT_APPLICABLE

theorem effort_sound_twoStrings :
    EffortSound (fun _ => 1) (.bool .and (attributeIs "/a" "x") (attributeIs "/b" "y")) ∧
      EstimateSound twoStrings equalsX (visitedNode twoStrings equalsX 2) := by
  obtain ⟨htree, hnode⟩ := effort_sound_iff (D := FlatDocument Float) (F := Float)
  refine ⟨(htree _ _).mpr ⟨?_, .inr (by decide)⟩,
    (hnode _ _ _ exactNode_twoStrings).mpr ⟨fun types h => ?_, fun h => ?_⟩⟩
  · exact ⟨trivial, trivial, by decide⟩
  · cases h
  · cases h

/-- The index of `/b` is not applicable, and five more is four; and without strings the sizes of the
ranges are more than the two documents. -/
theorem not_effort_sound :
    (¬ ∀ (estimateWork : AdaptiveIndexQuery → UInt64) (pred : IValueProvider (FlatDocument Float) Float),
      EffortSound estimateWork pred) ∧
    ¬ ∀ (docs : List (RJValue Float)) (node : IndexedNode) (query : AdaptiveIndexQuery),
      ExactNode docs node → EstimateSound docs query node := by
  constructor
  · intro hall
    obtain ⟨⟨effort, heffort, hna, -⟩, -⟩ := hall rightNotApplicable
      (.bool .and (attributeIs "/a" "x") (attributeIs "/b" "y"))
    obtain rfl := heffort.unique (estimates_tree _ _)
    have hfour := hna.mpr ⟨⟨ascii "/b", .STRING (ascii "y"), .EQUALS, .NONE⟩,
      ⟨⟨.executable _ (attributeIs "/b" "y"), false⟩, .tail _ (.tail _ (.head _)), _, rfl⟩, rfl⟩
    exact absurd hfour (by decide)
  · intro hall
    have hbound := (hall _ _ equalsX exactNode_nullAndTrue).bound (UInt64.ofNat (2 ^ 64 - 2)) rfl
    exact absurd hbound (by decide)

end Joda.Execution.IndexEffort
