import Joda.Lib.Table
import Joda.Values.Pointer
import Mathlib.Data.Multiset.Bind
import Mathlib.Data.Multiset.Fold
import Mathlib.Order.Lattice

/-! # Attribute statistics

`AttStatHandler` counts, for the root and for every attribute, the values of each type and keeps the
smallest and largest of them. A `Node` has a node for each member that occurred and for each index of
an array. What a node holds depends on the values that were accumulated, not on their order; only the
order of the nodes of the members does. -/

namespace Joda.Aggregation.AttributeStat

open Joda.Lib.Table Joda.Values.Value Joda.Values.Pointer

variable {F : Type}

/-! ### Counters -/

section Widen

variable {α : Type*} [LinearOrder α]

/-- The smallest and the largest of what two of them cover. -/
def widen : Option (α × α) → Option (α × α) → Option (α × α)
  | none, b => b
  | a, none => a
  | some a, some b => some (min a.1 b.1, max a.2 b.2)

theorem widen_comm (a b : Option (α × α)) : widen a b = widen b a := by
  rcases a with _ | a <;> rcases b with _ | b
  · rfl
  · rfl
  · rfl
  · simp only [widen, min_comm, max_comm]

theorem widen_assoc (a b c : Option (α × α)) : widen (widen a b) c = widen a (widen b c) := by
  rcases a with _ | a <;> rcases b with _ | b <;> rcases c with _ | c <;>
    simp only [widen, min_assoc, max_assoc]

@[simp] theorem widen_none (a : Option (α × α)) : widen a none = a := by
  rcases a with _ | a <;> rfl

end Widen

/-- The counters of a `Node`; a smallest and largest value is missing where there was none. -/
structure Stats (F : Type) where
  count_obj : ℕ
  member : Option (ℕ × ℕ)
  count_arr : ℕ
  size : Option (ℕ × ℕ)
  count_null : ℕ
  count_str : ℕ
  strsize : Option (ℕ × ℕ)
  count_double : ℕ
  double : Option (F × F)
  count_int : ℕ
  int : Option (ℤ × ℤ)
  count_bool : ℕ
  count_true : ℕ
  count_false : ℕ

namespace Stats

def zero : Stats F := ⟨0, none, 0, none, 0, 0, none, 0, none, 0, none, 0, 0, 0⟩

def getCount (s : Stats F) : ℕ :=
  s.count_null + s.count_obj + s.count_arr + s.count_int + s.count_double + s.count_bool + s.count_str

variable [LinearOrder F]

def merge (s o : Stats F) : Stats F where
  count_obj := s.count_obj + o.count_obj
  member := widen s.member o.member
  count_arr := s.count_arr + o.count_arr
  size := widen s.size o.size
  count_null := s.count_null + o.count_null
  count_str := s.count_str + o.count_str
  strsize := widen s.strsize o.strsize
  count_double := s.count_double + o.count_double
  double := widen s.double o.double
  count_int := s.count_int + o.count_int
  int := widen s.int o.int
  count_bool := s.count_bool + o.count_bool
  count_true := s.count_true + o.count_true
  count_false := s.count_false + o.count_false

theorem merge_comm (s o : Stats F) : merge s o = merge o s := by
  simp only [merge, Nat.add_comm, widen_comm]

theorem merge_assoc (s t u : Stats F) : merge (merge s t) u = merge s (merge t u) := by
  simp only [merge, Nat.add_assoc, widen_assoc]

instance : Std.Commutative (merge (F := F)) := ⟨merge_comm⟩

instance : Std.Associative (merge (F := F)) := ⟨merge_assoc⟩

@[simp] theorem merge_zero (s : Stats F) : merge s zero = s := by
  simp [merge, zero]

end Stats

/-- What the events of one value count at its node. The numbers that are `u_int64_t` are cast to
`int64_t`. -/
def statOf : RJValue F → Stats F
  | .null => { Stats.zero with count_null := 1 }
  | .bool b => { Stats.zero with
      count_bool := 1, count_true := if b then 1 else 0, count_false := if b then 0 else 1 }
  | .number (.int z) => { Stats.zero with
      count_int := 1, int := some (z.bmod (2 ^ 64), z.bmod (2 ^ 64)) }
  | .number (.double x) => { (Stats.zero : Stats F) with count_double := 1, double := some (x, x) }
  | .string s => { Stats.zero with count_str := 1, strsize := some (s.length, s.length) }
  | .array vs => { Stats.zero with count_arr := 1, size := some (vs.length, vs.length) }
  | .object ms => { Stats.zero with
      count_obj := 1, member := some (ms.length, ms.length) }

/-! ### Nodes -/

/-- **`AttStatHandler::Node`** -/
inductive Node (F : Type) where
  | mk (name : Str) (stats : Stats F) (children : List (Node F)) (arrMembers : List (Node F))

namespace Node

def name : Node F → Str
  | mk name _ _ _ => name

/-- A new node. -/
def empty (name : Str) : Node F := mk name .zero [] []

end Node

/-- `std::to_string` of an index. -/
def indexName (i : ℕ) : Str := ascii (toString i)

/-- `findChild`, and what is done with the child. -/
def atChild (name : Str) (f : Node F → Node F) (children : List (Node F)) : List (Node F) :=
  atKey Node.name name (f (.empty name)) f children

/-- `findArrElt`, and what is done with the element. -/
def atElement (i : ℕ) (f : Node F → Node F) (arrMembers : List (Node F)) : List (Node F) :=
  if i < arrMembers.length then arrMembers.modify i f
  else arrMembers ++ [f (.empty (indexName i))]

variable [LinearOrder F]

mutual

/-- **The events of a value**, at its node. -/
def addValue : RJValue F → Node F → Node F
  | .object ms, .mk name stats children arrMembers =>
    .mk name (stats.merge (statOf (.object ms))) (addMembers ms children) arrMembers
  | .array vs, .mk name stats children arrMembers =>
    .mk name (stats.merge (statOf (.array vs))) children (addElements vs 0 arrMembers)
  | v, .mk name stats children arrMembers => .mk name (stats.merge (statOf v)) children arrMembers

def addMembers : List (Str × RJValue F) → List (Node F) → List (Node F)
  | [], children => children
  | (name, v) :: ms, children => addMembers ms (atChild name (addValue v) children)

def addElements : List (RJValue F) → ℕ → List (Node F) → List (Node F)
  | [], _, arrMembers => arrMembers
  | v :: vs, i, arrMembers => addElements vs (i + 1) (atElement i (addValue v) arrMembers)

end

mutual

/-- **`merge`** of the first node into the second. -/
def merge : Node F → Node F → Node F
  | .mk _ stats' children' arrMembers', .mk name stats children arrMembers =>
    .mk name (stats.merge stats') (mergeChildren children' children)
      (mergeElements arrMembers' 0 arrMembers)

def mergeChildren : List (Node F) → List (Node F) → List (Node F)
  | [], children => children
  | c :: cs, children => mergeChildren cs (atChild c.name (merge c) children)

def mergeElements : List (Node F) → ℕ → List (Node F) → List (Node F)
  | [], _, arrMembers => arrMembers
  | c :: cs, i, arrMembers => mergeElements cs (i + 1) (atElement i (merge c) arrMembers)

end

/-- A member of the result. -/
abbrev Entry (F : Type) := Str × RJValue F

def countEntry (name : String) (n : ℕ) : Entry F := (ascii name, .number (.int n))

/-- The smallest and the largest, if there are some. -/
def extremes (min max : String) (b : Option (ℤ × ℤ)) : List (Entry F) :=
  b.elim [] fun b => [(ascii min, .number (.int b.1)), (ascii max, .number (.int b.2))]

def lengths (b : Option (ℕ × ℕ)) : Option (ℤ × ℤ) := b.map fun b => (b.1, b.2)

/-- The members of the result that stand for the counters. -/
def statEntries (s : Stats F) : List (Entry F) :=
  [countEntry "Count_Total" s.getCount, countEntry "Count_Object" s.count_obj] ++
  extremes "Min_Member" "Max_Member" (lengths s.member) ++ [countEntry "Count_Array" s.count_arr] ++
  extremes "Min_Size" "Max_Size" (lengths s.size) ++
  [countEntry "Count_Null" s.count_null, countEntry "Count_Boolean" s.count_bool,
    countEntry "Count_True" s.count_true, countEntry "Count_False" s.count_false,
    countEntry "Count_String" s.count_str] ++
  extremes "Min_StrSize" "Max_StrSize" (lengths s.strsize) ++ [countEntry "Count_Int" s.count_int] ++
  extremes "Min_Int" "Max_Int" s.int ++ [countEntry "Count_Float" s.count_double] ++
  s.double.elim [] (fun b =>
    [(ascii "Min_Float", .number (.double b.1)), (ascii "Max_Float", .number (.double b.2))]) ++
  [countEntry "Count_Number" (s.count_int + s.count_double)]

def ofEntries (es : List (Entry F)) : RJValue F := .object es

mutual

/-- **`toValue`** -/
def toValue : Node F → RJValue F
  | .mk name stats children arrMembers =>
    ofEntries ((if name = [] then [] else [(ascii "Key", .string name)]) ++ statEntries stats ++
      (match toValues children with
        | [] => []
        | v :: vs => [(ascii "Children", .array (v :: vs))]) ++
      (match toValues arrMembers with
        | [] => []
        | v :: vs => [(ascii "Array_Items", .array (v :: vs))]))

def toValues : List (Node F) → List (RJValue F)
  | [] => []
  | c :: cs => toValue c :: toValues cs

end

/-! ### What a node holds -/

/-- The members of a value with a name. -/
def membersOf (name : Str) (v : RJValue F) : Multiset (RJValue F) :=
  (((members v).filter (·.1 = name)).map Prod.snd : List (RJValue F))

def elements : RJValue F → List (RJValue F)
  | .array vs => vs
  | _ => []

/-- The element of a value at an index. -/
def elementOf (i : ℕ) (v : RJValue F) : Multiset (RJValue F) := ((elements v)[i]?.toList : List (RJValue F))

def statsOf (vs : Multiset (RJValue F)) : Stats F := (vs.map statOf).fold Stats.merge .zero

mutual

/-- **The node of these values.** -/
def NodeHolds : Node F → Multiset (RJValue F) → Prop
  | .mk _ stats children arrMembers, vs =>
    stats = statsOf vs ∧ ChildrenHold children (fun name => vs.bind (membersOf name)) ∧
      ElementsHold arrMembers 0 (fun i => vs.bind (elementOf i))

def ChildrenHold : List (Node F) → (Str → Multiset (RJValue F)) → Prop
  | [], m => ∀ name, m name = 0
  | c :: cs, m => m c.name ≠ 0 ∧ NodeHolds c (m c.name) ∧
      ChildrenHold cs (Function.update m c.name 0)

def ElementsHold : List (Node F) → ℕ → (ℕ → Multiset (RJValue F)) → Prop
  | [], i, e => ∀ j, i ≤ j → e j = 0
  | c :: cs, i, e => c.name = indexName i ∧ e i ≠ 0 ∧ NodeHolds c (e i) ∧ ElementsHold cs (i + 1) e

end

theorem childrenHold_iff {cs : List (Node F)} : ∀ {m : Str → Multiset (RJValue F)},
    ChildrenHold cs m ↔ Tabled Node.name NodeHolds cs m := by
  induction cs with
  | nil => exact Iff.rfl
  | cons c cs ih =>
    intro m
    unfold ChildrenHold Tabled
    rw [ih]

/-- The nodes of the elements, one after the other. -/
theorem elementsHold_iff {cs : List (Node F)} : ∀ {i : ℕ} {e : ℕ → Multiset (RJValue F)},
    ElementsHold cs i e ↔ (∀ j c, cs[j]? = some c →
      c.name = indexName (i + j) ∧ e (i + j) ≠ 0 ∧ NodeHolds c (e (i + j))) ∧
        ∀ j, i + cs.length ≤ j → e j = 0 := by
  induction cs with
  | nil =>
    intro i e
    unfold ElementsHold
    simp
  | cons c cs ih =>
    intro i e
    unfold ElementsHold
    rw [ih, List.length_cons]
    constructor
    · rintro ⟨hname, hne, hc, hrest, hend⟩
      refine ⟨fun j c' hj => ?_, fun j hj => hend j (by omega)⟩
      cases j with
      | zero =>
        obtain rfl := Option.some.inj hj
        exact ⟨hname, hne, hc⟩
      | succ j =>
        have hshift : i + (j + 1) = i + 1 + j := by omega
        rw [hshift]
        exact hrest j c' hj
    · rintro ⟨hall, hend⟩
      obtain ⟨hname, hne, hc⟩ := hall 0 c rfl
      refine ⟨hname, hne, hc, fun j c' hj => ?_, fun j hj => hend j (by omega)⟩
      have hshift : i + 1 + j = i + (j + 1) := by omega
      rw [hshift]
      exact hall (j + 1) c' hj

theorem nodeHolds_empty (name : Str) : NodeHolds (.empty name : Node F) 0 := by
  unfold Node.empty NodeHolds ChildrenHold ElementsHold
  exact ⟨rfl, fun _ => Multiset.zero_bind _, fun _ _ => Multiset.zero_bind _⟩

theorem statsOf_add (vs ws : Multiset (RJValue F)) :
    statsOf (vs + ws) = (statsOf vs).merge (statsOf ws) := by
  unfold statsOf
  rw [Multiset.map_add]
  have hzero : (Stats.zero : Stats F) = Stats.zero.merge .zero := (Stats.merge_zero _).symm
  conv_lhs => rw [hzero]
  exact Multiset.fold_add _ _ _ _ _

theorem statsOf_singleton (v : RJValue F) : statsOf {v} = statOf v := by
  unfold statsOf
  rw [Multiset.map_singleton, Multiset.fold_singleton, Stats.merge_zero]

/-- An update of the node of an element, or a new one after the last. -/
theorem elementsHold_atElement {i : ℕ} {f : Node F → Node F} {d : Multiset (RJValue F)} (hd : d ≠ 0)
    (hf : ∀ c vs, NodeHolds c vs → (f c).name = c.name ∧ NodeHolds (f c) (vs + d))
    {cs : List (Node F)} (hi : i ≤ cs.length) {e : ℕ → Multiset (RJValue F)}
    (h : ElementsHold cs 0 e) : ElementsHold (atElement i f cs) 0 (Function.update e i (e i + d)) := by
  rw [elementsHold_iff] at h ⊢
  simp only [Nat.zero_add] at h ⊢
  obtain ⟨hall, hend⟩ := h
  have hne : e i + d ≠ 0 := fun h0 => hd (Multiset.le_zero.mp (h0 ▸ Multiset.le_add_left _ _))
  unfold atElement
  by_cases hlt : i < cs.length
  · rw [if_pos hlt]
    refine ⟨fun j c hj => ?_, fun j hj => ?_⟩
    · rw [List.getElem?_modify] at hj
      obtain ⟨c', hc', rfl⟩ := Option.map_eq_some_iff.mp hj
      by_cases hij : i = j
      · subst hij
        obtain ⟨hname, -, hc⟩ := hall i c' hc'
        rw [if_pos rfl, Function.update_self]
        exact ⟨(hf c' _ hc).1.trans hname, hne, (hf c' _ hc).2⟩
      · rw [if_neg hij, Function.update_of_ne (Ne.symm hij)]
        exact hall j c' hc'
    · rw [List.length_modify] at hj
      rw [Function.update_of_ne (by omega)]
      exact hend j hj
  · have hi' : i = cs.length := by omega
    subst hi'
    rw [if_neg (Nat.lt_irrefl _)]
    refine ⟨fun j c hj => ?_, fun j hj => ?_⟩
    · by_cases hj' : j < cs.length
      · rw [List.getElem?_append_left hj'] at hj
        rw [Function.update_of_ne (by omega)]
        exact hall j c hj
      · obtain ⟨hlen, -⟩ := List.getElem?_eq_some_iff.mp hj
        rw [List.length_append, List.length_singleton] at hlen
        obtain rfl : j = cs.length := by omega
        rw [List.getElem?_concat_length] at hj
        obtain rfl := Option.some.inj hj
        rw [Function.update_self, hend _ (le_refl _), zero_add] at *
        have hnew := hf (.empty (indexName cs.length)) 0 (nodeHolds_empty _)
        rw [zero_add] at hnew
        exact ⟨hnew.1, hd, hnew.2⟩
    · rw [List.length_append, List.length_singleton] at hj
      rw [Function.update_of_ne (by omega)]
      exact hend j (by omega)

/-- An update of the node of a member, or a new one. -/
theorem childrenHold_atChild {name : Str} {f : Node F → Node F} {d : Multiset (RJValue F)} (hd : d ≠ 0)
    (hf : ∀ c vs, NodeHolds c vs → (f c).name = c.name ∧ NodeHolds (f c) (vs + d))
    {cs : List (Node F)} {m : Str → Multiset (RJValue F)} (h : ChildrenHold cs m) :
    ChildrenHold (atChild name f cs) (Function.update m name (m name + d)) := by
  rw [childrenHold_iff] at h ⊢
  have hnew := hf (.empty name) 0 (nodeHolds_empty name)
  rw [zero_add] at hnew
  exact h.update hd hnew fun c vs hc hholds => ⟨(hf c vs hholds).1.trans hc, (hf c vs hholds).2⟩

omit [LinearOrder F] in
theorem membersOf_cons (name n : Str) (w : RJValue F) (ms : List (Str × RJValue F)) :
    membersOf name (.object ((n, w) :: ms)) =
      (if n = name then {w} else 0) + membersOf name (.object ms) := by
  unfold membersOf
  rw [members, List.filter_cons]
  by_cases hn : n = name
  · simp only [hn, decide_true, if_true]
    rfl
  · simp only [hn, decide_false, if_false, zero_add]
    rfl

/-- What is under an index when the elements from it on were added. -/
def elementsFrom (i : ℕ) (ws : List (RJValue F)) (j : ℕ) : Multiset (RJValue F) :=
  if i ≤ j then (ws[j - i]?.toList : List (RJValue F)) else 0

omit [LinearOrder F] in
theorem elementsFrom_cons (i : ℕ) (w : RJValue F) (ws : List (RJValue F)) (j : ℕ) :
    elementsFrom i (w :: ws) j = (if j = i then {w} else 0) + elementsFrom (i + 1) ws j := by
  unfold elementsFrom
  by_cases hj : j = i
  · subst hj
    rw [if_pos (le_refl _), if_pos rfl, if_neg (by omega), Nat.sub_self]
    rfl
  · rw [if_neg hj, zero_add]
    by_cases hij : i + 1 ≤ j
    · have hsub : j - i = j - (i + 1) + 1 := by omega
      rw [if_pos hij, if_pos (by omega), hsub, List.getElem?_cons_succ]
    · rw [if_neg hij, if_neg (by omega)]

theorem update_add {K A : Type*} [DecidableEq K] (m : K → Multiset A) (k : K) (d : Multiset A)
    (n : K → Multiset A) :
    (fun x => Function.update m k (m k + d) x + n x) =
      fun x => m x + ((if k = x then d else 0) + n x) := by
  funext x
  by_cases hx : k = x
  · subst hx
    rw [Function.update_self, if_pos rfl, add_assoc]
  · rw [Function.update_of_ne (Ne.symm hx), if_neg hx, zero_add]

theorem childrenHold_add {children : List (Node F)} {vs : Multiset (RJValue F)} {v : RJValue F}
    (h : ChildrenHold children fun name => vs.bind (membersOf name) + membersOf name v) :
    ChildrenHold children fun name => (vs + {v}).bind (membersOf name) := by
  simpa only [Multiset.add_bind, Multiset.singleton_bind] using h

theorem elementsHold_add {arrMembers : List (Node F)} {vs : Multiset (RJValue F)} {v : RJValue F}
    (h : ElementsHold arrMembers 0 fun i => vs.bind (elementOf i) + elementOf i v) :
    ElementsHold arrMembers 0 fun i => (vs + {v}).bind (elementOf i) := by
  simpa only [Multiset.add_bind, Multiset.singleton_bind] using h

omit [LinearOrder F] in
/-- A value without members. -/
theorem membersOf_eq_zero {v : RJValue F} (h : members v = []) (name : Str) : membersOf name v = 0 := by
  unfold membersOf
  rw [h]
  rfl

omit [LinearOrder F] in
theorem elementOf_eq_zero {v : RJValue F} (h : elements v = []) (i : ℕ) : elementOf i v = 0 := by
  unfold elementOf
  rw [h]
  rfl

theorem holds_scalar {v : RJValue F} (hm : members v = []) (he : elements v = []) {name : Str}
    {children arrMembers : List (Node F)} {stats : Stats F} {vs : Multiset (RJValue F)}
    (h : NodeHolds (.mk name stats children arrMembers) vs) :
    NodeHolds (.mk name (stats.merge (statOf v)) children arrMembers) (vs + {v}) := by
  unfold NodeHolds at h ⊢
  obtain ⟨hstats, hchildren, helements⟩ := h
  refine ⟨?_, childrenHold_add ?_, elementsHold_add ?_⟩
  · rw [statsOf_add, statsOf_singleton, hstats]
  · simpa only [membersOf_eq_zero hm, add_zero] using hchildren
  · simpa only [elementOf_eq_zero he, add_zero] using helements

mutual

/-- **A value that is added to a node.** -/
theorem addValue_holds : ∀ (v : RJValue F) (node : Node F) (vs : Multiset (RJValue F)),
    NodeHolds node vs →
      (addValue v node).name = node.name ∧ NodeHolds (addValue v node) (vs + {v})
  | .object ms, .mk name stats children arrMembers, vs, h => by
    unfold NodeHolds at h
    obtain ⟨hstats, hchildren, helements⟩ := h
    unfold addValue NodeHolds
    refine ⟨rfl, ?_, childrenHold_add ?_, elementsHold_add ?_⟩
    · rw [statsOf_add, statsOf_singleton, hstats]
    · exact addMembers_holds ms children _ hchildren
    · simpa only [elementOf_eq_zero (v := .object ms) rfl, add_zero] using helements
  | .array ws, .mk name stats children arrMembers, vs, h => by
    unfold NodeHolds at h
    obtain ⟨hstats, hchildren, helements⟩ := h
    unfold addValue NodeHolds
    refine ⟨rfl, ?_, childrenHold_add ?_, elementsHold_add ?_⟩
    · rw [statsOf_add, statsOf_singleton, hstats]
    · simpa only [membersOf_eq_zero (v := .array ws) rfl, add_zero] using hchildren
    · have hadd := addElements_holds ws 0 arrMembers _ (Nat.zero_le _) helements
      simp only [elementsFrom, Nat.zero_le, if_true, Nat.sub_zero] at hadd
      exact hadd
  | .null, .mk _ _ _ _, _, h => by
    unfold addValue
    exact ⟨rfl, holds_scalar rfl rfl h⟩
  | .bool _, .mk _ _ _ _, _, h => by
    unfold addValue
    exact ⟨rfl, holds_scalar rfl rfl h⟩
  | .number _, .mk _ _ _ _, _, h => by
    unfold addValue
    exact ⟨rfl, holds_scalar rfl rfl h⟩
  | .string _, .mk _ _ _ _, _, h => by
    unfold addValue
    exact ⟨rfl, holds_scalar rfl rfl h⟩

theorem addMembers_holds : ∀ (ms : List (Str × RJValue F)) (children : List (Node F))
    (m : Str → Multiset (RJValue F)), ChildrenHold children m →
      ChildrenHold (addMembers ms children) fun name => m name + membersOf name (.object ms)
  | [], children, m, h => by
    unfold addMembers
    simpa only [membersOf_eq_zero (v := RJValue.object []) rfl, add_zero] using h
  | (n, w) :: ms, children, m, h => by
    unfold addMembers
    have hchild : ChildrenHold (atChild n (addValue w) children) (Function.update m n (m n + {w})) :=
      childrenHold_atChild (Multiset.singleton_ne_zero w) (addValue_holds w) h
    have hrest := addMembers_holds ms _ _ hchild
    rw [update_add m n {w} fun name => membersOf name (.object ms)] at hrest
    simpa only [membersOf_cons] using hrest

theorem addElements_holds : ∀ (ws : List (RJValue F)) (i : ℕ) (arrMembers : List (Node F))
    (e : ℕ → Multiset (RJValue F)), i ≤ arrMembers.length → ElementsHold arrMembers 0 e →
      ElementsHold (addElements ws i arrMembers) 0 fun j => e j + elementsFrom i ws j
  | [], i, arrMembers, e, _, h => by
    unfold addElements
    simpa [elementsFrom] using h
  | w :: ws, i, arrMembers, e, hi, h => by
    unfold addElements
    have helement := elementsHold_atElement (Multiset.singleton_ne_zero w) (addValue_holds w) hi h
    have hlen : i + 1 ≤ (atElement i (addValue w) arrMembers).length := by
      unfold atElement
      split_ifs with hlt
      · rw [List.length_modify]
        omega
      · rw [List.length_append, List.length_singleton]
        omega
    have hrest := addElements_holds ws (i + 1) _ _ hlen helement
    rw [update_add e i {w} (elementsFrom (i + 1) ws)] at hrest
    simpa only [elementsFrom_cons, eq_comm] using hrest

end

/-! ### Merging -/

theorem mergeChildren_eq : ∀ cs children : List (Node F),
    mergeTable Node.name (fun c => merge c (.empty c.name)) (fun c v => some (merge c v)) cs children =
      some (mergeChildren cs children)
  | [], _ => rfl
  | c :: cs, children => by
    unfold mergeTable mergeChildren
    rw [atKeyM_some]
    exact mergeChildren_eq cs _

theorem mergeElements_holds {cs : List (Node F)} (hcs : ∀ c ∈ cs, ∀ ws, NodeHolds c ws →
    ∀ b vs, NodeHolds b vs → (merge c b).name = b.name ∧ NodeHolds (merge c b) (vs + ws)) :
    ∀ {i : ℕ} {arrMembers : List (Node F)} {e e' : ℕ → Multiset (RJValue F)}, i ≤ arrMembers.length →
      ElementsHold arrMembers 0 e → ElementsHold cs i e' →
        ElementsHold (mergeElements cs i arrMembers) 0 fun j => e j + if i ≤ j then e' j else 0 := by
  induction cs with
  | nil =>
    intro i arrMembers e e' _ h h'
    unfold mergeElements
    unfold ElementsHold at h'
    have hzero : ∀ j, (if i ≤ j then e' j else 0) = 0 := fun j => by
      split_ifs with hj
      · exact h' j hj
      · rfl
    simpa only [hzero, add_zero] using h
  | cons c cs ih =>
    intro i arrMembers e e' hi h h'
    unfold ElementsHold at h'
    obtain ⟨-, hne, hc, hrest'⟩ := h'
    have helement := elementsHold_atElement hne (hcs c List.mem_cons_self _ hc) hi h
    have hlen : i + 1 ≤ (atElement i (merge c) arrMembers).length := by
      unfold atElement
      split_ifs with hlt
      · rw [List.length_modify]
        omega
      · rw [List.length_append, List.length_singleton]
        omega
    have hrest := ih (fun c' hc' => hcs c' (List.mem_cons_of_mem _ hc')) hlen helement hrest'
    rw [update_add e i (e' i) fun j => if i + 1 ≤ j then e' j else 0] at hrest
    unfold mergeElements
    convert hrest using 3 with j
    by_cases hij : i = j
    · subst hij
      rw [if_pos (le_refl _), if_pos rfl, if_neg (by omega), add_zero]
    · rw [if_neg hij, zero_add]
      by_cases hle : i + 1 ≤ j
      · rw [if_pos hle, if_pos (by omega)]
      · rw [if_neg hle, if_neg (by omega)]

omit [LinearOrder F] in
/-- Induction over the nodes below a node. -/
theorem Node.below_induction {motive : Node F → Prop}
    (h : ∀ name stats children arrMembers, (∀ c ∈ children, motive c) →
      (∀ c ∈ arrMembers, motive c) → motive (.mk name stats children arrMembers)) :
    ∀ node, motive node
  | .mk name stats children arrMembers =>
    h name stats children arrMembers (fun c _ => Node.below_induction h c)
      (fun c _ => Node.below_induction h c)

/-- **A node that is merged into another adds what it holds.** -/
theorem merge_holds (a : Node F) : ∀ ws, NodeHolds a ws → ∀ b vs, NodeHolds b vs →
    (merge a b).name = b.name ∧ NodeHolds (merge a b) (vs + ws) := by
  induction a using Node.below_induction with
  | h name' stats' children' arrMembers' ihc ihe =>
    intro ws ha b vs hb
    obtain ⟨name, stats, children, arrMembers⟩ := b
    unfold NodeHolds at ha hb
    obtain ⟨hstats', hchildren', helements'⟩ := ha
    obtain ⟨hstats, hchildren, helements⟩ := hb
    unfold merge NodeHolds
    refine ⟨rfl, by rw [statsOf_add, hstats, hstats'], ?_, ?_⟩
    · have hspec : ∀ c ∈ children', ∀ u, NodeHolds c u →
          ((merge c (.empty c.name)).name = c.name ∧ NodeHolds (merge c (.empty c.name)) u) ∧
            ∀ v w, v.name = c.name → NodeHolds v w →
              ∃ r, some (merge c v) = some r ∧ r.name = c.name ∧ NodeHolds r (w + u) := by
        intro c hc u hu
        have hnew := ihc c hc u hu (.empty c.name) 0 (nodeHolds_empty _)
        rw [zero_add] at hnew
        exact ⟨hnew, fun v w hv hw =>
          ⟨merge c v, rfl, (ihc c hc u hu v w hw).1.trans hv, (ihc c hc u hu v w hw).2⟩⟩
      obtain ⟨r, hr, htab⟩ := Tabled.merged hspec (childrenHold_iff.mp hchildren)
        (childrenHold_iff.mp hchildren')
      rw [mergeChildren_eq] at hr
      obtain rfl := Option.some.inj hr
      simpa only [Multiset.add_bind] using childrenHold_iff.mpr htab
    · have hmerged := mergeElements_holds ihe (Nat.zero_le _) helements helements'
      simpa only [Nat.zero_le, if_true, Multiset.add_bind] using hmerged

/-! ### The result -/

/-- **The same value, up to the order of the elements of its arrays.** -/
inductive Reordered : RJValue F → RJValue F → Prop
  | refl (v : RJValue F) : Reordered v v
  | array {vs us ws : List (RJValue F)} : us.Perm ws → List.Forall₂ Reordered vs us →
      Reordered (.array vs) (.array ws)
  | object {ms ns : List (Str × RJValue F)} : ms.map Prod.fst = ns.map Prod.fst →
      List.Forall₂ Reordered (ms.map Prod.snd) (ns.map Prod.snd) → Reordered (.object ms) (.object ns)

omit [LinearOrder F] in
theorem toValues_eq (cs : List (Node F)) : toValues cs = cs.map toValue := by
  induction cs with
  | nil => rfl
  | cons c cs ih =>
    unfold toValues
    rw [ih]
    rfl

omit [LinearOrder F] in
/-- The member for the nodes of one kind, if there are some. -/
theorem reordered_entry (name : String) {cs us ds : List (Node F)} (hperm : us.Perm ds)
    (hall : List.Forall₂ (fun c u => Reordered (toValue c) (toValue u)) cs us) :
    List.Forall₂ (fun e e' : Entry F => e.1 = e'.1 ∧ Reordered e.2 e'.2)
      (match toValues cs with
        | [] => []
        | v :: vs => [(ascii name, .array (v :: vs))])
      (match toValues ds with
        | [] => []
        | v :: vs => [(ascii name, .array (v :: vs))]) := by
  have hlen : cs.length = ds.length := hall.length_eq.trans hperm.length_eq
  rw [toValues_eq, toValues_eq]
  rcases cs with _ | ⟨c, cs⟩
  · rw [List.eq_nil_of_length_eq_zero hlen.symm]
    exact .nil
  · rcases ds with _ | ⟨d, ds⟩
    · cases hlen
    · refine .cons ⟨rfl, ?_⟩ .nil
      have harray : List.Forall₂ Reordered ((c :: cs).map toValue) (us.map toValue) := by
        rw [List.forall₂_map_left_iff, List.forall₂_map_right_iff]
        exact hall
      exact .array (hperm.map toValue) harray

omit [LinearOrder F] in
theorem forall₂_entry_refl (es : List (Entry F)) :
    List.Forall₂ (fun e e' : Entry F => e.1 = e'.1 ∧ Reordered e.2 e'.2) es es := by
  induction es with
  | nil => exact .nil
  | cons e es ih => exact .cons ⟨rfl, .refl _⟩ ih

omit [LinearOrder F] in
theorem reordered_ofEntries {es es' : List (Entry F)}
    (h : List.Forall₂ (fun e e' : Entry F => e.1 = e'.1 ∧ Reordered e.2 e'.2) es es') :
    Reordered (ofEntries es) (ofEntries es') := by
  have hnames : es.map Prod.fst = es'.map Prod.fst := by
    induction h with
    | nil => rfl
    | cons he _ ih => rw [List.map_cons, List.map_cons, he.1, ih]
  refine .object hnames ?_
  rw [List.forall₂_map_left_iff, List.forall₂_map_right_iff]
  exact h.imp fun _ _ he => he.2

/-- **The statistics depend on the values only**, up to the order of the nodes. -/
theorem toValue_unique (a : Node F) : ∀ b vs, a.name = b.name → NodeHolds a vs → NodeHolds b vs →
    Reordered (toValue a) (toValue b) := by
  induction a using Node.below_induction with
  | h name stats children arrMembers ihc ihe =>
    intro b vs hname ha hb
    obtain ⟨name', stats', children', arrMembers'⟩ := b
    obtain rfl : name = name' := hname
    unfold NodeHolds at ha hb
    obtain ⟨hstats, hchildren, helements⟩ := ha
    obtain ⟨hstats', hchildren', helements'⟩ := hb
    unfold toValue
    rw [hstats, hstats']
    have hch : ∃ us : List (Node F), us.Perm children' ∧
        List.Forall₂ (fun c u => Reordered (toValue c) (toValue u)) children us :=
      Tabled.unique (fun c hc w u hk hcu hwu => ihc c hc w u hk hcu hwu)
        (childrenHold_iff.mp hchildren) (childrenHold_iff.mp hchildren')
    obtain ⟨us, hperm, hall⟩ := hch
    have helt : List.Forall₂ (fun c u => Reordered (toValue c) (toValue u)) arrMembers arrMembers' := by
      rw [elementsHold_iff] at helements helements'
      simp only [Nat.zero_add] at helements helements'
      obtain ⟨hmem, hend⟩ := helements
      obtain ⟨hmem', hend'⟩ := helements'
      have hlen : arrMembers.length = arrMembers'.length := by
        by_contra hne
        rcases Nat.lt_or_gt_of_ne hne with hlt | hlt
        · exact (hmem' _ _ (List.getElem?_eq_getElem hlt)).2.1 (hend _ (le_refl _))
        · exact (hmem _ _ (List.getElem?_eq_getElem hlt)).2.1 (hend' _ (le_refl _))
      refine List.forall₂_iff_get.mpr ⟨hlen, fun i hi hi' => ?_⟩
      obtain ⟨hn, -, hc⟩ := hmem i _ (List.getElem?_eq_getElem hi)
      obtain ⟨hn', -, hc'⟩ := hmem' i _ (List.getElem?_eq_getElem hi')
      exact ihe _ (List.getElem_mem hi) _ _ (hn.trans hn'.symm) hc hc'
    refine reordered_ofEntries (List.rel_append (List.rel_append (forall₂_entry_refl _) ?_) ?_)
    · exact reordered_entry "Children" hperm hall
    · exact reordered_entry "Array_Items" (.refl _) helt

end Joda.Aggregation.AttributeStat
