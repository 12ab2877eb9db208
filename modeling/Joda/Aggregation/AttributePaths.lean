import Joda.Aggregation.Accumulation
import Joda.Similarity.Paths
import Mathlib.Data.Multiset.Filter

/-! # Attribute statistics by paths

The result of `ATTSTAT` has a node for each path of the documents, below `Children` by its `Key` and
below `Array_Items` by its place. A node is exact (`ExactStats`) but for the integers from `2 ^ 63` on,
which are cast to `int64_t`: so the statistics of a set of documents are exact exactly if it has none,
however the documents were split and the parts merged (`statsRight_iff`). -/

namespace Joda.Aggregation.AttributePaths

open Joda.Lib.Table Joda.Values.Value Joda.Values.Provider Joda.Values.Pointer
open Joda.Similarity.Paths (Step)
open Joda.Aggregation.AttributeStat hiding merge
open Joda.Aggregation.Aggregator Joda.Aggregation.Accumulation

variable {F : Type}

/-! ### What a node is to say -/

/-- A counter of the result and the values it counts. -/
structure Counter (F : Type) where
  name : String
  counted : RJValue F → Bool

def Counter.all : List (Counter F) :=
  [⟨"Count_Total", fun _ => true⟩,
    ⟨"Count_Object", fun | .object .. => true | _ => false⟩,
    ⟨"Count_Array", fun | .array _ => true | _ => false⟩,
    ⟨"Count_Null", fun | .null => true | _ => false⟩,
    ⟨"Count_Boolean", fun | .bool _ => true | _ => false⟩,
    ⟨"Count_True", fun | .bool b => b | _ => false⟩,
    ⟨"Count_False", fun | .bool b => !b | _ => false⟩,
    ⟨"Count_String", fun | .string _ => true | _ => false⟩,
    ⟨"Count_Int", fun | .number (.int _) => true | _ => false⟩,
    ⟨"Count_Float", fun | .number (.double _) => true | _ => false⟩,
    ⟨"Count_Number", fun | .number _ => true | _ => false⟩]

/-- Two members of the result for the least and the greatest measure of the values that have one. -/
structure Bounds (F α : Type) where
  min : String
  max : String
  measure : RJValue F → Option α

def memberBounds : Bounds F ℕ := ⟨"Min_Member", "Max_Member", fun
  | .object ms => some ms.length
  | _ => none⟩

def sizeBounds : Bounds F ℕ := ⟨"Min_Size", "Max_Size", fun
  | .array vs => some vs.length
  | _ => none⟩

def strsizeBounds : Bounds F ℕ := ⟨"Min_StrSize", "Max_StrSize", fun
  | .string s => some s.length
  | _ => none⟩

def intBounds : Bounds F ℤ := ⟨"Min_Int", "Max_Int", fun
  | .number (.int z) => some z
  | _ => none⟩

/-- The integers as `int64_t`. -/
def castBounds : Bounds F ℤ := ⟨"Min_Int", "Max_Int", fun
  | .number (.int z) => some (z.bmod (2 ^ 64))
  | _ => none⟩

def doubleBounds : Bounds F F := ⟨"Min_Float", "Max_Float", fun
  | .number (.double x) => some x
  | _ => none⟩

/-- **The bounds are exact**: both are missing if nothing is measured. -/
def Bounds.Exact {α : Type} [LE α] (b : Bounds F α) (toValue : α → RJValue F)
    (vs : Multiset (RJValue F)) (r : RJValue F) : Prop :=
  vs.filterMap b.measure = 0 ∧ child r (ascii b.min) = none ∧ child r (ascii b.max) = none ∨
    ∃ l ∈ vs.filterMap b.measure, ∃ u ∈ vs.filterMap b.measure,
      (∀ x ∈ vs.filterMap b.measure, l ≤ x ∧ x ≤ u) ∧
        child r (ascii b.min) = some (toValue l) ∧ child r (ascii b.max) = some (toValue u)

def ofInt (z : ℤ) : RJValue F := .number (.int z)

def ofNat (n : ℕ) : RJValue F := ofInt n

def ofDouble (x : F) : RJValue F := .number (.double x)

/-- The bounds and counters that no cast is in. -/
structure UncastStats [LE F] (vs : Multiset (RJValue F)) (r : RJValue F) : Prop where
  counts : ∀ c ∈ Counter.all,
    child r (ascii c.name) = some (ofNat (vs.countP fun v => c.counted v = true))
  member : memberBounds.Exact ofNat vs r
  size : sizeBounds.Exact ofNat vs r
  strsize : strsizeBounds.Exact ofNat vs r
  double : doubleBounds.Exact ofDouble vs r

/-- **A node of the result is exact** for these values. -/
structure ExactStats [LE F] (vs : Multiset (RJValue F)) (r : RJValue F) : Prop extends
    UncastStats vs r where
  int : intBounds.Exact ofInt vs r

/-! ### Paths -/

/-- The values one step below these. -/
def below : Step → Multiset (RJValue F) → Multiset (RJValue F)
  | .member name, vs => vs.bind (membersOf name)
  | .element i, vs => vs.bind (elementOf i)

/-- **The values at a path** below these. -/
def valuesAt : List Step → Multiset (RJValue F) → Multiset (RJValue F)
  | [], vs => vs
  | step :: p, vs => valuesAt p (below step vs)

/-- The name of a node of the result. -/
def keyOf (r : RJValue F) : Str :=
  match child r (ascii "Key") with
  | some (.string s) => s
  | _ => []

def nodesOf (kind : String) (r : RJValue F) : List (RJValue F) :=
  (child r (ascii kind)).elim [] elements

/-- One step down in the result. -/
def stepDown : Step → RJValue F → Option (RJValue F)
  | .member name, r => (nodesOf "Children" r).find? (keyOf · = name)
  | .element i, r => (nodesOf "Array_Items" r)[i]?

/-- **The node of a path** in the result. -/
def nodeAt : List Step → RJValue F → Option (RJValue F)
  | [], r => some r
  | step :: p, r => (stepDown step r).bind (nodeAt p)

theorem valuesAt_zero (p : List Step) : valuesAt p (0 : Multiset (RJValue F)) = 0 := by
  induction p with
  | nil => rfl
  | cons step p ih =>
    have hbelow : below step (0 : Multiset (RJValue F)) = 0 := by
      cases step <;> exact Multiset.zero_bind _
    rw [valuesAt, hbelow, ih]

/-! ### The members of a node -/

/-- The members that a node of the result may have, each with its value if it has one. -/
def fields : Node F → List (Str × Option (RJValue F))
  | .mk name s children arrMembers =>
    [(ascii "Key", if name = [] then none else some (.string name)),
      (ascii "Count_Total", some (ofNat s.getCount)), (ascii "Count_Object", some (ofNat s.count_obj)),
      (ascii "Min_Member", s.member.map fun b => ofNat b.1),
      (ascii "Max_Member", s.member.map fun b => ofNat b.2),
      (ascii "Count_Array", some (ofNat s.count_arr)),
      (ascii "Min_Size", s.size.map fun b => ofNat b.1),
      (ascii "Max_Size", s.size.map fun b => ofNat b.2),
      (ascii "Count_Null", some (ofNat s.count_null)), (ascii "Count_Boolean", some (ofNat s.count_bool)),
      (ascii "Count_True", some (ofNat s.count_true)), (ascii "Count_False", some (ofNat s.count_false)),
      (ascii "Count_String", some (ofNat s.count_str)),
      (ascii "Min_StrSize", s.strsize.map fun b => ofNat b.1),
      (ascii "Max_StrSize", s.strsize.map fun b => ofNat b.2),
      (ascii "Count_Int", some (ofNat s.count_int)),
      (ascii "Min_Int", s.int.map fun b => ofInt b.1), (ascii "Max_Int", s.int.map fun b => ofInt b.2),
      (ascii "Count_Float", some (ofNat s.count_double)),
      (ascii "Min_Float", s.double.map fun b => ofDouble b.1),
      (ascii "Max_Float", s.double.map fun b => ofDouble b.2),
      (ascii "Count_Number", some (ofNat (s.count_int + s.count_double))),
      (ascii "Children", if children = [] then none else some (.array (children.map toValue))),
      (ascii "Array_Items", if arrMembers = [] then none else some (.array (arrMembers.map toValue)))]

theorem nodup_fields (node : Node F) : ((fields node).map Prod.fst).Nodup := by
  obtain ⟨name, s, children, arrMembers⟩ := node
  show (["Key", "Count_Total", "Count_Object", "Min_Member", "Max_Member", "Count_Array", "Min_Size",
    "Max_Size", "Count_Null", "Count_Boolean", "Count_True", "Count_False", "Count_String",
    "Min_StrSize", "Max_StrSize", "Count_Int", "Min_Int", "Max_Int", "Count_Float", "Min_Float",
    "Max_Float", "Count_Number", "Children", "Array_Items"].map ascii).Nodup
  decide +kernel

/-- The members that have a value. -/
def present (fs : List (Str × Option (RJValue F))) : List (Entry F) :=
  fs.filterMap fun f => f.2.map fun v => (f.1, v)

theorem present_append (fs gs : List (Str × Option (RJValue F))) :
    present fs ++ present gs = present (fs ++ gs) := List.filterMap_append.symm

theorem toValue_eq (node : Node F) : toValue node = ofEntries (present (fields node)) := by
  obtain ⟨name, s, children, arrMembers⟩ := node
  have hextremes : ∀ (min max : String) (b : Option (ℕ × ℕ)), extremes (F := F) min max (lengths b) =
      present [(ascii min, b.map fun b => ofNat b.1), (ascii max, b.map fun b => ofNat b.2)] := by
    intro min max b
    cases b <;> rfl
  have hint : extremes (F := F) "Min_Int" "Max_Int" s.int = present
      [(ascii "Min_Int", s.int.map fun b => ofInt b.1), (ascii "Max_Int", s.int.map fun b => ofInt b.2)] := by
    cases s.int <;> rfl
  have hdouble : s.double.elim [] (fun b =>
      [(ascii "Min_Float", .number (.double b.1)), (ascii "Max_Float", .number (.double b.2))]) =
      present [(ascii "Min_Float", s.double.map fun b => ofDouble b.1),
        (ascii "Max_Float", s.double.map fun b => ofDouble b.2)] := by
    cases s.double <;> rfl
  have hname : (if name = [] then [] else [(ascii "Key", .string name)]) =
      present [(ascii "Key", if name = [] then none else some (RJValue.string (F := F) name))] := by
    split_ifs <;> rfl
  have hsplit : ∀ {es es' cs cs' as as' : List (Entry F)}, es = es' → cs = cs' → as = as' →
      ofEntries (es ++ cs ++ as) = ofEntries (es' ++ cs' ++ as') := by
    rintro _ _ _ _ _ _ rfl rfl rfl
    rfl
  unfold toValue statEntries
  rw [hextremes, hextremes, hextremes, hint, hdouble, hname]
  rw [toValues_eq, toValues_eq]
  refine (@hsplit _ _ _
    (present [(ascii "Children", if children = [] then none else some (.array (children.map toValue)))]) _
    (present [(ascii "Array_Items",
      if arrMembers = [] then none else some (.array (arrMembers.map toValue)))]) rfl ?_ ?_).trans ?_
  · cases children <;> rfl
  · cases arrMembers <;> rfl
  have hcount : ∀ (name : String) (n : ℕ) (fs : List (Str × Option (RJValue F))),
      countEntry name n :: present fs = present ((ascii name, some (ofNat n)) :: fs) := fun _ _ _ => rfl
  simp only [List.append_assoc, List.cons_append, List.nil_append, present_append, hcount, fields]

theorem lookup_present {fs : List (Str × Option (RJValue F))} (hnodup : (fs.map Prod.fst).Nodup)
    {k : Str} {o : Option (RJValue F)} (h : (k, o) ∈ fs) : (present fs).lookup k = o := by
  induction fs with
  | nil => cases h
  | cons f fs ih =>
    obtain ⟨k', o'⟩ := f
    obtain ⟨hf, hrest⟩ := List.nodup_cons.mp hnodup
    rcases List.mem_cons.mp h with heq | hmem
    · obtain ⟨rfl, rfl⟩ := Prod.mk.inj heq
      have hnone : (present fs).lookup k = none := by
        rw [List.lookup_eq_none_iff]
        intro e he
        obtain ⟨f, hfmem, hv⟩ := List.mem_filterMap.mp he
        obtain ⟨v, -, rfl⟩ := Option.map_eq_some_iff.mp hv
        refine bne_iff_ne.mpr fun hk : k = f.1 => hf ?_
        rw [hk]
        exact List.mem_map.mpr ⟨_, hfmem, rfl⟩
      cases o with
      | none => exact hnone
      | some v => exact List.lookup_cons_self
    · have hne : k ≠ k' := fun hk => hf (List.mem_map.mpr ⟨_, hmem, hk⟩)
      cases o' with
      | none => exact ih hrest hmem
      | some v =>
        show List.lookup k ((k', v) :: present fs) = o
        rw [List.lookup_cons, beq_false_of_ne hne]
        exact ih hrest hmem

/-- **A member of a node of the result.** -/
theorem child_toValue {node : Node F} {k : Str} {o : Option (RJValue F)} (h : (k, o) ∈ fields node) :
    child (toValue node) k = o := by
  rw [toValue_eq]
  show (present (fields node)).lookup k = o
  exact lookup_present (nodup_fields node) h

/-! ### A node that holds values -/

section Holds

variable [LinearOrder F]

/-- A counter adds up. -/
theorem count_statsOf {f : Stats F → ℕ} (hzero : f .zero = 0)
    (hmerge : ∀ s t : Stats F, f (s.merge t) = f s + f t) {counted : RJValue F → Bool}
    (h : ∀ v, f (statOf v) = if counted v = true then 1 else 0) (vs : Multiset (RJValue F)) :
    f (statsOf vs) = vs.countP fun v => counted v = true := by
  induction vs using Multiset.induction_on with
  | empty => exact hzero
  | cons v vs ih =>
    rw [Multiset.countP_cons, ← Multiset.singleton_add, statsOf_add, statsOf_singleton, hmerge, h, ih,
      Nat.add_comm]

/-- The least and the greatest of these. -/
def Covers {α : Type} [LE α] : Option (α × α) → Multiset α → Prop
  | none, xs => xs = 0
  | some b, xs => b.1 ∈ xs ∧ b.2 ∈ xs ∧ ∀ x ∈ xs, b.1 ≤ x ∧ x ≤ b.2

theorem covers_widen {α : Type} [LinearOrder α] {a b : Option (α × α)} {xs ys : Multiset α}
    (ha : Covers a xs) (hb : Covers b ys) : Covers (widen a b) (xs + ys) := by
  rcases a with _ | ⟨l, u⟩
  · obtain rfl : xs = 0 := ha
    rw [zero_add]
    cases b <;> exact hb
  rcases b with _ | ⟨l', u'⟩
  · obtain rfl : ys = 0 := hb
    rw [add_zero]
    exact ha
  obtain ⟨hl, hu, hall⟩ := ha
  obtain ⟨hl', hu', hall'⟩ := hb
  refine ⟨?_, ?_, fun x hx => ?_⟩
  · rcases min_choice l l' with h | h
    · exact Multiset.mem_add.mpr (Or.inl (by rw [h]; exact hl))
    · exact Multiset.mem_add.mpr (Or.inr (by rw [h]; exact hl'))
  · rcases max_choice u u' with h | h
    · exact Multiset.mem_add.mpr (Or.inl (by rw [h]; exact hu))
    · exact Multiset.mem_add.mpr (Or.inr (by rw [h]; exact hu'))
  · rcases Multiset.mem_add.mp hx with hx | hx
    · exact ⟨le_trans (min_le_left _ _) (hall x hx).1, le_trans (hall x hx).2 (le_max_left _ _)⟩
    · exact ⟨le_trans (min_le_right _ _) (hall' x hx).1, le_trans (hall' x hx).2 (le_max_right _ _)⟩

theorem covers_statsOf {α : Type} [LinearOrder α] {f : Stats F → Option (α × α)}
    (hzero : f .zero = none) (hmerge : ∀ s t : Stats F, f (s.merge t) = widen (f s) (f t))
    {measure : RJValue F → Option α} (h : ∀ v, f (statOf v) = (measure v).map fun x => (x, x))
    (vs : Multiset (RJValue F)) : Covers (f (statsOf vs)) (vs.filterMap measure) := by
  induction vs using Multiset.induction_on with
  | empty =>
    show Covers (f .zero) 0
    rw [hzero]
    rfl
  | cons v vs ih =>
    have hsingle : Covers (f (statOf v)) (Multiset.filterMap measure {v}) := by
      rw [h, ← Multiset.cons_zero]
      cases hv : measure v with
      | none =>
        rw [Multiset.filterMap_cons_none v 0 hv]
        rfl
      | some x =>
        rw [Multiset.filterMap_cons_some measure v 0 hv]
        simp [Covers]
    rw [← Multiset.singleton_add, statsOf_add, statsOf_singleton, hmerge, Multiset.filterMap_add]
    exact covers_widen hsingle ih

omit [LinearOrder F] in
theorem exact_of_covers {α : Type} [LE α] {b : Bounds F α} {toValue : α → RJValue F}
    {vs : Multiset (RJValue F)} {r : RJValue F} {o : Option (α × α)}
    (h : Covers o (vs.filterMap b.measure))
    (hmin : child r (ascii b.min) = o.map fun b => toValue b.1)
    (hmax : child r (ascii b.max) = o.map fun b => toValue b.2) : b.Exact toValue vs r := by
  cases o with
  | none => exact Or.inl ⟨h, hmin, hmax⟩
  | some o => exact Or.inr ⟨o.1, h.1, o.2, h.2.1, h.2.2, hmin, hmax⟩

variable {node : Node F} {vs : Multiset (RJValue F)}

/-- A counter of the result, the member at `i`. -/
theorem counter_toValue (c : Counter F) (f : Stats F → ℕ) (i : ℕ)
    (hi : ∀ name s children arrMembers,
      (fields (.mk name s children arrMembers))[i]? = some (ascii c.name, some (ofNat (f s))))
    (hzero : f .zero = 0) (hmerge : ∀ s t : Stats F, f (s.merge t) = f s + f t)
    (h : ∀ v, f (statOf v) = if c.counted v = true then 1 else 0) (hnode : NodeHolds node vs) :
    child (toValue node) (ascii c.name) = some (ofNat (vs.countP fun v => c.counted v = true)) := by
  obtain ⟨name, s, children, arrMembers⟩ := node
  unfold NodeHolds at hnode
  obtain ⟨rfl, -, -⟩ := hnode
  rw [child_toValue (List.mem_of_getElem? (hi name (statsOf vs) children arrMembers)),
    count_statsOf hzero hmerge h]

/-- Bounds of the result, the members at `i` and `i + 1`. -/
theorem bounds_toValue {α : Type} [LinearOrder α] (b : Bounds F α) (f : Stats F → Option (α × α))
    (ofα : α → RJValue F) (i : ℕ)
    (hmin : ∀ name s children arrMembers, (fields (.mk name s children arrMembers))[i]? =
      some (ascii b.min, (f s).map fun b => ofα b.1))
    (hmax : ∀ name s children arrMembers, (fields (.mk name s children arrMembers))[i + 1]? =
      some (ascii b.max, (f s).map fun b => ofα b.2))
    (hzero : f .zero = none) (hmerge : ∀ s t : Stats F, f (s.merge t) = widen (f s) (f t))
    (h : ∀ v, f (statOf v) = (b.measure v).map fun x => (x, x)) (hnode : NodeHolds node vs) :
    b.Exact ofα vs (toValue node) := by
  obtain ⟨name, s, children, arrMembers⟩ := node
  unfold NodeHolds at hnode
  obtain ⟨rfl, -, -⟩ := hnode
  exact exact_of_covers (covers_statsOf hzero hmerge h vs)
    (child_toValue (List.mem_of_getElem? (hmin name (statsOf vs) children arrMembers)))
    (child_toValue (List.mem_of_getElem? (hmax name (statsOf vs) children arrMembers)))

/-- **A node of the result is exact but for the cast.** -/
theorem uncastStats (h : NodeHolds node vs) :
    UncastStats vs (toValue node) ∧ castBounds.Exact ofInt vs (toValue node) := by
  have hcount : ∀ (c : Counter F) (f : Stats F → ℕ) (i : ℕ), (∀ name s children arrMembers,
      (fields (.mk name s children arrMembers))[i]? = some (ascii c.name, some (ofNat (f s)))) →
      f .zero = 0 → (∀ s t : Stats F, f (s.merge t) = f s + f t) →
      (∀ v, f (statOf v) = if c.counted v = true then 1 else 0) →
      child (toValue node) (ascii c.name) = some (ofNat (vs.countP fun v => c.counted v = true)) :=
    fun c f i hi hzero hmerge hstat => counter_toValue c f i hi hzero hmerge hstat h
  have hgetCount : ∀ s t : Stats F, (s.merge t).getCount = s.getCount + t.getCount := fun s t => by
    simp only [Stats.getCount, Stats.merge]
    omega
  have hcountNumber : ∀ s t : Stats F, (s.merge t).count_int + (s.merge t).count_double =
      s.count_int + s.count_double + (t.count_int + t.count_double) := fun s t => by
    simp only [Stats.merge]
    omega
  refine ⟨⟨fun c hc => ?_, ?_, ?_, ?_, ?_⟩, ?_⟩
  · simp only [Counter.all, List.mem_cons, List.not_mem_nil, or_false] at hc
    rcases hc with rfl | rfl | rfl | rfl | rfl | rfl | rfl | rfl | rfl | rfl | rfl
    · exact hcount _ Stats.getCount 1 (fun _ _ _ _ => rfl) rfl hgetCount
        (by rintro (_ | (_ | _) | (_ | _) | _ | _ | _) <;> rfl)
    · exact hcount _ Stats.count_obj 2 (fun _ _ _ _ => rfl) rfl (fun _ _ => rfl)
        (by rintro (_ | (_ | _) | (_ | _) | _ | _ | _) <;> rfl)
    · exact hcount _ Stats.count_arr 5 (fun _ _ _ _ => rfl) rfl (fun _ _ => rfl)
        (by rintro (_ | (_ | _) | (_ | _) | _ | _ | _) <;> rfl)
    · exact hcount _ Stats.count_null 8 (fun _ _ _ _ => rfl) rfl (fun _ _ => rfl)
        (by rintro (_ | (_ | _) | (_ | _) | _ | _ | _) <;> rfl)
    · exact hcount _ Stats.count_bool 9 (fun _ _ _ _ => rfl) rfl (fun _ _ => rfl)
        (by rintro (_ | (_ | _) | (_ | _) | _ | _ | _) <;> rfl)
    · exact hcount _ Stats.count_true 10 (fun _ _ _ _ => rfl) rfl (fun _ _ => rfl)
        (by rintro (_ | (_ | _) | (_ | _) | _ | _ | _) <;> rfl)
    · exact hcount _ Stats.count_false 11 (fun _ _ _ _ => rfl) rfl (fun _ _ => rfl)
        (by rintro (_ | (_ | _) | (_ | _) | _ | _ | _) <;> rfl)
    · exact hcount _ Stats.count_str 12 (fun _ _ _ _ => rfl) rfl (fun _ _ => rfl)
        (by rintro (_ | (_ | _) | (_ | _) | _ | _ | _) <;> rfl)
    · exact hcount _ Stats.count_int 15 (fun _ _ _ _ => rfl) rfl (fun _ _ => rfl)
        (by rintro (_ | (_ | _) | (_ | _) | _ | _ | _) <;> rfl)
    · exact hcount _ Stats.count_double 18 (fun _ _ _ _ => rfl) rfl (fun _ _ => rfl)
        (by rintro (_ | (_ | _) | (_ | _) | _ | _ | _) <;> rfl)
    · exact hcount _ (fun s => s.count_int + s.count_double) 21 (fun _ _ _ _ => rfl) rfl hcountNumber
        (by rintro (_ | (_ | _) | (_ | _) | _ | _ | _) <;> rfl)
  · exact bounds_toValue memberBounds Stats.member ofNat 3 (fun _ _ _ _ => rfl) (fun _ _ _ _ => rfl)
      rfl (fun _ _ => rfl) (by rintro (_ | _ | (_ | _) | _ | _ | _) <;> rfl) h
  · exact bounds_toValue sizeBounds Stats.size ofNat 6 (fun _ _ _ _ => rfl) (fun _ _ _ _ => rfl)
      rfl (fun _ _ => rfl) (by rintro (_ | _ | (_ | _) | _ | _ | _) <;> rfl) h
  · exact bounds_toValue strsizeBounds Stats.strsize ofNat 13 (fun _ _ _ _ => rfl) (fun _ _ _ _ => rfl)
      rfl (fun _ _ => rfl) (by rintro (_ | _ | (_ | _) | _ | _ | _) <;> rfl) h
  · exact bounds_toValue doubleBounds Stats.double ofDouble 19 (fun _ _ _ _ => rfl) (fun _ _ _ _ => rfl)
      rfl (fun _ _ => rfl) (by rintro (_ | _ | (_ | _) | _ | _ | _) <;> rfl) h
  · exact bounds_toValue castBounds Stats.int ofInt 16 (fun _ _ _ _ => rfl) (fun _ _ _ _ => rfl)
      rfl (fun _ _ => rfl) (by rintro (_ | _ | (_ | _) | _ | _ | _) <;> rfl) h

/-! ### The node of a path -/

omit [LinearOrder F] in
theorem keyOf_toValue (node : Node F) : keyOf (toValue node) = node.name := by
  obtain ⟨name, s, children, arrMembers⟩ := node
  unfold keyOf
  have hkey : (ascii "Key", if name = [] then none else some (.string name)) ∈
      fields (.mk name s children arrMembers) := List.mem_cons_self
  rw [child_toValue hkey]
  by_cases hname : name = []
  · rw [if_pos hname, hname]
    rfl
  · rw [if_neg hname]
    rfl

omit [LinearOrder F] in
theorem nodesOf_toValue (name : Str) (s : Stats F) (children arrMembers : List (Node F)) :
    nodesOf "Children" (toValue (.mk name s children arrMembers)) = children.map toValue ∧
      nodesOf "Array_Items" (toValue (.mk name s children arrMembers)) = arrMembers.map toValue := by
  have hnodes : ∀ {kind : String} {cs : List (Node F)},
      (ascii kind, if cs = [] then none else some (.array (cs.map toValue))) ∈
        fields (.mk name s children arrMembers) →
      nodesOf kind (toValue (.mk name s children arrMembers)) = cs.map toValue := by
    intro kind cs hmem
    unfold nodesOf
    rw [child_toValue hmem]
    cases cs <;> rfl
  exact ⟨hnodes (List.mem_of_getElem? (i := 22) rfl), hnodes (List.mem_of_getElem? (i := 23) rfl)⟩

/-- **Step**: the node below is the one of the values below, if there are some. -/
theorem stepDown_toValue (h : NodeHolds node vs) (step : Step) :
    (below step vs = 0 → stepDown step (toValue node) = none) ∧
      (below step vs ≠ 0 →
        ∃ c, stepDown step (toValue node) = some (toValue c) ∧ NodeHolds c (below step vs)) := by
  obtain ⟨name, s, children, arrMembers⟩ := node
  unfold NodeHolds at h
  obtain ⟨-, hchildren, helements⟩ := h
  obtain ⟨hnodes, hitems⟩ := nodesOf_toValue name s children arrMembers
  cases step with
  | member n =>
    have hkey : (fun r => decide (keyOf r = n)) ∘ toValue = fun c : Node F => decide (c.name = n) := by
      funext c
      simp only [Function.comp_apply, keyOf_toValue]
    obtain ⟨hnone, hsome⟩ := (childrenHold_iff.mp hchildren).find?_eq (k := n)
    simp only [stepDown]
    rw [hnodes, List.find?_map, hkey]
    refine ⟨fun hzero => by rw [hnone hzero]; rfl, fun hne => ?_⟩
    obtain ⟨c, hc, hholds⟩ := hsome hne
    exact ⟨c, by rw [hc]; rfl, hholds⟩
  | element i =>
    rw [elementsHold_iff] at helements
    simp only [Nat.zero_add] at helements
    obtain ⟨hall, hend⟩ := helements
    simp only [stepDown]
    rw [hitems, List.getElem?_map]
    cases hi : arrMembers[i]? with
    | none =>
      have hzero := hend i (List.getElem?_eq_none_iff.mp hi)
      exact ⟨fun _ => rfl, fun hne => absurd hzero hne⟩
    | some c =>
      obtain ⟨-, hne, hholds⟩ := hall i c hi
      exact ⟨fun hzero => absurd hzero hne, fun _ => ⟨c, rfl, hholds⟩⟩

/-- **Run**: the node of a path is the one of the values at it, and there is none for the paths that do
not occur. -/
theorem nodeAt_toValue (p : List Step) : ∀ {node : Node F} {vs : Multiset (RJValue F)},
    NodeHolds node vs →
      (p ≠ [] → valuesAt p vs = 0 → nodeAt p (toValue node) = none) ∧
        (p = [] ∨ valuesAt p vs ≠ 0 →
          ∃ c, nodeAt p (toValue node) = some (toValue c) ∧ NodeHolds c (valuesAt p vs)) := by
  induction p with
  | nil => exact fun {node} {vs} h => ⟨fun hp => absurd rfl hp, fun _ => ⟨node, rfl, h⟩⟩
  | cons step p ih =>
    intro node vs h
    obtain ⟨hnone, hsome⟩ := stepDown_toValue h step
    unfold nodeAt valuesAt
    by_cases hbelow : below step vs = 0
    · rw [hnone hbelow, hbelow, valuesAt_zero]
      exact ⟨fun _ _ => rfl, fun hp => absurd rfl (hp.resolve_left (List.cons_ne_nil _ _))⟩
    · obtain ⟨c, hc, hholds⟩ := hsome hbelow
      obtain ⟨hrest, hfound⟩ := ih hholds
      rw [hc]
      refine ⟨fun _ hzero => hrest (fun hp => hbelow ?_) hzero, fun hp => hfound ?_⟩
      · rwa [hp] at hzero
      · exact Or.inr (hp.resolve_left (List.cons_ne_nil _ _))

/-! ### The result -/

/-- **The result is right** for these values: it has an exact node for each path that occurs, and for
the root, and no node for any other path. -/
def ResultRight (vs : Multiset (RJValue F)) (result : RJValue F) : Prop :=
  ∀ p, (p ≠ [] → valuesAt p vs = 0 → nodeAt p result = none) ∧
    (p = [] ∨ valuesAt p vs ≠ 0 → ∃ r, nodeAt p result = some r ∧ ExactStats (valuesAt p vs) r)

/-- The integers at a path. -/
def IntegerAt (vs : Multiset (RJValue F)) (p : List Step) (z : ℤ) : Prop :=
  .number (.int z) ∈ valuesAt p vs

theorem resultRight {vs : Multiset (RJValue F)} {handler : Node F} (h : NodeHolds handler vs)
    (hsmall : ∀ p z, IntegerAt vs p z → -2 ^ 63 ≤ z ∧ z < 2 ^ 63) : ResultRight vs (toValue handler) := by
  intro p
  obtain ⟨hnone, hsome⟩ := nodeAt_toValue p h
  refine ⟨hnone, fun hp => ?_⟩
  obtain ⟨c, hc, hholds⟩ := hsome hp
  obtain ⟨huncast, hcast⟩ := uncastStats hholds
  have hmeasure : (valuesAt p vs).filterMap castBounds.measure =
      (valuesAt p vs).filterMap intBounds.measure := by
    have hall : ∀ v ∈ valuesAt p vs, castBounds.measure v = intBounds.measure v := fun v hv => by
      rcases v with _ | _ | (z | _) | _ | _ | _
      case number.int =>
        obtain ⟨hlow, hhigh⟩ := hsmall p z hv
        refine congrArg some (Int.bmod_eq_of_le ?_ ?_)
        · simpa using hlow
        · simpa using hhigh
      all_goals rfl
    generalize valuesAt p vs = ws at hall
    induction ws using Quotient.inductionOn with
    | h l => exact congrArg _ (List.filterMap_congr hall)
  unfold Bounds.Exact at hcast
  rw [hmeasure] at hcast
  exact ⟨_, hc, huncast, hcast⟩

omit [LinearOrder F] in
/-- An integer that is cast is below `2 ^ 63`. -/
theorem lt_of_exact {vs : Multiset (RJValue F)} {r : RJValue F} (hcast : castBounds.Exact ofInt vs r)
    (hint : intBounds.Exact ofInt vs r) {z : ℤ} (hz : .number (.int z) ∈ vs) : z < 2 ^ 63 := by
  have hmem : z ∈ vs.filterMap intBounds.measure := (Multiset.mem_filterMap _ _).mpr ⟨_, hz, rfl⟩
  rcases hint with ⟨hzero, -, -⟩ | ⟨l, -, u, -, hall, -, hmax⟩
  · rw [hzero] at hmem
    exact absurd hmem (Multiset.notMem_zero z)
  rcases hcast with ⟨-, -, hmax'⟩ | ⟨l', -, u', hu', -, -, hmax'⟩
  · cases hmax.symm.trans hmax'
  · have hu : ofInt (F := F) u = ofInt u' := Option.some.inj (hmax.symm.trans hmax')
    obtain rfl : u = u' := by
      injection hu with hnumber
      injection hnumber
    obtain ⟨w, -, hw⟩ := (Multiset.mem_filterMap _ _).mp hu'
    have hlt : u < 2 ^ 63 := by
      rcases w with _ | _ | (z' | _) | _ | _ | _
      case number.int =>
        obtain rfl := Option.some.inj hw
        have := Int.bmod_lt (x := z') (m := 2 ^ 64) (by norm_num)
        norm_num at this ⊢
        exact this
      all_goals cases hw
    exact lt_of_le_of_lt (hall z hmem).2 hlt

end Holds

/-! ### The statistics of documents -/

section Documents

variable {D : Type} [Double F] [RapidJsonDocument D F] [AddCommMonoid F] [LinearOrder F] [Library F]

/-- `ATTSTAT` -/
def attStat (toPointer : Str) (params : List (IValueProvider D F)) : IAggregator D F :=
  .basic .attStat toPointer params

/-- The value of the parameter, for a pointer as it is sent. -/
def attributeValue (params : List (IValueProvider D F)) (json : D) : Option (RJValue F) :=
  match params with
  | .pointer ptrStr :: _ =>
    (RapidJsonDocument.get json ptrStr).map fun _ => RapidJsonDocument.accept json ptrStr
  | _ => param params 0 json

/-- What the statistics of these documents are about. -/
def values (params : List (IValueProvider D F)) (docs : List D) : Multiset (RJValue F) :=
  (docs : Multiset D).bind fun json => ((attributeValue params json).toList : List (RJValue F))

/-- What the handler gets of these documents. -/
def acceptedValues (params : List (IValueProvider D F)) (docs : List D) : Multiset (RJValue F) :=
  (docs : Multiset D).bind fun json => ((accepted params json).toList : List (RJValue F))

/-- **No attribute is missing**: where the parameter is a pointer, it finds a value in each document. -/
def Present (params : List (IValueProvider D F)) (docs : List D) : Prop :=
  ∀ ptrStr, params.head? = some (.pointer ptrStr) →
    ∀ json ∈ docs, (RapidJsonDocument.get json ptrStr).isSome = true

/-- **The statistics are right**, however the documents were split and the parts merged, and the same
as those of one aggregator, up to the order of the nodes. -/
def StatsRight (toPointer : Str) (params : List (IValueProvider D F)) (docs : List D) : Prop :=
  ∀ t : Split D, t.docs.Perm docs → ∃ s, t.eval (attStat toPointer params) = some s ∧
    ResultRight (values params docs) (terminate (attStat toPointer params) s) ∧
    Reordered (terminate (attStat toPointer params) s)
      (terminate (attStat toPointer params) (run (attStat toPointer params) docs))

/-- The handler of an aggregator that has taken the documents. -/
theorem handler_of_holds {toPointer : Str} {params : List (IValueProvider D F)} {docs : List D}
    {s : AggState F} (h : Holds (attStat toPointer params) docs s) :
    ∃ handler, terminate (attStat toPointer params) s = toValue handler ∧
      NodeHolds handler (acceptedValues params docs) := by
  obtain ⟨b, rfl, handler, rfl, -, hholds⟩ := h
  exact ⟨handler, rfl, hholds⟩

omit [AddCommMonoid F] [LinearOrder F] [Library F] in
/-- The parameter is a pointer, or the handler gets what it has. -/
theorem accepted_cases (params : List (IValueProvider D F)) :
    (∃ ptrStr rest, params = .pointer ptrStr :: rest) ∨
      (∀ ptrStr, params.head? ≠ some (.pointer ptrStr)) ∧
        ∀ json, accepted params json = attributeValue params json := by
  rcases params with _ | ⟨_ | _ | ptrStr | _ | _ | _ | _ | _ | _, rest⟩
  case cons.pointer => exact Or.inl ⟨ptrStr, rest, rfl⟩
  all_goals exact Or.inr ⟨(fun ptrStr h => by cases h), fun _ => rfl⟩

omit [AddCommMonoid F] [LinearOrder F] [Library F] in
theorem accepted_of_present {params : List (IValueProvider D F)} {docs : List D}
    (h : Present params docs) : acceptedValues params docs = values params docs := by
  unfold acceptedValues values
  refine Multiset.bind_congr fun json hjson => ?_
  rcases accepted_cases params with ⟨ptrStr, rest, rfl⟩ | ⟨-, hsame⟩
  · obtain ⟨v, hv⟩ := Option.isSome_iff_exists.mp (h ptrStr rfl json hjson)
    rw [attributeValue, accepted, hv, Option.map_some]
  · rw [hsame]

omit [AddCommMonoid F] [LinearOrder F] [Library F] in
/-- A missing attribute is a null more. -/
theorem present_of_card {params : List (IValueProvider D F)} {docs : List D}
    (h : (acceptedValues params docs).card = (values params docs).card) : Present params docs := by
  rcases accepted_cases params with ⟨ptrStr, rest, rfl⟩ | ⟨hno, -⟩
  · intro p hp
    obtain rfl : ptrStr = p := by
      injection hp with hp
      injection hp
    have haccepted : (acceptedValues (.pointer ptrStr :: rest) docs).card = docs.length := by
      unfold acceptedValues
      rw [Multiset.coe_bind, Multiset.coe_card]
      simp [accepted]
    have hvalues : (values (.pointer ptrStr :: rest) docs).card =
        (docs.filterMap (attributeValue (.pointer ptrStr :: rest))).length := by
      unfold values
      rw [Multiset.coe_bind, Multiset.coe_card, List.filterMap_eq_flatMap_toList]
    intro json hjson
    have hsome := List.filterMap_length_eq_length.mp (hvalues.symm.trans (h.symm.trans haccepted))
      json hjson
    rwa [attributeValue, Option.isSome_map] at hsome
  · exact fun ptrStr hptr => absurd hptr (hno ptrStr)

/-- The handler that the documents of one aggregator lead to, and what it is to say. -/
theorem handler_of_statsRight {toPointer : Str} {params : List (IValueProvider D F)} {docs : List D}
    (h : StatsRight toPointer params docs) : ∃ handler : Node F, NodeHolds handler (acceptedValues params docs) ∧
      ResultRight (values params docs) (toValue handler) := by
  obtain ⟨s, hs, hright, -⟩ := h (.run docs) (.refl docs)
  obtain rfl := Option.some.inj hs
  obtain ⟨handler, hterminate, hholds⟩ := handler_of_holds (holds_run (attStat toPointer params) docs)
  exact ⟨handler, hholds, hterminate ▸ hright⟩

theorem present_of_statsRight {toPointer : Str} {params : List (IValueProvider D F)} {docs : List D}
    (h : StatsRight toPointer params docs) : Present params docs := by
  obtain ⟨handler, hholds, hright⟩ := handler_of_statsRight h
  obtain ⟨r, hr, hexact⟩ := (hright []).2 (Or.inl rfl)
  obtain rfl := Option.some.inj hr
  have htotal : (⟨"Count_Total", fun _ => true⟩ : Counter F) ∈ Counter.all := List.mem_cons_self
  have hcount := (hexact.counts _ htotal).symm.trans ((uncastStats hholds).1.counts _ htotal)
  have heq : ofNat (F := F) (values params docs).card = ofNat (acceptedValues params docs).card := by
    simpa [valuesAt] using hcount
  refine present_of_card ?_
  injection heq with heq
  injection heq with heq
  exact (Int.ofNat_inj.mp heq).symm

theorem lt_of_statsRight {toPointer : Str} {params : List (IValueProvider D F)} {docs : List D}
    (h : StatsRight toPointer params docs) {p : List Step} {z : ℤ}
    (hz : IntegerAt (values params docs) p z) : z < 2 ^ 63 := by
  obtain ⟨handler, hholds, hright⟩ := handler_of_statsRight h
  rw [accepted_of_present (present_of_statsRight h)] at hholds
  have hp : p = [] ∨ valuesAt p (values params docs) ≠ 0 :=
    Or.inr fun hzero => by simp [IntegerAt, hzero] at hz
  obtain ⟨r, hr, hexact⟩ := (hright p).2 hp
  obtain ⟨c, hc, hnode⟩ := (nodeAt_toValue p hholds).2 hp
  obtain rfl := Option.some.inj (hr.symm.trans hc)
  exact lt_of_exact (uncastStats hnode).2 hexact.int hz

/-- **Attribute statistics are right** exactly if no attribute is missing and no integer is beyond
`int64_t`. -/
theorem statsRight_iff (toPointer : Str) (params : List (IValueProvider D F)) (docs : List D)
    (hrange : ∀ p z, IntegerAt (values params docs) p z → -2 ^ 63 ≤ z ∧ z < 2 ^ 64) :
    StatsRight toPointer params docs ↔
      Present params docs ∧ ∀ p z, IntegerAt (values params docs) p z → z < 2 ^ 63 := by
  refine ⟨fun h => ⟨present_of_statsRight h, fun p z hz => lt_of_statsRight h hz⟩, ?_⟩
  rintro ⟨hpresent, h⟩ t ht
  obtain ⟨s, hs, hholds⟩ := holds_eval (attStat toPointer params) t
  rw [Multiset.coe_eq_coe.mpr ht] at hholds
  refine ⟨s, hs, ?_, sameResult hholds (holds_run (attStat toPointer params) docs)⟩
  obtain ⟨handler, hterminate, hnode⟩ := handler_of_holds hholds
  rw [accepted_of_present hpresent] at hnode
  rw [hterminate]
  exact resultRight hnode fun p z hz => ⟨(hrange p z hz).1, h p z hz⟩

end Documents

/-! ### Unsigned integers -/

def byA : List (IValueProvider (FlatDocument ℚ) ℚ) := [.pointer (ascii "/a")]

def holding (z : ℤ) : FlatDocument ℚ := ⟨[(ascii "/a", .number (.int z))]⟩

/-- The only integer is the one at the root. -/
theorem integerAt_holding {z w : ℤ} {p : List Step} (h : IntegerAt (values byA [holding z]) p w) :
    w = z := by
  have hvalues : values byA [holding z] = {RJValue.number (.int z)} := rfl
  unfold IntegerAt at h
  rw [hvalues] at h
  rcases p with _ | ⟨step, p⟩
  · have heq := Multiset.mem_singleton.mp h
    injection heq with hnumber
    injection hnumber
  · have hbelow : below step {RJValue.number (F := ℚ) (.int z)} = 0 := by
      cases step with
      | member name => exact Multiset.singleton_bind _ _
      | element i => exact Multiset.singleton_bind _ _
    rw [valuesAt, hbelow, valuesAt_zero] at h
    exact absurd h (Multiset.notMem_zero _)

theorem statsRight_iff_int64 : StatsRight [] byA [holding (2 ^ 63 - 1)] ↔
    Present byA [holding (2 ^ 63 - 1)] ∧
      ∀ p z, IntegerAt (values byA [holding (2 ^ 63 - 1)]) p z → z < 2 ^ 63 :=
  statsRight_iff [] byA [holding (2 ^ 63 - 1)] fun p z h => by
    rw [integerAt_holding h]
    norm_num

/-- `2 ^ 63` is reported as `-2 ^ 63`. -/
theorem not_statsRight_uint64 : ¬ StatsRight [] byA [holding (2 ^ 63)] := fun h => by
  have hlt := lt_of_statsRight h (p := []) (z := 2 ^ 63) (List.mem_singleton_self _)
  norm_num at hlt

end Joda.Aggregation.AttributePaths
