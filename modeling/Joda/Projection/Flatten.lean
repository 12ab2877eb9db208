import Joda.Aggregation.Aggregator
import Joda.Lib.Choices
import Joda.Values.PointerFits
import Mathlib.Data.List.GetD

/-! # `FLATTEN`

A set projector gets the documents that the projectors before it made of one document. `FLATTEN` copies
the list once for each further element of its array and then sets each element in a block of the list.
So the list is in the order of the choices of one element from each array, the first one changing
fastest (`projectAll_eq`), and where the destinations go together every document has its elements and
else what the starting document has (`flatten_crossProduct`). -/

namespace Joda.Projection.Flatten

open Joda.Lib.Choices
open Joda.Values.Value Joda.Values.Provider Joda.Values.Pointer Joda.Values.PointerSet
open Joda.Values.PointerFits
open Joda.Aggregation.Aggregator (valueOf)

variable {D F : Type} [Double F] [RapidJsonDocument D F]

/-! ### The projector -/

/-- **`FlattenProjector`** with the destination of `ISetProjector`. -/
structure FlattenProjector (D F : Type) where
  ptr : RJPointer
  «from» : IValueProvider D F

/-- A number as an `int`. -/
def toInt (n : ℕ) : ℤ := (n : ℤ).bmod (2 ^ 32)

omit [Double F] in
/-- The list with `times - 1` copies, and how many documents there were; `reserve` throws if it is asked
for a negative number of documents. -/
def multiplicate (newDocs : List (RJValue F)) (times : ℤ) : Option (List (RJValue F) × ℕ) :=
  if times < 0 then none
  else some (newDocs ++ (List.replicate (times - 1).toNat newDocs).flatten, newDocs.length)

/-- The value is set in the documents from `origDocs * i` on, as many as there were; none if one of them
is beyond the list. -/
def fillArrayRangeWithVal (ptr : RJPointer) (newDocs : List (RJValue F)) (origDocs i : ℕ)
    (val : RJValue F) : Option (List (RJValue F)) :=
  (List.range' (origDocs * i) origDocs).foldlM
    (fun docs j => docs[j]?.map fun doc => docs.set j (set ptr val doc)) newDocs

/-- **`FlattenProjector::project`** -/
def project (p : FlattenProjector D F) (json : D) (newDocs : List (RJValue F)) :
    Option (List (RJValue F)) :=
  if newDocs = [] then none
  else
    match valueOf p.from json with
    | some (.array (v :: vs)) =>
      (multiplicate newDocs (toInt (v :: vs).length)).bind fun r =>
        (List.range (v :: vs).length).foldlM
          (fun docs i => (child (.array (v :: vs)) (ascii (toString i))).bind
            (fillArrayRangeWithVal p.ptr docs r.2 i)) r.1
    | _ => some newDocs

/-- The loop of `JSONContainer::projectDocuments` over the set projectors. -/
def projectAll (setProj : List (FlattenProjector D F)) (json : D) (newDocs : List (RJValue F)) :
    Option (List (RJValue F)) :=
  setProj.foldlM (fun docs sp => project sp json docs) newDocs

/-! ### The layout of the list -/

omit [Double F] [RapidJsonDocument D F] in
/-- A block of the list is filled. -/
theorem fill_block (f : RJValue F → RJValue F) : ∀ mid pre post : List (RJValue F),
    (List.range' pre.length mid.length).foldlM
        (fun docs j => docs[j]?.map fun doc => docs.set j (f doc)) (pre ++ mid ++ post) =
      some (pre ++ mid.map f ++ post)
  | [], pre, post => rfl
  | doc :: mid, pre, post => by
    have hget : (pre ++ doc :: mid ++ post)[pre.length]? = some doc := by simp
    have hset : (pre ++ doc :: mid ++ post).set pre.length (f doc) = pre ++ [f doc] ++ mid ++ post := by
      simp
    have hlen : pre.length + 1 = (pre ++ [f doc]).length := by simp
    rw [List.length_cons, List.range'_succ, List.foldlM_cons, hget, Option.map_some, hset, hlen]
    have hrest := fill_block f mid (pre ++ [f doc]) post
    simp only [List.append_assoc, List.cons_append, List.nil_append, List.map_cons] at hrest ⊢
    exact hrest

omit [Double F] [RapidJsonDocument D F] in
theorem fillArrayRangeWithVal_eq (ptr : RJPointer) (val : RJValue F) {pre mid post : List (RJValue F)}
    {i : ℕ} (hpre : pre.length = mid.length * i) :
    fillArrayRangeWithVal ptr (pre ++ mid ++ post) mid.length i val =
      some (pre ++ mid.map (set ptr val) ++ post) := by
  unfold fillArrayRangeWithVal
  rw [← hpre]
  exact fill_block (set ptr val) mid pre post

omit [Double F] in
/-- **The loop over the elements** from the `i`-th on, where `m` blocks are left. -/
theorem fill_elements (ptr : RJPointer) (vs docs : List (RJValue F)) (hlen : vs.length < 2 ^ 31) :
    ∀ (m i : ℕ) (pre : List (RJValue F)), i + m = vs.length → pre.length = docs.length * i →
      (List.range' i m).foldlM (fun docs' i => (child (.array vs) (ascii (toString i))).bind
          (fillArrayRangeWithVal ptr docs' docs.length i)) (pre ++ (List.replicate m docs).flatten) =
        some (pre ++ (vs.drop i).flatMap fun v => docs.map (set ptr v))
  | 0, i, pre, him, _ => by
    rw [List.drop_of_length_le (by omega)]
    rfl
  | m + 1, i, pre, him, hpre => by
    have hi : i < vs.length := by omega
    have hchild : child (.array vs) (ascii (toString i)) = some vs[i] := by
      rw [child, arrayIndex_toString (by omega), Option.bind_some, List.getElem?_eq_getElem hi]
    rw [List.range'_succ, List.foldlM_cons, hchild, Option.bind_some, List.replicate_succ,
      List.flatten_cons, ← List.append_assoc, fillArrayRangeWithVal_eq ptr vs[i] hpre]
    have hpre' : (pre ++ docs.map (set ptr vs[i])).length = docs.length * (i + 1) := by
      rw [List.length_append, List.length_map, hpre, Nat.mul_succ]
    refine (fill_elements ptr vs docs hlen m (i + 1) _ (by omega) hpre').trans ?_
    rw [List.drop_eq_getElem_cons hi, List.flatMap_cons, List.append_assoc]

/-- The elements that are projected. -/
def elementsOf (p : FlattenProjector D F) (json : D) : List (RJValue F) :=
  match valueOf p.from json with
  | some (.array vs) => vs
  | _ => []

/-- **A projector** makes a block for each element, if there is one. -/
theorem project_eq (p : FlattenProjector D F) (json : D) {docs : List (RJValue F)} (hdocs : docs ≠ [])
    (hlen : (elementsOf p json).length < 2 ^ 31) :
    project p json docs = some (if elementsOf p json = [] then docs
      else (elementsOf p json).flatMap fun v => docs.map (set p.ptr v)) := by
  unfold project elementsOf at *
  rw [if_neg hdocs]
  rcases hval : valueOf p.from json with _ | _ | _ | _ | _ | vs | _
  case some.array =>
    rcases vs with _ | ⟨v, vs⟩
    · rfl
    rw [hval] at hlen
    dsimp only at hlen ⊢
    have hcons : (v :: vs).length = vs.length + 1 := rfl
    have htimes : toInt (v :: vs).length = ((v :: vs).length : ℤ) :=
      Int.bmod_eq_of_le (by norm_num; omega) (by norm_num; omega)
    have hcopies : ((v :: vs).length - 1 : ℤ).toNat = vs.length := by simp
    rw [htimes, multiplicate, if_neg (by omega), Option.bind_some, hcopies, if_neg (List.cons_ne_nil v vs)]
    have hall := fill_elements p.ptr (v :: vs) docs hlen (v :: vs).length 0 [] (by omega) rfl
    rw [List.length_cons, List.replicate_succ, List.flatten_cons] at hall
    rw [List.range_eq_range']
    exact hall
  all_goals rfl

/-- The number of elements is an `int`: where it is negative `reserve` throws. -/
theorem project_eq_none (p : FlattenProjector D F) (json : D) {docs : List (RJValue F)} (hdocs : docs ≠ [])
    (hlen : 2 ^ 31 ≤ (elementsOf p json).length ∧ (elementsOf p json).length < 2 ^ 32) :
    project p json docs = none := by
  unfold project elementsOf at *
  rw [if_neg hdocs]
  rcases hval : valueOf p.from json with _ | _ | _ | _ | _ | vs | _
  case some.array =>
    rw [hval] at hlen
    rcases vs with _ | ⟨v, vs⟩
    · simp at hlen
    dsimp only at hlen ⊢
    have hneg : toInt (v :: vs).length < 0 := by
      unfold toInt
      rw [Int.bmod_def]
      omega
    rw [multiplicate, if_pos hneg]
    rfl
  all_goals
    rw [hval] at hlen
    simp at hlen

/-! ### The choices -/

/-- The destinations with the arrays whose elements are projected, where there are some. -/
def sources (setProj : List (FlattenProjector D F)) (json : D) : List (RJPointer × List (RJValue F)) :=
  (setProj.map fun p => (p.ptr, elementsOf p json)).filter fun s => !s.2.isEmpty

def sizes (srcs : List (RJPointer × List (RJValue F))) : List ℕ := srcs.map fun s => s.2.length

/-- The destinations with the chosen elements. -/
def chosen (srcs : List (RJPointer × List (RJValue F))) (c : List ℕ) : List (RJPointer × RJValue F) :=
  List.zipWith (fun s i => (s.1, s.2.getD i .null)) srcs c

omit [Double F] [RapidJsonDocument D F] in
theorem flatMap_range {α β : Type} (l : List α) (a : α) (f : α → List β) :
    l.flatMap f = (List.range l.length).flatMap fun i => f (l.getD i a) := by
  have hl : l = (List.range l.length).map fun i => l.getD i a := by
    refine List.ext_getElem (by simp) fun i h h' => ?_
    rw [List.getElem_map, List.getElem_range, List.getD_eq_getElem _ _ h]
  conv_lhs => rw [hl]
  rw [List.flatMap_map]

omit [Double F] [RapidJsonDocument D F] in
theorem flatMap_ne_nil {vs docs : List (RJValue F)} (hvs : vs ≠ []) (hdocs : docs ≠ [])
    (ptr : RJPointer) : (vs.flatMap fun v => docs.map (set ptr v)) ≠ [] := by
  obtain ⟨v, vs, rfl⟩ := List.exists_cons_of_ne_nil hvs
  obtain ⟨doc, docs, rfl⟩ := List.exists_cons_of_ne_nil hdocs
  simp

/-- **The documents after all projectors**, by the choices of their elements. -/
theorem projectAll_eq (json : D) : ∀ (setProj : List (FlattenProjector D F)) {docs : List (RJValue F)},
    docs ≠ [] → (∀ s ∈ sources setProj json, s.2.length < 2 ^ 31) →
      projectAll setProj json docs = some ((choices (sizes (sources setProj json))).flatMap fun c =>
        docs.map (setAll (chosen (sources setProj json) c)))
  | [], docs, _, _ => by
    show some docs = some ([[]].flatMap fun c => docs.map (setAll (chosen [] c)))
    have hid : setAll (chosen ([] : List (RJPointer × List (RJValue F))) []) = id := rfl
    rw [List.flatMap_singleton, hid, List.map_id]
  | p :: setProj, docs, hdocs, hlen => by
    have hcons : projectAll (p :: setProj) json docs =
        (project p json docs).bind (projectAll setProj json) := rfl
    by_cases hnone : elementsOf p json = []
    · have hsources : sources (p :: setProj) json = sources setProj json := by
        unfold sources
        rw [List.map_cons, List.filter_cons, hnone]
        rfl
      rw [hsources] at hlen ⊢
      rw [hcons, project_eq p json hdocs (by rw [hnone]; simp), if_pos hnone, Option.bind_some]
      exact projectAll_eq json setProj hdocs hlen
    · have hsources : sources (p :: setProj) json =
          (p.ptr, elementsOf p json) :: sources setProj json := by
        unfold sources
        rw [List.map_cons, List.filter_cons, if_pos (by simp [hnone])]
      rw [hsources] at hlen ⊢
      obtain ⟨hfirst, hrest⟩ := List.forall_mem_cons.mp hlen
      rw [hcons, project_eq p json hdocs hfirst, if_neg hnone, Option.bind_some,
        projectAll_eq json setProj (flatMap_ne_nil hnone hdocs p.ptr) hrest]
      have hsizes : sizes ((p.ptr, elementsOf p json) :: sources setProj json) =
          (elementsOf p json).length :: sizes (sources setProj json) := rfl
      rw [hsizes, choices, List.flatMap_assoc]
      refine congrArg some (List.flatMap_congr fun c _ => ?_)
      rw [List.map_flatMap, List.flatMap_map, flatMap_range _ (.null : RJValue F)]
      refine List.flatMap_congr fun i _ => ?_
      rw [List.map_map]
      rfl

/-! ### The cross product -/

/-- **A document of a combination**: it has the chosen elements at the destinations, and what is beside
them is as in the starting document, but for the nulls that fill an array up to the index of a
destination. -/
structure Combination (srcs : List (RJPointer × List (RJValue F))) (start : RJValue F) (c : List ℕ)
    (doc : RJValue F) : Prop where
  elements : List.Forall₂ (fun s i => get doc s.1 = s.2[i]?) srcs c
  beside : ∀ q, (∀ s ∈ srcs, ¬ Overlap s.1 q) → Kept (srcs.map Prod.fst) start doc q

/-- **The cross product**: the documents are one for each combination. -/
structure CrossProduct (srcs : List (RJPointer × List (RJValue F))) (start : RJValue F)
    (docs : List (RJValue F)) : Prop where
  count : docs.length = (sizes srcs).prod
  each : ∃ cs : List (List ℕ), cs.Nodup ∧ (∀ c, c ∈ cs ↔ List.Forall₂ (· < ·) c (sizes srcs)) ∧
    List.Forall₂ (Combination srcs start) cs docs

section Combinations

variable {srcs : List (RJPointer × List (RJValue F))} {c : List ℕ}

omit [Double F] [RapidJsonDocument D F] in
theorem forall₂_chosen (h : List.Forall₂ (· < ·) c (sizes srcs)) :
    List.Forall₂ (fun e s => e.1 = s.1) (chosen srcs c) srcs ∧
      ∀ doc, (∀ e ∈ chosen srcs c, get doc e.1 = some e.2) →
        List.Forall₂ (fun s i => get doc s.1 = s.2[i]?) srcs c := by
  induction srcs generalizing c with
  | nil =>
    cases h
    exact ⟨.nil, fun _ _ => .nil⟩
  | cons s srcs ih =>
    unfold sizes at h
    cases h with
    | @cons i _ c _ hi hrest =>
      obtain ⟨hptrs, helements⟩ := ih hrest
      refine ⟨.cons rfl hptrs, fun doc hdoc => ?_⟩
      obtain ⟨hfirst, hothers⟩ := List.forall_mem_cons.mp hdoc
      refine .cons ?_ (helements doc hothers)
      rw [List.getElem?_eq_getElem hi, ← List.getD_eq_getElem s.2 .null hi]
      exact hfirst

omit [Double F] [RapidJsonDocument D F] in
theorem combination_of_choice {start : RJValue F} (hfits : ∀ s ∈ srcs, Fits s.1 start)
    (hpairs : srcs.Pairwise fun a b => ¬ Overlap a.1 b.1 ∧ Follows a.1 b.1 start)
    (hc : List.Forall₂ (· < ·) c (sizes srcs)) :
    Combination srcs start c (setAll (chosen srcs c) start) := by
  obtain ⟨hptrs, helements⟩ := forall₂_chosen hc
  have hmap : (chosen srcs c).map Prod.fst = srcs.map Prod.fst := by
    rw [← List.forall₂_eq_eq_eq, List.forall₂_map_left_iff, List.forall₂_map_right_iff]
    exact hptrs
  have hmem : ∀ {P : RJPointer → Prop}, (∀ s ∈ srcs, P s.1) → ∀ e ∈ chosen srcs c, P e.1 := by
    intro P hP e he
    obtain ⟨s, hs, heq⟩ := List.mem_map.mp (hmap ▸ List.mem_map_of_mem (f := Prod.fst) he)
    exact heq ▸ hP s hs
  have hpairs' : (chosen srcs c).Pairwise fun a b => ¬ Overlap a.1 b.1 ∧ Follows a.1 b.1 start := by
    have hR := List.pairwise_map (f := Prod.fst) (l := srcs)
      (R := fun p q => ¬ Overlap p q ∧ Follows p q start) |>.mpr hpairs
    rw [← hmap, List.pairwise_map] at hR
    exact hR
  obtain ⟨hset, hkept, -⟩ := setAll_keeps (hmem (P := fun p => Fits p start) hfits) hpairs'
  rw [hmap] at hkept
  exact ⟨helements _ hset, fun q hq => hkept q (hmem (P := fun p => ¬ Overlap p q) hq)⟩

end Combinations

/-- **Flattening yields the cross product** where the destinations fit the starting document and each of
them can be set after the others before it. -/
theorem flatten_crossProduct (json : D) (start : RJValue F) (setProj : List (FlattenProjector D F))
    (hlen : ∀ s ∈ sources setProj json, s.2.length < 2 ^ 31)
    (hfits : ∀ s ∈ sources setProj json, Fits s.1 start)
    (hpairs : (sources setProj json).Pairwise fun a b => ¬ Overlap a.1 b.1 ∧ Follows a.1 b.1 start) :
    ∃ docs, projectAll setProj json [start] = some docs ∧
      CrossProduct (sources setProj json) start docs := by
  refine ⟨_, projectAll_eq json setProj (List.cons_ne_nil _ _) hlen, ?_, choices _, nodup_choices _,
    fun c => mem_choices, ?_⟩
  · rw [← length_choices, List.length_flatMap]
    simp
  · have hmap : ∀ cs : List (List ℕ), cs.flatMap (fun c => [start].map (setAll (chosen
        (sources setProj json) c))) = cs.map fun c => setAll (chosen (sources setProj json) c) start := by
      intro cs
      induction cs with
      | nil => rfl
      | cons c cs ih => rw [List.flatMap_cons, ih]; rfl
    rw [hmap, List.forall₂_map_right_iff, List.forall₂_same]
    exact fun c hc => combination_of_choice hfits hpairs (mem_choices.mp hc)

/-! ### Destinations that do not go together -/

def flatten (ptr : List String) (source : String) : FlattenProjector (FlatDocument ℚ) ℚ :=
  ⟨ptr.map ascii, .pointer (ascii source)⟩

def number (z : ℤ) : RJValue ℚ := .number (.int z)

def document : FlatDocument ℚ :=
  ⟨[(ascii "/A", .array [number 1, number 2]), (ascii "/B", .array [number 3])]⟩

def namedMembers : List (FlattenProjector (FlatDocument ℚ) ℚ) :=
  [flatten ["x", "a"] "/A", flatten ["x", "b"] "/B", flatten ["y"] "/C"]

theorem sources_namedMembers : sources namedMembers document =
    [(["x", "a"].map ascii, [number 1, number 2]), (["x", "b"].map ascii, [number 3])] := rfl

theorem flatten_crossProduct_members : ∃ docs, projectAll namedMembers document [.null] = some docs ∧
    CrossProduct (sources namedMembers document) .null docs := by
  refine flatten_crossProduct document .null namedMembers ?_ (fun s _ => fits_null s.1) ?_
  · rw [sources_namedMembers]
    simp
  · rw [sources_namedMembers, List.pairwise_pair]
    refine ⟨?_, Or.inl ⟨rfl, Or.inr ⟨by decide, Or.inr (Or.inl (by decide))⟩⟩⟩
    unfold Overlap
    decide

/-- An index makes an array, which a name then overwrites. -/
def indexThenName : List (FlattenProjector (FlatDocument ℚ) ℚ) :=
  [flatten ["x", "0"] "/A", flatten ["x", "a"] "/B"]

/-- An array of so many elements. -/
def manyNulls (n : ℕ) : FlatDocument ℚ := ⟨[(ascii "/A", .array (List.replicate n .null))]⟩

theorem exists_of_forall₂ {α β : Type} {R : α → β → Prop} {as : List α} {bs : List β}
    (h : List.Forall₂ R as bs) {a : α} (ha : a ∈ as) : ∃ b ∈ bs, R a b := by
  induction h with
  | nil => cases ha
  | @cons a' b as bs hab _ ih =>
    rcases List.mem_cons.mp ha with rfl | ha
    · exact ⟨b, List.mem_cons_self, hab⟩
    · obtain ⟨b', hb', hab'⟩ := ih ha
      exact ⟨b', List.mem_cons_of_mem _ hb', hab'⟩

theorem elementsOf_manyNulls (n : ℕ) :
    elementsOf (flatten ["x"] "/A") (manyNulls n) = List.replicate n .null := rfl

/-- **An array is overwritten** by a destination with a name, and an array may be too long for an
`int`. -/
theorem not_crossProduct :
    (∃ setProj : List (FlattenProjector (FlatDocument ℚ) ℚ),
      (setProj.Pairwise fun a b => ¬ Overlap a.ptr b.ptr) ∧
        (∀ s ∈ sources setProj document, s.2.length < 2 ^ 31) ∧
          ¬ ∃ docs, projectAll setProj document [.null] = some docs ∧
            CrossProduct (sources setProj document) .null docs) ∧
      projectAll [flatten ["x"] "/A"] (manyNulls (2 ^ 31)) [.null] = none := by
  refine ⟨⟨indexThenName, ?_, ?_, ?_⟩, ?_⟩
  · unfold indexThenName
    rw [List.pairwise_pair]
    unfold Overlap
    decide
  · intro s hs
    have hsources : sources indexThenName document =
        [(["x", "0"].map ascii, [number 1, number 2]), (["x", "a"].map ascii, [number 3])] := rfl
    rw [hsources] at hs
    simp only [List.mem_cons, List.not_mem_nil, or_false] at hs
    rcases hs with rfl | rfl <;> norm_num
  · rintro ⟨docs, hdocs, -, cs, -, hcs, hall⟩
    have hmade : projectAll indexThenName document [.null] = some (List.replicate 2
        (.object [(ascii "x", .object [(ascii "a", number 3)])])) := rfl
    obtain rfl := Option.some.inj (hdocs.symm.trans hmade)
    have hmem : [0, 0] ∈ cs := (hcs [0, 0]).mpr (.cons (by decide) (.cons (by decide) .nil))
    obtain ⟨doc, hdoc, hcombination⟩ := exists_of_forall₂ hall hmem
    obtain rfl := List.eq_of_mem_replicate hdoc
    cases hcombination.elements with
    | cons hfirst _ => cases hfirst
  · have hnone := project_eq_none (flatten ["x"] "/A") (manyNulls (2 ^ 31)) (List.cons_ne_nil .null [])
      (by rw [elementsOf_manyNulls, List.length_replicate]; norm_num)
    rw [projectAll, List.foldlM_cons, hnone]
    rfl

end Joda.Projection.Flatten
