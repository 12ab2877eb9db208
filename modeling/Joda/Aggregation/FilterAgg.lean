import Joda.Aggregation.Merger
import Joda.Execution.Container

/-! # Aggregating what is selected

A selection of a container is aggregated in two stages: `AsPipeline` makes a container of the selected
documents, a view or a copy, and `AggPipeline` takes its documents. `FilterAggregationRule` puts
`FilterAggPipeline` in their place where the `AS` list is empty; it takes the documents as they are in
the container.

The documents that are made have new ids, a copy is in no file, and a copy that is `null` is left out.
Only the attributes of a container that is there already are materialised: a new view has nothing to
materialise, and the layers below it stay as they are. -/

namespace Joda.Aggregation.FilterAgg

open Joda.Values.Value Joda.Values.Pointer
open Joda.Execution.Container (DocIndex)
open Joda.Storage.View
open Joda.Storage.ViewStack
open Joda.Storage.ViewedDocuments
open Joda.Aggregation.Aggregator
open Joda.Aggregation.AggregatedDocuments
open Joda.Aggregation.Merger (Partial accumulateAll)

variable {F : Type}

/-! ### The containers in memory -/

/-- The containers, each with its `baseContainer`. -/
abbrev Memory (F : Type) := List (Container F × Option ℕ)

def pathFrom (m : Memory F) : ℕ → ℕ → List ℕ
  | 0, _ => []
  | fuel + 1, c => (m[c]?).elim [] fun cont => c :: cont.2.elim [] (pathFrom m fuel)

/-- A container and those it stands on. -/
def path (m : Memory F) (c : ℕ) : List ℕ := pathFrom m m.length c

def stackOf (m : Memory F) (c : ℕ) : Stack F :=
  (path m c).filterMap fun c => (m[c]?).map Prod.fst

/-- The containers of a path are replaced; one that was cut off is a base container. -/
def store (m : Memory F) : List ℕ → Stack F → Memory F
  | c :: cs, cont :: below =>
    (store m cs below).modify c fun old =>
      (cont, if below.isEmpty && !cs.isEmpty then none else old.2)
  | _, _ => m

def materialize (m : Memory F) (c : ℕ) (atts : List RJPointer) : Memory F :=
  store m (path m c) (materializeAttributesIfRequired atts (stackOf m c))

/-- The places `JSONContainer::forAll` goes through with an index. -/
def selected (size : ℕ) (ids : DocIndex) : List ℕ := (List.range size).filter (· ∈ ids)

/-! ### The query -/

/-- `IProjector` or `ISetProjector`. -/
structure Projector where
  text : Str
  allCopy : Bool
  attributes : List Str

/-- What the projectors make of a document: values, or deltas with their paths. -/
structure Projection (F : Type) where
  project : ViewedDocument F → List (RJValue F)
  delta : ViewedDocument F → List (RJValue F)
  toPointers : List RJPointer

structure Query (F : Type) where
  projectors : List Projector
  setProjectors : List Projector
  projection : Projection F
  aggregators : List (IAggregator (ViewedDocument F) F)

namespace Query

/-- `getASAttributes`; the whole document is left out by `AsExec`. -/
def asAttributes (query : Query F) : List RJPointer :=
  (sortUnique ((query.projectors ++ query.setProjectors).flatMap Projector.attributes)).filter (· ≠ [])

def getAGGAttributes (query : Query F) : List RJPointer :=
  AggregatedDocuments.getAGGAttributes query.aggregators

def star (query : Query F) : Bool := query.projectors.isEmpty && query.setProjectors.isEmpty

def canCreateView (enable_views : Bool) (query : Query F) : Bool :=
  enable_views && (query.projectors.head?.any (·.allCopy) || query.star)

end Query

/-! ### `AsPipeline` -/

namespace AsExec

def toString (query : Query F) : Str :=
  ((query.projectors ++ query.setProjectors).flatMap fun item =>
    ascii "(" ++ item.text ++ ascii "),").dropLast

/-- Whether there is more than `*`. -/
def hasToProject (query : Query F) : Bool :=
  !(query.setProjectors.isEmpty && (query.projectors.isEmpty ||
    (query.projectors.length = 1 && query.projectors.head?.any (·.allCopy))))

def isNull : RJValue F → Bool
  | .null => true
  | _ => false

/-- The container that is sent on: one that is there, or a new one and what it stands on. -/
inductive Output (F : Type) where
  | existing (container : ℕ)
  | created (cont : Container F) (baseContainer : Option ℕ)

section Functions

variable (query : Query F) (newID : ℕ → ℕ → ℕ)

/-- **`JSONContainer::createViewFromContainer`**; `newID i k` is the id of the document that is made as
`k`th of the one at the place `i`. -/
def createViewFromContainer (stack : Stack F) (ids : DocIndex) : Container F :=
  if !hasToProject query then
    { docs := (selected (size stack) ids).map fun i =>
        ⟨newID i 0, (documentAt stack i).origin, .null⟩
      baseIds := selected (size stack) ids
      materializedAttributes := [] }
  else
    { docs := (selected (size stack) ids).flatMap fun i =>
        (query.projection.delta (documentAt stack i)).mapIdx fun k v => ⟨newID i k, .temporary, v⟩
      baseIds := (selected (size stack) ids).flatMap fun i =>
        (query.projection.delta (documentAt stack i)).map fun _ => i
      materializedAttributes := query.projection.toPointers }

/-- `AsExec::defaultProject`, for one document. -/
def defaultProject (stack : Stack F) (i : ℕ) : List (RJValue F) :=
  if query.star then [getRaw stack i] else query.projection.project (documentAt stack i)

/-- The container of the documents that are not `null`. -/
def copyContainer (stack : Stack F) (ids : DocIndex) : Container F where
  docs := (selected (size stack) ids).flatMap fun i =>
    ((defaultProject query stack i).filter fun v => !isNull v).mapIdx fun k v =>
      ⟨newID i k, .temporary, v⟩
  baseIds := []
  materializedAttributes := []

variable (enable_views : Bool) (cheaper : Stack F → DocIndex → Bool)

/-- `JSONContainer::useViewBasedOnSample`: for more than a hundred documents the size in memory of a
sample decides. -/
def useViewBasedOnSample (stack : Stack F) (ids : DocIndex) : Bool :=
  if (selected (size stack) ids).length ≤ 100 then true else cheaper stack ids

/-- Whether the container that is made is a view. -/
def useView (stack : Stack F) (ids : DocIndex) : Bool :=
  query.canCreateView enable_views && useViewBasedOnSample cheaper stack ids

/-- The transformation of the selected documents. -/
def transform (m : Memory F) (c : ℕ) (ids : DocIndex) : Memory F × Option (Output F) :=
  let m := materialize m c query.asAttributes
  let stack := stackOf m c
  if useView query enable_views cheaper stack ids then
    (m, some (.created (createViewFromContainer query newID stack ids) (some c)))
  else (m, some (.created (copyContainer query newID stack ids) none))

end Functions

end AsExec

/-- `FilteredJSONContainer`; the default one has no container. -/
inductive FilteredJSONContainer where
  | default
  | const (container : ℕ) (constFilter : Bool)
  | index (container : ℕ) (index : DocIndex)

section Pipelines

variable (enable_views : Bool) (cheaper : Stack F → DocIndex → Bool) (query : Query F)

/-- **`AsExec::handleOne`** -/
def AsExec.handleOne (newID : ℕ → ℕ → ℕ) (m : Memory F) :
    FilteredJSONContainer → Memory F × Option (AsExec.Output F)
  | .default => (m, none)
  | .const c constFilter =>
    if constFilter then
      if hasToProject query then
        transform query newID enable_views cheaper m c (Finset.range (size (stackOf m c)))
      else (m, some (.existing c))
    else (m, none)
  | .index c ids => transform query newID enable_views cheaper m c ids

/-- **`AggExec::handleOne`**: the documents it takes. -/
def AggExec.handleOne (m : Memory F) : AsExec.Output F → Memory F × List (ViewedDocument F)
  | .existing c =>
    let m := materialize m c query.getAGGAttributes
    (m, documents (stackOf m c))
  | .created cont baseContainer =>
    let stack := materializeAttributesIfRequired query.getAGGAttributes
      (cont :: baseContainer.elim [] (stackOf m))
    (baseContainer.elim m fun c => store m (path m c) stack.tail, documents stack)

/-- **`FilterAggExec::handleOne`**: the documents it takes. -/
def FilterAggExec.handleOne (m : Memory F) :
    FilteredJSONContainer → Memory F × List (ViewedDocument F)
  | .default => (m, [])
  | .const c constFilter =>
    if constFilter then
      let m := materialize m c query.getAGGAttributes
      (m, documents (stackOf m c))
    else (m, [])
  | .index c ids =>
    let m := materialize m c query.getAGGAttributes
    (m, (selected (size (stackOf m c)) ids).map (documentAt (stackOf m c)))

/-- A filtered container, with the ids that are given out while it is handled. -/
abbrev Input := FilteredJSONContainer × (ℕ → ℕ → ℕ)

/-- `AsExec::handleOne`, and `AggExec::handleOne` for what it sends. -/
def asAgg (m : Memory F) (input : Input) : Memory F × List (ViewedDocument F) :=
  let r := AsExec.handleOne enable_views cheaper query input.2 m input.1
  r.2.elim (r.1, []) (AggExec.handleOne query r.1)

variable [Double F] [AddCommMonoid F] [LinearOrder F] [Library F]

/-- The aggregators of a new task. -/
def newAggregators : List (Partial (ViewedDocument F) F) :=
  query.aggregators.map fun agg => (agg, init agg)

/-- **`FilterAggPipeline`** -/
def filterAggPipeline (state : Memory F × List (Partial (ViewedDocument F) F)) (inputs : List Input) :
    Memory F × List (Partial (ViewedDocument F) F) :=
  inputs.foldl (fun state input =>
    let r := FilterAggExec.handleOne query state.1 input.1
    (r.1, accumulateAll state.2 r.2)) state

/-- **`AsPipeline` followed by `AggPipeline`**, one container after the other. -/
def asAggPipeline (state : Memory F × List (Partial (ViewedDocument F) F)) (inputs : List Input) :
    Memory F × List (Partial (ViewedDocument F) F) :=
  inputs.foldl (fun state input =>
    let r := asAgg enable_views cheaper query state.1 input
    (r.1, accumulateAll state.2 r.2)) state

end Pipelines

/-! ### The rule -/

/-- **`FilterAggregationRule::validateOptimizationTarget`** for the tasks of a query. -/
def validateOptimizationTarget (query : Query F) : Bool := (AsExec.toString query).isEmpty

/-- Nothing but an empty `AS` list is accepted, not even `*`. -/
theorem validate_iff {query : Query F} :
    validateOptimizationTarget query = true ↔ query.projectors = [] ∧ query.setProjectors = [] := by
  rw [validateOptimizationTarget, List.isEmpty_iff, ← List.append_eq_nil_iff]
  rcases hitems : query.projectors ++ query.setProjectors with _ | ⟨item, items⟩
  · simp [AsExec.toString, hitems]
  · refine ⟨fun h => ?_, fun h => by cases h⟩
    have hlen := congrArg List.length h
    have hopen : (ascii "(").length = 1 := rfl
    have hclose : (ascii "),").length = 2 := rfl
    rw [AsExec.toString, hitems, List.flatMap_cons] at hlen
    simp only [List.length_dropLast, List.length_append, List.length_nil] at hlen
    omega

/-! ### What the pipelines take -/

theorem pathFrom_isSome {m : Memory F} : ∀ {fuel c : ℕ}, ∀ c' ∈ pathFrom m fuel c,
    (m[c']?).isSome = true
  | 0, _, c', h => by cases h
  | fuel + 1, c, c', h => by
    rw [pathFrom] at h
    rcases hm : m[c]? with _ | cont
    · rw [hm] at h
      cases h
    · rw [hm, Option.elim_some] at h
      rcases List.mem_cons.mp h with rfl | h
      · rw [hm]
        rfl
      · rcases hbase : cont.2 with _ | b
        · rw [hbase] at h
          cases h
        · rw [hbase] at h
          exact pathFrom_isSome c' h

theorem store_self (m : Memory F) : ∀ cs : List ℕ, (∀ c ∈ cs, (m[c]?).isSome = true) →
    store m cs (cs.filterMap fun c => (m[c]?).map Prod.fst) = m
  | [], _ => rfl
  | c :: cs, h => by
    obtain ⟨hc, hcs⟩ := List.forall_mem_cons.mp h
    obtain ⟨old, hold⟩ := Option.isSome_iff_exists.mp hc
    have hempty : (cs.filterMap fun c => (m[c]?).map Prod.fst).isEmpty = cs.isEmpty := by
      rcases cs with _ | ⟨c', cs⟩
      · rfl
      · obtain ⟨old', hold'⟩ := Option.isSome_iff_exists.mp (hcs c' List.mem_cons_self)
        rw [List.filterMap_cons, hold']
        rfl
    rw [List.filterMap_cons, hold]
    show (store m cs _).modify c _ = m
    rw [store_self m cs hcs]
    refine List.ext_getElem? fun k => ?_
    rw [List.getElem?_modify, hempty]
    by_cases hk : c = k
    · subst hk
      rw [hold]
      simp
    · simp [hk]

theorem store_stackOf (m : Memory F) (c : ℕ) : store m (path m c) (stackOf m c) = m :=
  store_self m _ pathFrom_isSome

theorem materialize_nil (m : Memory F) (c : ℕ) : materialize m c [] = m := by
  have hsame : ∀ stack : Stack F, materializeAttributesIfRequired [] stack = stack := by
    rintro (_ | ⟨cont, _ | ⟨base, below⟩⟩)
    · rfl
    · rfl
    · rw [materializeAttributesIfRequired, if_pos (Or.inl rfl)]
  rw [materialize, hsame, store_stackOf]

/-- The documents of a container that stands on nothing. -/
theorem documents_base (cont : Container F) : documents [cont] = cont.docs.map fun doc =>
    (⟨doc.id, doc.origin, doc.json, setViews doc.json []⟩ : ViewedDocument F) := by
  refine List.ext_getElem? fun k => ?_
  rw [documents, List.getElem?_map, List.getElem?_map]
  show ((List.range cont.docs.length)[k]?).map _ = _
  by_cases hk : k < cont.docs.length
  · rw [List.getElem?_range hk, List.getElem?_eq_getElem hk]
    simp [documentAt, layersOf, hk]
  · rw [List.getElem?_eq_none (by simpa using hk), List.getElem?_eq_none (by omega)]
    rfl

section Accepted

variable {query : Query F} {enable_views : Bool} {cheaper : Stack F → DocIndex → Bool}

/-- **What becomes of a selected document**: one of a view that only selects, or a copy, if there is
any. -/
def unpacked (query : Query F) (enable_views : Bool) (cheaper : Stack F → DocIndex → Bool)
    (newID : ℕ → ℕ → ℕ) (stack : Stack F) (ids : DocIndex) (i : ℕ) : Option (ViewedDocument F) :=
  if AsExec.useView query enable_views cheaper stack ids then
    some ⟨newID i 0, (documentAt stack i).origin, .null, ⟨.null, []⟩ :: layersOf stack i⟩
  else if AsExec.isNull (getRaw stack i) then none
  else some ⟨newID i 0, .temporary, getRaw stack i, setViews (getRaw stack i) []⟩

/-- A new container has nothing to materialise. -/
theorem nothing_to_materialize {cont : Container F} (h : cont.materializedAttributes = [])
    (stack : Stack F) (atts : List RJPointer) :
    materializeAttributesIfRequired atts (cont :: stack) = cont :: stack := by
  rcases stack with _ | ⟨base, below⟩
  · rw [materializeAttributesIfRequired]
    simp
  · rw [materializeAttributesIfRequired, if_pos (Or.inr h)]

theorem createView_eq (hq : AsExec.hasToProject query = false) (newID : ℕ → ℕ → ℕ)
    (stack : Stack F) (ids : DocIndex) :
    AsExec.createViewFromContainer query newID stack ids =
      { docs := (selected (size stack) ids).map fun i =>
          ⟨newID i 0, (documentAt stack i).origin, .null⟩
        baseIds := selected (size stack) ids
        materializedAttributes := [] } := by
  rw [AsExec.createViewFromContainer, hq]
  rfl

theorem documents_view (hq : AsExec.hasToProject query = false) (newID : ℕ → ℕ → ℕ)
    (stack : Stack F) (ids : DocIndex) :
    documents (AsExec.createViewFromContainer query newID stack ids :: stack) =
      (selected (size stack) ids).map fun i =>
        ⟨newID i 0, (documentAt stack i).origin, .null, ⟨.null, []⟩ :: layersOf stack i⟩ := by
  rw [createView_eq hq]
  rcases stack with _ | ⟨base, below⟩
  · rfl
  · generalize selected (size (base :: below)) ids = sel
    refine List.ext_getElem? fun k => ?_
    rw [documents, List.getElem?_map, List.getElem?_map]
    show ((List.range (sel.map _).length)[k]?).map _ = _
    rw [List.length_map]
    by_cases hk : k < sel.length
    · rw [List.getElem?_range hk, List.getElem?_eq_getElem hk]
      simp [documentAt, layersOf, hk]
    · rw [List.getElem?_eq_none (by simpa using hk), List.getElem?_eq_none (by omega)]
      rfl

theorem documents_copy (hq : query.star = true) (newID : ℕ → ℕ → ℕ) (stack : Stack F)
    (ids : DocIndex) :
    documents [AsExec.copyContainer query newID stack ids] =
      (selected (size stack) ids).filterMap fun i =>
        if AsExec.isNull (getRaw stack i) then none
        else some ⟨newID i 0, .temporary, getRaw stack i,
          setViews (getRaw stack i) []⟩ := by
  rw [documents_base, AsExec.copyContainer]
  generalize selected (size stack) ids = sel
  induction sel with
  | nil => rfl
  | cons i sel ih =>
    rw [List.flatMap_cons, List.map_append, ih, List.filterMap_cons, AsExec.defaultProject, hq]
    by_cases hnull : AsExec.isNull (getRaw stack i) = true
    · simp [hnull]
    · simp [hnull]

variable (hq : validateOptimizationTarget query = true)
include hq

theorem star_of_accepted : query.star = true := by
  obtain ⟨hp, hs⟩ := validate_iff.mp hq
  rw [Query.star, hp, hs]
  rfl

theorem hasToProject_of_accepted : AsExec.hasToProject query = false := by
  obtain ⟨hp, hs⟩ := validate_iff.mp hq
  rw [AsExec.hasToProject, hp, hs]
  rfl

theorem asAttributes_of_accepted : query.asAttributes = [] := by
  obtain ⟨hp, hs⟩ := validate_iff.mp hq
  rw [Query.asAttributes, hp, hs]
  simp [sortUnique]

/-- **A selection that is unpacked.** -/
theorem asAgg_index (m : Memory F) (c : ℕ) (ids : DocIndex) (newID : ℕ → ℕ → ℕ) :
    asAgg enable_views cheaper query m (.index c ids, newID) =
      (m, (selected (size (stackOf m c)) ids).filterMap
        (unpacked query enable_views cheaper newID (stackOf m c) ids)) := by
  rw [asAgg, AsExec.handleOne, AsExec.transform, asAttributes_of_accepted hq, materialize_nil]
  by_cases hview : AsExec.useView query enable_views cheaper (stackOf m c) ids = true
  · have hun : unpacked query enable_views cheaper newID (stackOf m c) ids = fun i =>
        some ⟨newID i 0, (documentAt (stackOf m c) i).origin, .null,
          ⟨.null, []⟩ :: layersOf (stackOf m c) i⟩ := by
      funext i
      rw [unpacked, if_pos hview]
    have hatts : (AsExec.createViewFromContainer query newID (stackOf m c) ids).materializedAttributes =
        [] := by
      rw [createView_eq (hasToProject_of_accepted hq)]
    simp only [hview, if_true, Option.elim_some, AggExec.handleOne, nothing_to_materialize hatts,
      List.tail_cons, store_stackOf]
    rw [documents_view (hasToProject_of_accepted hq), hun, List.filterMap_eq_map']
  · have hun : unpacked query enable_views cheaper newID (stackOf m c) ids = fun i =>
        if AsExec.isNull (getRaw (stackOf m c) i) then none
        else some ⟨newID i 0, .temporary, getRaw (stackOf m c) i,
          setViews (getRaw (stackOf m c) i) []⟩ := by
      funext i
      rw [unpacked, if_neg hview]
    simp only [hview, Bool.false_eq_true, if_false, Option.elim_some, Option.elim_none,
      AggExec.handleOne]
    rw [nothing_to_materialize rfl, documents_copy (star_of_accepted hq), hun]

/-- What is selected by a constant is not unpacked. -/
theorem asAgg_const (m : Memory F) (c : ℕ) (b : Bool) (newID : ℕ → ℕ → ℕ) :
    asAgg enable_views cheaper query m (.const c b, newID) =
      FilterAggExec.handleOne query m (.const c b) := by
  rw [asAgg, AsExec.handleOne, FilterAggExec.handleOne, hasToProject_of_accepted hq]
  rcases b with - | -
  · rfl
  · rfl

end Accepted

end Joda.Aggregation.FilterAgg
