import Joda.Aggregation.FilterAgg
import Joda.Aggregation.Merger
import Joda.Storage.Selecting

/-! # Runs over filtered containers

`FilterAggPipeline` takes the selected documents of a container as they are, after its attributes were
materialised; the two pipelines it replaces take them as the documents of a new view that only selects,
or as copies. The aggregators read the same where nothing is to be materialised and neither the new layer
nor the copying is seen at the pointers they read (`Unseen`). Containers that are selected as a whole are
handled alike by both, so the containers in memory stay the same in a run. -/

namespace Joda.Aggregation.FilterAggRuns

open Joda.Values.Value Joda.Values.Pointer Joda.Values.PointerSet Joda.Values.Provider
open Joda.Execution.Container (DocIndex)
open Joda.Storage.View
open Joda.Storage.ViewStack
open Joda.Storage.ViewedDocuments
open Joda.Storage.Selecting
open Joda.Aggregation.Aggregator
open Joda.Aggregation.AggregatedDocuments
open Joda.Aggregation.Merger
open Joda.Aggregation.FilterAgg

variable {F : Type}

/-! ### Containers with nothing to materialise -/

/-- **Nothing is to be materialised**: in no container of the stack, a view path lies below one of the
attributes that are asked for there. -/
def NothingShared : List RJPointer → Stack F → Prop
  | atts, cont :: base :: below => atts = [] ∨ cont.materializedAttributes = [] ∨
    [] ∉ atts ∧ newatts cont atts = [] ∧ NothingShared (subatts cont atts) (base :: below)
  | _, _ => True

theorem NothingShared.materialize : ∀ {stack : Stack F} {atts : List RJPointer},
    NothingShared atts stack → materializeAttributesIfRequired atts stack = stack
  | [], atts, _ => by rw [materializeAttributesIfRequired]; simp
  | [cont], atts, _ => by rw [materializeAttributesIfRequired]; simp
  | cont :: base :: below, atts, h => by
    rw [materializeAttributesIfRequired]
    rcases h with h | h | ⟨hroot, hnew, hbelow⟩
    · rw [if_pos (Or.inl h)]
    · rw [if_pos (Or.inr h)]
    · split_ifs with hnone
      · rfl
      · rw [hnew, hbelow.materialize]
        rfl

theorem materialize_of_nothing {m : Memory F} {c : ℕ} {atts : List RJPointer}
    (h : NothingShared atts (stackOf m c)) : materialize m c atts = m := by
  rw [materialize, h.materialize, store_stackOf]

/-! ### What is seen of a selected document -/

section Seen

variable [Double F]

/-- **An aggregator reads a document through pointers only**, some with `Get` and some with `Accept`. -/
def ReadsThrough (gets accepts : List Str) (agg : IAggregator (ViewedDocument F) F) : Prop :=
  ∀ doc doc' : ViewedDocument F,
    (∀ p ∈ gets, RapidJsonDocument.get doc p = RapidJsonDocument.get doc' p) →
      (∀ p ∈ accepts, RapidJsonDocument.accept doc p = RapidJsonDocument.accept doc' p) →
        reads agg doc = reads agg doc'

/-- A document that has layers, and shows an object where `Accept` comes to a view path from one of the
pointers. -/
structure ThroughView (stack : Stack F) (i : ℕ) (accepts : List Str) : Prop where
  layers : layersOf stack i ≠ []
  shows : ∀ p ∈ accepts, ∀ ptr, parsePointer p = some ptr →
    (ptr = [] → SeenAtRoot (layersOf stack i) []) ∧
      ShowsObjects (layersOf stack i) (ptr.map cString) (stringify ptr)

/-- A document that is copied, and if it is one of a view, reads at the pointers as it is written. -/
structure ThroughCopy (stack : Stack F) (i : ℕ) (gets accepts : List Str) : Prop where
  notNull : AsExec.isNull (getRaw stack i) = false
  gets : isView stack = true → ∀ p ∈ gets,
    RapidJsonDocument.get (documentAt stack i) p = RapidJsonDocument.get (writtenAt stack i) p
  accepts : isView stack = true → ∀ p ∈ accepts,
    RapidJsonDocument.accept (documentAt stack i) p = RapidJsonDocument.accept (writtenAt stack i) p

variable (query : Query F) (enable_views : Bool) (cheaper : Stack F → DocIndex → Bool)

/-- **It is not seen that a document was unpacked**, at the pointers the aggregators read. -/
def Unseen (stack : Stack F) (ids : DocIndex) (i : ℕ) : Prop :=
  ∃ gets accepts, (∀ agg ∈ query.aggregators, ReadsThrough gets accepts agg) ∧
    if AsExec.useView query enable_views cheaper stack ids = true then ThroughView stack i accepts
    else ThroughCopy stack i gets accepts

/-- **A filtered container that both handle alike**: it is selected as a whole, or there is nothing to
materialise in it and it is not seen that its documents were unpacked. -/
def Meets (m : Memory F) : FilteredJSONContainer → Prop
  | .index c ids => NothingShared query.getAGGAttributes (stackOf m c) ∧
    ∀ i < size (stackOf m c), i ∈ ids → Unseen query enable_views cheaper (stackOf m c) ids i
  | _ => True

/-- The containers of a run, each in the memory that is there then. -/
def AllMeet : Memory F → List Input → Prop
  | _, [] => True
  | m, input :: inputs => Meets query enable_views cheaper m input.1 ∧
    AllMeet (FilterAggExec.handleOne query m input.1).1 inputs

variable {query} {enable_views} {cheaper}

omit [Double F] in
theorem documentAt_view {stack : Stack F} {i : ℕ} (hi : i < size stack) :
    (documentAt stack i).view = layersOf stack i := by
  rcases stack with _ | ⟨cont, below⟩
  · exact absurd hi (Nat.not_lt_zero i)
  · have hdoc : cont.docs[i]? = some cont.docs[i] := List.getElem?_eq_getElem hi
    simp only [documentAt, List.head?_cons, Option.bind_some, hdoc, Option.elim_some]

omit [Double F] in
theorem accept_of_view {doc : ViewedDocument F} (h : doc.view ≠ []) (p : Str) :
    RapidJsonDocument.accept doc p = (parsePointer p).elim .null (populate doc.view) := by
  show (parsePointer p).elim _ _ = _
  rw [List.isEmpty_eq_false_iff.mpr h]
  rfl

omit [Double F] in
theorem get_of_view {doc : ViewedDocument F} (h : doc.view ≠ []) (p : Str) :
    RapidJsonDocument.get doc p = (parsePointer p).bind (viewGet doc.view) := by
  show (parsePointer p).bind _ = _
  rw [List.isEmpty_eq_false_iff.mpr h]
  rfl

/-- Through the layer of the new view, the aggregators read the same. -/
theorem ThroughView.alike {stack : Stack F} {i : ℕ} {gets accepts : List Str}
    (h : ThroughView stack i accepts) (hi : i < size stack) {agg : IAggregator (ViewedDocument F) F}
    (hagg : ReadsThrough gets accepts agg) {doc : ViewedDocument F}
    (hdoc : doc.view = selecting :: layersOf stack i) : reads agg doc = reads agg (documentAt stack i) := by
  have hview : doc.view ≠ [] := by
    rw [hdoc]
    exact List.cons_ne_nil _ _
  have hview' : (documentAt stack i).view ≠ [] := by
    rw [documentAt_view hi]
    exact h.layers
  refine hagg _ _ (fun p _ => ?_) fun p hp => ?_
  · rw [get_of_view hview, get_of_view hview', hdoc, documentAt_view hi]
    rfl
  · rw [accept_of_view hview, accept_of_view hview', hdoc, documentAt_view hi]
    rcases hptr : parsePointer p with _ | ptr
    · rfl
    · obtain ⟨hroot, hshows⟩ := h.shows p hp ptr hptr
      exact populate_selecting h.layers hroot hshows

/-- Of a copy, the aggregators read the same. -/
theorem ThroughCopy.alike {stack : Stack F} {i : ℕ} {gets accepts : List Str}
    (h : ThroughCopy stack i gets accepts) {agg : IAggregator (ViewedDocument F) F}
    (hagg : ReadsThrough gets accepts agg) {doc : ViewedDocument F} (hjson : doc.json = getRaw stack i)
    (hdoc : doc.view = setViews (getRaw stack i) []) : reads agg doc = reads agg (documentAt stack i) := by
  have hwritten : reads agg doc = reads agg (writtenAt stack i) := by
    have hget : ∀ p, RapidJsonDocument.get doc p = RapidJsonDocument.get (writtenAt stack i) p := by
      intro p
      show (parsePointer p).bind _ = (parsePointer p).bind _
      rw [hjson, hdoc]
      rfl
    have haccept : ∀ p, RapidJsonDocument.accept doc p =
        RapidJsonDocument.accept (writtenAt stack i) p := by
      intro p
      show (parsePointer p).elim _ _ = (parsePointer p).elim _ _
      rw [hjson, hdoc]
      rfl
    exact hagg _ _ (fun p _ => hget p) fun p _ => haccept p
  rw [hwritten]
  by_cases hv : isView stack = true
  · exact (hagg _ _ (h.gets hv) (h.accepts hv)).symm
  · rcases stack with _ | ⟨cont, _ | ⟨base, below⟩⟩
    · exact hagg _ _ (fun _ _ => rfl) fun _ _ => rfl
    · rw [writtenAt_base]
    · exact absurd rfl hv

/-- **A selected document**: what it is unpacked to is read alike. -/
theorem Unseen.alike {stack : Stack F} {ids : DocIndex} {i : ℕ}
    (h : Unseen query enable_views cheaper stack ids i) (hi : i < size stack) (newID : ℕ → ℕ → ℕ) :
    ∃ doc, unpacked query enable_views cheaper newID stack ids i = some doc ∧
      ∀ agg ∈ query.aggregators, reads agg doc = reads agg (documentAt stack i) := by
  obtain ⟨gets, accepts, hreads, h⟩ := h
  unfold unpacked
  by_cases hview : AsExec.useView query enable_views cheaper stack ids = true
  · rw [if_pos hview] at h ⊢
    exact ⟨_, rfl, fun agg hagg => h.alike hi (hreads agg hagg) rfl⟩
  · rw [if_neg hview] at h ⊢
    rw [if_neg (by rw [h.notNull]; simp)]
    exact ⟨_, rfl, fun agg hagg => h.alike (hreads agg hagg) rfl rfl⟩

end Seen

/-! ### Runs -/

/-- The container of an input. -/
def containerOf : FilteredJSONContainer → Option ℕ
  | .default => none
  | .const c _ => some c
  | .index c _ => some c

theorem handleOne_memory {query : Query F} {m : Memory F} {input : FilteredJSONContainer}
    (h : ∀ c ∈ containerOf input, NothingShared query.getAGGAttributes (stackOf m c)) :
    (FilterAggExec.handleOne query m input).1 = m := by
  rcases input with _ | ⟨c, _ | _⟩ | ⟨c, ids⟩
  · rfl
  · rfl
  · exact materialize_of_nothing (h c rfl)
  · exact materialize_of_nothing (h c rfl)

/-- Where nothing is to be materialised in any container, the memory stays as it is. -/
theorem allMeet_of_nothing [Double F] {query : Query F} {enable_views : Bool}
    {cheaper : Stack F → DocIndex → Bool} {m : Memory F} : ∀ {inputs : List Input},
      (∀ input ∈ inputs, (∀ c ∈ containerOf input.1, NothingShared query.getAGGAttributes (stackOf m c)) ∧
        Meets query enable_views cheaper m input.1) → AllMeet query enable_views cheaper m inputs
  | [], _ => trivial
  | input :: inputs, h => by
    obtain ⟨⟨hnothing, hmeets⟩, hrest⟩ := List.forall_mem_cons.mp h
    refine ⟨hmeets, ?_⟩
    rw [handleOne_memory hnothing]
    exact allMeet_of_nothing hrest

section Runs

variable [Double F] {query : Query F} {enable_views : Bool} {cheaper : Stack F → DocIndex → Bool}
  (hq : validateOptimizationTarget query = true)
include hq

/-- **Step**: a filtered container leaves the same containers in memory, and the aggregators read the
same of it. -/
theorem handleOne_alike {m : Memory F} {input : Input}
    (h : Meets query enable_views cheaper m input.1) :
    (asAgg enable_views cheaper query m input).1 = (FilterAggExec.handleOne query m input.1).1 ∧
      ∀ agg ∈ query.aggregators, (asAgg enable_views cheaper query m input).2.map (reads agg) =
        (FilterAggExec.handleOne query m input.1).2.map (reads agg) := by
  obtain ⟨_ | ⟨c, b⟩ | ⟨c, ids⟩, newID⟩ := input
  · exact ⟨rfl, fun _ _ => rfl⟩
  · rw [asAgg_const hq]
    exact ⟨rfl, fun _ _ => rfl⟩
  · obtain ⟨hnothing, hunseen⟩ := h
    rw [asAgg_index hq, FilterAggExec.handleOne, materialize_of_nothing hnothing]
    refine ⟨rfl, fun agg hagg => ?_⟩
    rw [List.map_filterMap, List.map_map, ← List.filterMap_eq_map]
    refine List.filterMap_congr fun i hi => ?_
    obtain ⟨hi, hids⟩ := List.mem_filter.mp hi
    have hi : i < size (stackOf m c) := List.mem_range.mp hi
    obtain ⟨doc, hdoc, hreads⟩ := (hunseen i hi (by simpa using hids)).alike hi newID
    rw [hdoc, Option.map_some, hreads agg hagg]
    rfl

variable [AddCommMonoid F] [LinearOrder F] [Library F]

/-- **Run**: the aggregators have accumulated the same, and the containers in memory are the same. -/
theorem fused_run : ∀ {inputs : List Input} {m : Memory F},
    AllMeet query enable_views cheaper m inputs →
      ∀ start : IAggregator (ViewedDocument F) F → AggState F,
        filterAggPipeline query (m, query.aggregators.map fun agg => (agg, start agg)) inputs =
          asAggPipeline enable_views cheaper query
            (m, query.aggregators.map fun agg => (agg, start agg)) inputs := by
  intro inputs
  induction inputs with
  | nil => exact fun _ _ => rfl
  | cons input inputs ih =>
    intro m h start
    obtain ⟨hm, hreads⟩ := handleOne_alike hq h.1
    have hsame : accumulateAll (query.aggregators.map fun agg => (agg, start agg))
          (asAgg enable_views cheaper query m input).2 =
        accumulateAll (query.aggregators.map fun agg => (agg, start agg))
          (FilterAggExec.handleOne query m input.1).2 := by
      rw [accumulateAll_eq, accumulateAll_eq]
      refine List.map_congr_left fun agg hagg => ?_
      rw [foldl_congr_reads (hreads agg hagg)]
    rw [filterAggPipeline, asAggPipeline, List.foldl_cons, List.foldl_cons]
    simp only [hm, hsame, accumulateAll_eq]
    exact ih h.2 _

end Runs

/-! ### Two containers -/

/-- `AGG ('/n':COUNT()), ('/b':COLLECT('/B')), ('/s':ATTSTAT('/B'))`, and no `AS`. -/
def aggregatingB : Query ℚ where
  projectors := []
  setProjectors := []
  projection := ⟨fun _ => [], fun _ => [], []⟩
  aggregators := [.basic .count (ascii "/n") [], .basic .collect (ascii "/b") [.pointer (ascii "/B")],
    .basic .attStat (ascii "/s") [.pointer (ascii "/B")]]

/-- `{"A":{"x":true},"B":true}` and `{}`, and a view of them that changes `/A/x` to `false` in the first. -/
def twoContainers : Memory ℚ :=
  [(⟨[⟨1, .temporary, .object [(ascii "A", .object [(ascii "x", .bool true)]), (ascii "B", .bool true)]⟩,
      ⟨2, .temporary, .object []⟩], [], []⟩, none),
    (⟨[⟨3, .temporary, .object [(ascii "A", .object [(ascii "x", .bool false)])]⟩,
      ⟨4, .temporary, .null⟩], [0, 1], [[ascii "A", ascii "x"]]⟩, some 0)]

/-- A document of the view, the base container as a whole, and one of its documents. -/
def threeSelections : List Input :=
  [(.index 1 {0}, fun _ _ => 5), (.const 0 true, fun _ _ => 6), (.index 0 {1}, fun _ _ => 7)]

theorem getAGGAttributes_aggregatingB : aggregatingB.getAGGAttributes = [[ascii "B"]] := by
  simp [Query.getAGGAttributes, AggregatedDocuments.getAGGAttributes, sortUnique, aggregatingB,
    IAggregator.getAttributes, IValueProvider.attributesOf, IValueProvider.getAttributes]
  rfl

theorem readsThrough_aggregatingB : ∀ agg ∈ aggregatingB.aggregators,
    ReadsThrough [ascii "/B"] [ascii "/B"] agg := by
  intro agg hagg doc doc' hgets haccepts
  have hget := hgets _ (List.mem_singleton_self _)
  have haccept := haccepts _ (List.mem_singleton_self _)
  rcases List.mem_cons.mp hagg with rfl | hagg
  · rfl
  rcases List.mem_cons.mp hagg with rfl | hagg
  · exact congrArg (fun v => [v]) hget
  · obtain rfl := List.mem_singleton.mp hagg
    exact congrArg (fun v => [some v]) haccept

/-- Through the layer of a new view, nothing changes at `/B`. -/
theorem unseen_aggregatingB {stack : Stack ℚ} {ids : DocIndex} {i : ℕ}
    (hview : AsExec.useView aggregatingB true (fun _ _ => false) stack ids = true)
    (hlayers : layersOf stack i ≠ [])
    (hstarts : anyStartsWith (layersOf stack i) (ascii "/B") = false) :
    Unseen aggregatingB true (fun _ _ => false) stack ids i := by
  refine ⟨[ascii "/B"], [ascii "/B"], readsThrough_aggregatingB, ?_⟩
  rw [if_pos hview]
  refine ⟨hlayers, fun p hp ptr hptr => ?_⟩
  obtain rfl := List.mem_singleton.mp hp
  obtain rfl : [ascii "B"] = ptr := Option.some.inj hptr
  exact ⟨fun h => absurd h (by simp), showsObjects_of_not_starts hstarts⟩

/-- `AGG ('/n':COUNT(''))`, and no `AS`. -/
def countingRoot : Query ℚ :=
  { aggregatingB with aggregators := [.basic .count (ascii "/n") [.pointer []]] }

/-- `5` and `{}` -/
def numberAndObject : Memory ℚ :=
  [(⟨[⟨1, .temporary, .number (.int 5)⟩, ⟨2, .temporary, .object []⟩], [], []⟩, none)]

end Joda.Aggregation.FilterAggRuns
