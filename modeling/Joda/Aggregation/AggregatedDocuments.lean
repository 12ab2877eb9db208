import Joda.Aggregation.Aggregator
import Joda.Storage.ViewedDocuments

/-! # The documents of an aggregation

The aggregations take the documents of a container through their views, after the attributes of the
aggregators were materialised. An aggregator sees no more of a document than it reads (`reads`), and
`ReadsAsWritten` says that the aggregators read the same of the documents as they are written out. The
documents of a container that stands on no other always meet it. -/

namespace Joda.Aggregation.AggregatedDocuments

open Joda.Values.Value Joda.Values.Pointer Joda.Values.PointerSet Joda.Values.Provider
open Joda.Storage.ViewStack
open Joda.Storage.ViewedDocuments
open Joda.Aggregation.Aggregator

/-! ### What an aggregator reads -/

section Reads

variable {D F : Type} [RapidJsonDocument D F] [Double F]

/-- What an aggregator reads of a document: the values of its parameters, those of groups included, or
what is sent to the handler of `ATTSTAT`. -/
def reads : IAggregator D F → D → List (Option (RJValue F))
  | .basic .attStat _ params, json => [accepted params json]
  | .basic _ _ params, json => params.map fun p => valueOf p json
  | .group _ groupBy protoAgg _, json => valueOf groupBy json :: reads protoAgg json

variable [AddCommMonoid F] [LinearOrder F] [Library F]

/-- **An aggregator sees no more of a document** than that. -/
theorem accumulate_congr {doc doc' : D} : ∀ (agg : IAggregator D F) (s : AggState F),
    reads agg doc = reads agg doc' → accumulate agg doc s = accumulate agg doc' s
  | .basic c _ params, .basic s, h => by
    rw [accumulate, accumulate]
    refine congrArg AggState.basic ?_
    by_cases hc : c = .attStat
    · subst hc
      obtain ⟨haccepted, -⟩ := List.cons.inj h
      cases s <;> simp only [accumulateBasic, haccepted]
    · have hparam : ∀ i, param params i doc = param params i doc' := by
        have hvalues : params.map (fun p => valueOf p doc) = params.map fun p => valueOf p doc' := by
          cases c with
          | attStat => exact absurd rfl hc
          | _ => exact h
        intro i
        have hi := congrArg (fun l => l[i]?) hvalues
        simp only [List.getElem?_map] at hi
        unfold param
        rcases hp : params[i]? with _ | p
        · rfl
        · rw [hp] at hi
          exact Option.some.inj hi
      have hcounts : counts params doc = counts params doc' := by rw [counts, counts, hparam]
      cases c with
      | attStat => exact absurd rfl hc
      | _ =>
        cases s <;> simp only [accumulateBasic, hcounts, numbersOf, collected, stringsOf,
          distinctNumbers, isThe, bucketOf, hparam]
  | .group _ groupBy protoAgg _, .group groups, h => by
    obtain ⟨hby, hproto⟩ := List.cons.inj h
    have hgroup : groupOf groupBy doc = groupOf groupBy doc' := by rw [groupOf, groupOf, hby]
    have hacc : ∀ s, accumulate protoAgg doc s = accumulate protoAgg doc' s :=
      fun s => accumulate_congr protoAgg s hproto
    rw [accumulate, accumulate, hgroup]
    simp only [hacc]
  | .basic .., .group _, _ => rfl
  | .group .., .basic _, _ => rfl

theorem foldl_congr_reads {agg : IAggregator D F} : ∀ {docs docs' : List D},
    docs.map (reads agg) = docs'.map (reads agg) → ∀ s,
      docs.foldl (fun s json => accumulate agg json s) s =
        docs'.foldl (fun s json => accumulate agg json s) s
  | [], [], _, _ => rfl
  | [], _ :: _, h, _ => by cases h
  | _ :: _, [], h, _ => by cases h
  | doc :: docs, doc' :: docs', h, s => by
    obtain ⟨hdoc, hdocs⟩ := List.cons.inj h
    rw [List.foldl_cons, List.foldl_cons, accumulate_congr agg s hdoc]
    exact foldl_congr_reads hdocs _

/-- **A run is a matter of what is read.** -/
theorem run_congr {agg : IAggregator D F} {docs docs' : List D}
    (h : docs.map (reads agg) = docs'.map (reads agg)) : run agg docs = run agg docs' :=
  foldl_congr_reads h _

end Reads

variable {F : Type}

/-! ### What the aggregators take -/

def sortUnique (atts : List Str) : List RJPointer :=
  ((atts.mergeSort fun a b => decide (a ≤ b)).dedup).filterMap parsePointer

section Taken

variable [Double F] (aggs : List (IAggregator (ViewedDocument F) F))

/-- `Query::getAGGAttributes` -/
def getAGGAttributes : List RJPointer := sortUnique (aggs.flatMap IAggregator.getAttributes)

/-- A container with the attributes of the aggregators materialised, if it is a view. -/
def materialised (stack : Stack F) : Stack F :=
  if isView stack then materializeAttributesIfRequired (getAGGAttributes aggs) stack else stack

/-- The documents that are given to the aggregators. -/
def taken (stack : Stack F) : List (ViewedDocument F) := documents (materialised aggs stack)

/-- **The aggregators read of each document**, after materialising, what they read of it as it is written
out. -/
def ReadsAsWritten (stack : Stack F) : Prop :=
  ∀ agg ∈ aggs, ∀ i < size stack,
    reads agg (documentAt (materialised aggs stack) i) = reads agg (writtenAt stack i)

variable {aggs}

omit [Double F] in
theorem size_materialised (stack : Stack F) : size (materialised aggs stack) = size stack := by
  unfold materialised
  split_ifs with h
  · refine size_eq (materializeAttributesIfRequired_headers _ _)
      (materializeAttributesIfRequired_ne_nil ?_)
    rintro rfl
    cases h
  · rfl

omit [Double F] in
theorem length_taken (stack : Stack F) : (taken aggs stack).length = (writtenOut stack).length := by
  rw [taken, documents, writtenOut, List.length_map, List.length_map, size_materialised]

theorem map_reads {stack : Stack F} (h : ReadsAsWritten aggs stack)
    {agg : IAggregator (ViewedDocument F) F} (hagg : agg ∈ aggs) :
    (taken aggs stack).map (reads agg) = (writtenOut stack).map (reads agg) := by
  rw [taken, documents, writtenOut, List.map_map, List.map_map, size_materialised]
  exact List.map_congr_left fun i hi => h agg hagg i (List.mem_range.mp hi)

/-- The documents of a base container are read as they are. -/
theorem readsAsWritten_base (cont : Container F) : ReadsAsWritten aggs [cont] := by
  intro agg _ i _
  rw [writtenAt_base]
  rfl

end Taken

end Joda.Aggregation.AggregatedDocuments
