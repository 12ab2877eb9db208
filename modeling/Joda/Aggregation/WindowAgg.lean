import Joda.Aggregation.Merger
import Joda.Pipeline.Emissions

/-! # Tumbling windows

`WindowAgg` counts the documents that its aggregators have taken; when the window is full it sends the
result, from within the iteration over a container, and starts over with new aggregators. The state
after some documents is the one of the documents since the last full window, whichever containers they
came in, and what was sent are the results of the full windows (`Windowed`).

The documents of a view are taken after its attributes were materialised; the results are those of the
documents as they are written out where the views are read as they are written out. -/

namespace Joda.Aggregation.WindowAgg

open Joda.Lib.Runs Joda.Values.Value Joda.Values.Pointer Joda.Values.Provider
open Joda.Storage.ViewStack
open Joda.Storage.ViewedDocuments
open Joda.Aggregation.Aggregator Joda.Aggregation.AggregatedDocuments Joda.Aggregation.Merger
open Joda.Pipeline.Executor Joda.Pipeline.Emissions

/-! ### Windows of a list -/

section Windows
variable {α : Type*}

/-- The consecutive windows of `w` elements. -/
def windows (w : ℕ) (l : List α) : List (List α) :=
  (List.range (l.length / w)).map fun i => (l.drop (i * w)).take w

/-- What remains after the full windows. -/
def remaining (w : ℕ) (l : List α) : List α := l.drop (l.length / w * w)

theorem length_remaining (w : ℕ) (l : List α) : (remaining w l).length = l.length % w := by
  have h := Nat.div_add_mod l.length w
  rw [Nat.mul_comm] at h
  rw [remaining, List.length_drop]
  omega

theorem windows_concat (w : ℕ) (l : List α) (d : α) :
    (List.range (l.length / w)).map (fun i => ((l ++ [d]).drop (i * w)).take w) = windows w l := by
  refine List.map_congr_left fun i hi => ?_
  have hle : (i + 1) * w ≤ l.length :=
    (Nat.mul_le_mul_right w (List.mem_range.mp hi)).trans (Nat.div_mul_le_self _ _)
  rw [Nat.add_mul, Nat.one_mul] at hle
  rw [List.drop_append_of_le_length (by omega), List.take_append_of_le_length]
  rw [List.length_drop]
  omega

/-- **One more element**, and the window is not full yet. -/
theorem windows_of_lt {w : ℕ} {l : List α} (d : α) (h : l.length % w + 1 < w) :
    windows w (l ++ [d]) = windows w l ∧ remaining w (l ++ [d]) = remaining w l ++ [d] := by
  have hdiv : (l ++ [d]).length / w = l.length / w := by
    rw [List.length_append, List.length_singleton, Nat.div_eq_iff (by omega)]
    have := Nat.div_add_mod l.length w
    rw [Nat.mul_comm] at this
    omega
  constructor
  · rw [windows, hdiv, windows_concat]
  · rw [remaining, hdiv, List.drop_append_of_le_length (Nat.div_mul_le_self _ _), remaining]

/-- **One more element**, and the window is full. -/
theorem windows_of_le {w : ℕ} {l : List α} (d : α) (hw : 1 ≤ w) (h : w ≤ l.length % w + 1) :
    windows w (l ++ [d]) = windows w l ++ [remaining w l ++ [d]] ∧ remaining w (l ++ [d]) = [] := by
  have hmod := Nat.mod_lt l.length hw
  have hlen := Nat.div_add_mod l.length w
  rw [Nat.mul_comm] at hlen
  have hsucc : (l.length / w + 1) * w = l.length + 1 := by
    rw [Nat.add_mul, Nat.one_mul]
    omega
  have hdiv : (l ++ [d]).length / w = l.length / w + 1 := by
    rw [List.length_append, List.length_singleton, ← hsucc, Nat.mul_div_cancel _ hw]
  constructor
  · rw [windows, hdiv, List.range_succ, List.map_append, windows_concat, List.map_singleton, remaining,
      List.drop_append_of_le_length (Nat.div_mul_le_self _ _), List.take_of_length_le]
    rw [List.length_append, List.length_drop, List.length_singleton]
    omega
  · rw [remaining, hdiv, hsucc]
    exact List.drop_eq_nil_of_le (by simp)

end Windows

/-! ### The task -/

variable {D F : Type} [Double F] [RapidJsonDocument D F] [AddCommMonoid F] [LinearOrder F] [Library F]

/-- The state of `WindowAggExec`. -/
structure WindowAggExec (D F : Type) where
  aggregated : ℕ
  currentAggregators : List (Partial D F)

/-- The document of a result container; there is none where a destination is no pointer. -/
abbrev ResultDocument (F : Type) := Option (RJValue F)

namespace WindowAggExec

def cloneAggregators (originalAggregators : List (IAggregator D F)) : List (Partial D F) :=
  originalAggregators.map fun agg => (agg, init agg)

/-- A new task. -/
def new (originalAggregators : List (IAggregator D F)) : WindowAggExec D F :=
  ⟨0, cloneAggregators originalAggregators⟩

/-- The document `finalizeCurrentAggregators` builds; then the task is as new. -/
def finalizeCurrentAggregators (exec : WindowAggExec D F) : ResultDocument F :=
  document (exec.currentAggregators.map fun a => destined a.1 (terminate a.1 a.2))

/-- **One document**: the state and what is sent. -/
def take (windowSize : ℕ) (originalAggregators : List (IAggregator D F)) (exec : WindowAggExec D F)
    (d : D) : WindowAggExec D F × List (ResultDocument F) :=
  let accumulated : WindowAggExec D F :=
    ⟨exec.aggregated + 1, exec.currentAggregators.map fun j => (j.1, accumulate j.1 d j.2)⟩
  if windowSize ≤ accumulated.aggregated then
    (new originalAggregators, [accumulated.finalizeCurrentAggregators])
  else (accumulated, [])

/-- The documents one after the other. -/
def takeAll (windowSize : ℕ) (originalAggregators : List (IAggregator D F)) :
    WindowAggExec D F → List D → WindowAggExec D F × List (ResultDocument F)
  | exec, [] => (exec, [])
  | exec, d :: docs =>
    let taken := take windowSize originalAggregators exec d
    let rest := takeAll windowSize originalAggregators taken.1 docs
    (rest.1, taken.2 ++ rest.2)

end WindowAggExec

/-- **`WindowAggExec`**: each container is taken, a view after its attributes were materialised, and
every result is sent before the iteration goes on. -/
def windowAgg (windowSize : ℕ) (originalAggregators : List (IAggregator (ViewedDocument F) F)) :
    Calc (WindowAggExec (ViewedDocument F) F) (Stack F) (ResultDocument F) where
  fillBuffer exec cont :=
    let taken := exec.takeAll windowSize originalAggregators (taken originalAggregators cont)
    { state := taken.1
      ibuff := none
      sent := taken.2
      left := none }
  finalize exec := ([], if 0 < exec.aggregated then some exec.finalizeCurrentAggregators else none)

/-! ### Windows -/

/-- New aggregators take the documents and are ended. -/
def aggregate (aggs : List (IAggregator D F)) (docs : List D) : ResultDocument F :=
  document (aggs.map fun agg => destined agg (terminate agg (run agg docs)))

/-- **The results**: one for each full window, and one for the documents that remain. -/
def results (w : ℕ) (aggs : List (IAggregator D F)) (docs : List D) : List (ResultDocument F) :=
  (windows w docs).map (aggregate aggs) ++
    if docs.length % w = 0 then [] else [aggregate aggs (remaining w docs)]

/-- **The invariant**: the aggregators have taken what remains after the full windows. -/
structure Windowed (w : ℕ) (aggs : List (IAggregator D F)) (docs : List D) (exec : WindowAggExec D F) :
    Prop where
  aggregated : exec.aggregated = docs.length % w
  current : exec.currentAggregators = aggs.map fun agg => (agg, run agg (remaining w docs))

theorem windowed_new (w : ℕ) (aggs : List (IAggregator D F)) :
    Windowed w aggs [] (WindowAggExec.new aggs) := by
  refine ⟨(Nat.zero_mod w).symm, ?_⟩
  simp [WindowAggExec.new, WindowAggExec.cloneAggregators, remaining, run]

theorem Windowed.finalize {w : ℕ} {aggs : List (IAggregator D F)} {docs : List D}
    {exec : WindowAggExec D F} (h : Windowed w aggs docs exec) :
    exec.finalizeCurrentAggregators = aggregate aggs (remaining w docs) := by
  rw [WindowAggExec.finalizeCurrentAggregators, h.current, List.map_map]
  rfl

/-- The aggregators take one more document. -/
theorem accumulated (aggs : List (IAggregator D F)) (docs : List D) (d : D) :
    (aggs.map fun agg => (agg, run agg docs)).map (fun j => (j.1, accumulate j.1 d j.2)) =
      aggs.map fun agg => (agg, run agg (docs ++ [d])) := by
  rw [List.map_map]
  refine List.map_congr_left fun agg _ => ?_
  simp [run]

/-- **Step**: a document fills the window, and its result is sent, or does not. -/
theorem Windowed.take {w : ℕ} (hw : 1 ≤ w) {aggs : List (IAggregator D F)} {docs : List D}
    {exec : WindowAggExec D F} (h : Windowed w aggs docs exec) (d : D) :
    Windowed w aggs (docs ++ [d]) (exec.take w aggs d).1 ∧
      (windows w (docs ++ [d])).map (aggregate aggs) =
        (windows w docs).map (aggregate aggs) ++ (exec.take w aggs d).2 := by
  have hmod := Nat.mod_lt docs.length hw
  unfold WindowAggExec.take
  simp only [h.aggregated, h.current, accumulated]
  by_cases hfull : w ≤ docs.length % w + 1
  · obtain ⟨hwindows, hremaining⟩ := windows_of_le d hw hfull
    have hzero : (docs ++ [d]).length % w = 0 := by
      rw [← length_remaining, hremaining, List.length_nil]
    rw [if_pos hfull, hwindows, List.map_append, List.map_singleton]
    refine ⟨⟨hzero.symm, ?_⟩, ?_⟩
    · rw [hremaining]
      rfl
    · rw [WindowAggExec.finalizeCurrentAggregators, List.map_map]
      rfl
  · have hlt : docs.length % w + 1 < w := by omega
    obtain ⟨hwindows, hremaining⟩ := windows_of_lt d hlt
    rw [if_neg hfull, hwindows, List.append_nil]
    refine ⟨⟨?_, ?_⟩, rfl⟩
    · have hlen := length_remaining w (docs ++ [d])
      rw [hremaining, List.length_append, List.length_singleton, length_remaining] at hlen
      exact hlen
    · rw [hremaining]

/-- **Run**: the documents of a container. -/
theorem Windowed.takeAll {w : ℕ} (hw : 1 ≤ w) {aggs : List (IAggregator D F)} :
    ∀ (more : List D) {docs : List D} {exec : WindowAggExec D F}, Windowed w aggs docs exec →
      Windowed w aggs (docs ++ more) (exec.takeAll w aggs more).1 ∧
        (windows w (docs ++ more)).map (aggregate aggs) =
          (windows w docs).map (aggregate aggs) ++ (exec.takeAll w aggs more).2
  | [], docs, exec, h => by
    rw [List.append_nil]
    exact ⟨h, (List.append_nil _).symm⟩
  | d :: more, docs, exec, h => by
    obtain ⟨hone, hsent⟩ := h.take hw d
    obtain ⟨hrest, hrest'⟩ := Windowed.takeAll hw more hone
    rw [List.append_assoc, List.singleton_append] at hrest hrest'
    refine ⟨hrest, ?_⟩
    rw [hrest', hsent, List.append_assoc]
    rfl

/-! ### Containers -/

theorem aggregate_congr {aggs : List (IAggregator D F)} {docs docs' : List D}
    (h : ∀ agg ∈ aggs, docs.map (reads agg) = docs'.map (reads agg)) :
    aggregate aggs docs = aggregate aggs docs' := by
  unfold aggregate
  refine congrArg document (List.map_congr_left fun agg hagg => ?_)
  rw [run_congr (h agg hagg)]

/-- **The results are a matter of what is read**, and of the number of documents. -/
theorem results_congr {w : ℕ} {aggs : List (IAggregator D F)} {docs docs' : List D}
    (hlen : docs.length = docs'.length)
    (h : ∀ agg ∈ aggs, docs.map (reads agg) = docs'.map (reads agg)) :
    results w aggs docs = results w aggs docs' := by
  have hwindows : (windows w docs).map (aggregate aggs) = (windows w docs').map (aggregate aggs) := by
    rw [windows, windows, hlen, List.map_map, List.map_map]
    refine List.map_congr_left fun i _ => aggregate_congr fun agg hagg => ?_
    rw [List.map_take, List.map_take, List.map_drop, List.map_drop, h agg hagg]
  have hremaining : aggregate aggs (remaining w docs) = aggregate aggs (remaining w docs') := by
    refine aggregate_congr fun agg hagg => ?_
    rw [remaining, remaining, hlen, List.map_drop, List.map_drop, h agg hagg]
  rw [results, results, hwindows, hremaining, hlen]

theorem windowAgg_consuming (windowSize : ℕ)
    (originalAggregators : List (IAggregator (ViewedDocument F) F)) :
    Consuming (windowAgg windowSize originalAggregators) :=
  ⟨fun _ _ => rfl, fun _ => rfl⟩

/-- The containers one after the other. -/
theorem Windowed.outputs {w : ℕ} (hw : 1 ≤ w) {aggs : List (IAggregator (ViewedDocument F) F)} :
    ∀ (conts : List (Stack F)) {docs : List (ViewedDocument F)}
      {exec : WindowAggExec (ViewedDocument F) F}, Windowed w aggs docs exec →
      Windowed w aggs (docs ++ conts.flatMap (taken aggs)) (after (windowAgg w aggs) exec conts) ∧
        (windows w (docs ++ conts.flatMap (taken aggs))).map (aggregate aggs) =
          (windows w docs).map (aggregate aggs) ++ outputs (windowAgg w aggs) exec conts
  | [], docs, exec, h => by
    rw [List.flatMap_nil, List.append_nil]
    exact ⟨h, (List.append_nil _).symm⟩
  | cont :: conts, docs, exec, h => by
    obtain ⟨hone, hsent⟩ := h.takeAll hw (taken aggs cont)
    obtain ⟨hrest, hrest'⟩ := Windowed.outputs hw conts hone
    rw [List.append_assoc] at hrest hrest'
    rw [List.flatMap_cons]
    refine ⟨hrest, ?_⟩
    rw [hrest', hsent, List.append_assoc]
    show _ = _ ++ (_ ++ [] ++ _)
    rw [List.append_nil]
    rfl

/-- What the task emits for the containers. -/
theorem emissions_windowAgg {w : ℕ} (hw : 1 ≤ w) (aggs : List (IAggregator (ViewedDocument F) F))
    (conts : List (Stack F)) :
    emissions (windowAgg w aggs) (WindowAggExec.new aggs) conts =
      results w aggs (conts.flatMap (taken aggs)) := by
  obtain ⟨hafter, hsent⟩ := (windowed_new w aggs).outputs hw conts
  rw [List.nil_append] at hafter hsent
  have hnone : (windows w ([] : List (ViewedDocument F))).map (aggregate aggs) = [] := by
    simp [windows]
  rw [hnone, List.nil_append] at hsent
  unfold emissions results
  rw [← hsent, (windowAgg_consuming w aggs).ends, List.append_nil]
  congr 1
  show Option.toList (if 0 < _ then some _ else none) = _
  rw [hafter.aggregated, hafter.finalize]
  by_cases hzero : (conts.flatMap (taken aggs)).length % w = 0
  · rw [if_neg (by omega), if_pos hzero, Option.toList_none]
  · rw [if_pos (by omega), if_neg hzero, Option.toList_some]

/-- The results of what is taken are those of the documents as they are written out. -/
theorem results_taken {w : ℕ} {aggs : List (IAggregator (ViewedDocument F) F)} {conts : List (Stack F)}
    (h : ∀ cont ∈ conts, ReadsAsWritten aggs cont) :
    results w aggs (conts.flatMap (taken aggs)) = results w aggs (conts.flatMap writtenOut) := by
  refine results_congr ?_ fun agg hagg => ?_
  · rw [List.length_flatMap, List.length_flatMap]
    exact congrArg List.sum (List.map_congr_left fun cont _ => length_taken cont)
  · rw [List.map_flatMap, List.map_flatMap]
    exact List.flatMap_congr fun cont hcont => map_reads (h cont hcont) hagg

/-- `{"A":{"x":1,"y":2},"AC":5}` in a view that changes `/A/x` to 3. -/
def besideView : Stack ℚ :=
  [⟨[⟨2, .temporary, .object [(ascii "A", .object [(ascii "x", .number (.int 3))])]⟩], [0],
      [[ascii "A", ascii "x"]]⟩,
    ⟨[⟨1, .temporary, .object [(ascii "A", .object [(ascii "x", .number (.int 1)),
      (ascii "y", .number (.int 2))]), (ascii "AC", .number (.int 5))]⟩], [], []⟩]

/-- `SUM` of a pointer at a destination. -/
def sumAt (toPointer ptrStr : String) : IAggregator (ViewedDocument ℚ) ℚ :=
  .basic (.number .sum) (ascii toPointer) [.pointer (ascii ptrStr)]

end Joda.Aggregation.WindowAgg
