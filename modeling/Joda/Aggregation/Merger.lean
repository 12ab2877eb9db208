import Joda.Aggregation.Accumulation
import Joda.Aggregation.AggregatedDocuments
import Joda.Lib.Fuel

/-! # Merging partial results

Every `AggPipeline` accumulates the documents of its containers, which are materialised for the
aggregators if they are views, with its own duplicates of the aggregators and sends them at the end.
`AggMerger` keeps one aggregator for each text and merges those that arrive with the same text into it;
in the end the results are set at their destinations, in the order of the table, which is no particular
one. The result is the one of a single run over the documents as they are written out where no two
aggregators of the list have the same text, the destinations part and the views are read as they are
written out. -/

namespace Joda.Aggregation.Merger

open Joda.Lib.Fuel Joda.Lib.Table
open Joda.Values.Value Joda.Values.Provider Joda.Values.Pointer Joda.Values.PointerSet
open Joda.Storage.ViewStack
open Joda.Storage.ViewedDocuments
open Joda.Aggregation.Aggregator Joda.Aggregation.Accumulation
open Joda.Aggregation.AggregatedDocuments

variable {D F : Type} [Double F] [RapidJsonDocument D F] [AddCommMonoid F] [LinearOrder F] [Library F]

/-! ### The tasks -/

/-- An aggregator at work. -/
abbrev Partial (D F : Type) := IAggregator D F × AggState F

/-- Every document is given to every aggregator. -/
def accumulateAll (aggregators : List (Partial D F)) (docs : List D) : List (Partial D F) :=
  docs.foldl (fun aggregators json => aggregators.map fun j => (j.1, accumulate j.1 json j.2))
    aggregators

/-- **`AggPipeline`**: `handleOne` takes the documents of a container, of a view after its attributes
were materialised. -/
def aggPipeline (aggs : List (IAggregator (ViewedDocument F) F)) (conts : List (Stack F)) :
    List (Partial (ViewedDocument F) F) :=
  conts.foldl (fun aggregators cont => accumulateAll aggregators (taken aggs cont))
    (aggs.map fun agg => (agg, init agg))

/-- The aggregators of the merger, by their texts. -/
abbrev AggMap (D F : Type) := List (Str × Partial D F)

/-- **`AggMerger::fillBuffer`** -/
def fillBuffer (agg : Partial D F) (aggregators : AggMap D F) : Option (AggMap D F) :=
  atKeyM Prod.fst agg.1.toString (agg.1.toString, agg)
    (fun it => (merge it.2.1 agg.1 it.2.2 agg.2).map fun s => (it.1, (it.2.1, s))) aggregators

def fillAll (arrived : List (Partial D F)) (aggregators : AggMap D F) : Option (AggMap D F) :=
  arrived.foldlM (fun aggregators agg => fillBuffer agg aggregators) aggregators

/-- The result and its destination, if that is a pointer. -/
def destined (agg : IAggregator D F) (val : RJValue F) : Option (RJPointer × RJValue F) :=
  (parsePointer agg.getDestPointer).map fun p => (p, val)

/-- The values are set in an empty object. -/
def document (vals : List (Option (RJPointer × RJValue F))) : Option (RJValue F) :=
  (vals.mapM id).map fun l => setAll l (.object [])

/-- **`AggMerger::finalize`**, for an order of the table. -/
def finalize (aggregators : AggMap D F) : Option (RJValue F) :=
  document (aggregators.map fun a => destined a.2.1 (terminate a.2.1 a.2.2))

/-! ### The document of one sequential aggregation -/

/-- Each aggregator accumulates all documents, and the results are set in the order of the list: the
document is that one, up to the order of what was collected. -/
def SameDocument (aggs : List (IAggregator D F)) (docs : List D) (doc : Option (RJValue F)) : Prop :=
  ∃ vals : List (RJValue F),
    List.Forall₂ (fun agg val => SameResult agg (terminate agg (run agg docs)) val) aggs vals ∧
      Alike doc (document (List.zipWith destined aggs vals))

/-- What arrives: each aggregator of each instance, in some order. -/
def Arrives (aggs : List (IAggregator (ViewedDocument F) F)) (parts : List (List (Stack F)))
    (arrived : List (Partial (ViewedDocument F) F)) : Prop :=
  arrived.Perm (parts.flatMap (aggPipeline aggs))

/-- **The merger does as one run**: every aggregator of the list keeps its own entry, and whatever the
order of the table, the document is the one of a single run. -/
def MergedRight (aggs : List (IAggregator D F)) (docs : List D) (arrived : List (Partial D F)) : Prop :=
  ∃ aggregators, fillAll arrived [] = some aggregators ∧ aggregators.length = aggs.length ∧
    ∀ order, order.Perm aggregators → SameDocument aggs docs (finalize order)

/-- No two aggregators of the list have the same text. -/
def TextsDiffer (aggs : List (IAggregator D F)) : Prop := (aggs.map IAggregator.toString).Nodup

/-- The destinations part. -/
def DestinationsPart (aggs : List (IAggregator D F)) : Prop :=
  aggs.Pairwise fun a b => ∀ p q, parsePointer a.getDestPointer = some p →
    parsePointer b.getDestPointer = some q → Parts p q

/-- The aggregators of the instances, each with the documents it has taken. -/
def Accumulated (aggs : List (IAggregator D F)) (parts : List (List D)) (arrived : List (Partial D F)) :
    Prop :=
  arrived.Perm (parts.flatMap fun docs => aggs.map fun agg => (agg, run agg docs))

theorem accumulateAll_eq (aggs : List (IAggregator D F)) (docs : List D) :
    ∀ start : IAggregator D F → AggState F,
      accumulateAll (aggs.map fun agg => (agg, start agg)) docs =
        aggs.map fun agg => (agg, docs.foldl (fun s json => accumulate agg json s) (start agg)) := by
  unfold accumulateAll
  induction docs with
  | nil => exact fun _ => rfl
  | cons json docs ih =>
    intro start
    rw [List.foldl_cons, List.map_map]
    exact ih fun agg => accumulate agg json (start agg)

/-- **The aggregators of an instance** have run over what it has taken. -/
theorem aggPipeline_eq (aggs : List (IAggregator (ViewedDocument F) F)) (conts : List (Stack F)) :
    aggPipeline aggs conts = aggs.map fun agg => (agg, run agg (conts.flatMap (taken aggs))) := by
  have hfold : ∀ start : IAggregator (ViewedDocument F) F → AggState F,
      conts.foldl (fun aggregators cont => accumulateAll aggregators (taken aggs cont))
          (aggs.map fun agg => (agg, start agg)) =
        aggs.map fun agg => (agg, (conts.flatMap (taken aggs)).foldl
          (fun s json => accumulate agg json s) (start agg)) := by
    induction conts with
    | nil => exact fun _ => rfl
    | cons cont conts ih =>
      intro start
      rw [List.foldl_cons, accumulateAll_eq, List.flatMap_cons]
      simp only [List.foldl_append]
      exact ih fun agg => (taken aggs cont).foldl (fun s json => accumulate agg json s) (start agg)
  exact hfold init

theorem Arrives.accumulated {aggs : List (IAggregator (ViewedDocument F) F)}
    {parts : List (List (Stack F))} {arrived : List (Partial (ViewedDocument F) F)}
    (h : Arrives aggs parts arrived) :
    Accumulated aggs (parts.map fun conts => conts.flatMap (taken aggs)) arrived := by
  unfold Accumulated
  rw [List.flatMap_map]
  unfold Arrives at h
  rwa [List.flatMap_congr fun conts _ => aggPipeline_eq aggs conts] at h

/-! ### The table of the merger -/

/-- An entry of the table, with the instances whose aggregators were merged into it. -/
def EntryHolds (aggs : List (IAggregator D F)) (e : Str × Partial D F) (parts : Multiset (List D)) :
    Prop :=
  e.2.1 ∈ aggs ∧ e.2.1.toString = e.1 ∧ Holds e.2.1 (parts.bind fun part => (part : Multiset D)) e.2.2

/-- The instances whose aggregators with a text are in the list. -/
def instances (tagged : List (IAggregator D F × List D)) (text : Str) : Multiset (List D) :=
  ((tagged.filter fun t => t.1.toString = text).map Prod.snd : List (List D))

omit [RapidJsonDocument D F] [AddCommMonoid F] [LinearOrder F] [Library F] in
theorem eq_of_text {aggs : List (IAggregator D F)} (h : TextsDiffer aggs) {a b : IAggregator D F}
    (ha : a ∈ aggs) (hb : b ∈ aggs) (htext : a.toString = b.toString) : a = b :=
  List.inj_on_of_nodup_map h ha hb htext

/-- **Step**: what arrives is in the entry of its text. -/
theorem tabled_fillBuffer {aggs : List (IAggregator D F)} (h : TextsDiffer aggs)
    {agg : IAggregator D F} (hagg : agg ∈ aggs) (part : List D) {aggregators : AggMap D F}
    {m : Str → Multiset (List D)} (htab : Tabled Prod.fst (EntryHolds aggs) aggregators m) :
    ∃ r, fillBuffer (agg, run agg part) aggregators = some r ∧ Tabled Prod.fst (EntryHolds aggs) r
      (Function.update m agg.toString (m agg.toString + {part})) := by
  have hnew : EntryHolds aggs (agg.toString, (agg, run agg part)) {part} := by
    refine ⟨hagg, rfl, ?_⟩
    rw [Multiset.singleton_bind]
    exact holds_run agg part
  refine Tabled.updateM (Multiset.singleton_ne_zero part) ⟨rfl, hnew⟩ (fun e parts he hparts => ?_) htab
  · obtain ⟨hmem, htext, hholds⟩ := hparts
    obtain rfl : e.2.1 = agg := eq_of_text h hmem hagg (htext.trans he)
    obtain ⟨s, hs, hmerged⟩ := holds_merge hholds (holds_run e.2.1 part)
    refine ⟨(e.1, (e.2.1, s)), by rw [hs]; rfl, he, hmem, htext, ?_⟩
    rwa [Multiset.add_bind, Multiset.singleton_bind]

/-- **Run**: everything that arrives. -/
theorem tabled_fillAll {aggs : List (IAggregator D F)} (h : TextsDiffer aggs) :
    ∀ {tagged : List (IAggregator D F × List D)} {aggregators : AggMap D F}
      {m : Str → Multiset (List D)}, (∀ t ∈ tagged, t.1 ∈ aggs) →
      Tabled Prod.fst (EntryHolds aggs) aggregators m →
      ∃ r, fillAll (tagged.map fun t => (t.1, run t.1 t.2)) aggregators = some r ∧
        Tabled Prod.fst (EntryHolds aggs) r fun text => m text + instances tagged text
  | [], aggregators, m, _, htab => ⟨aggregators, rfl, by simpa [instances] using htab⟩
  | t :: tagged, aggregators, m, hmem, htab => by
    obtain ⟨r, hr, htab'⟩ := tabled_fillBuffer h (hmem t List.mem_cons_self) t.2 htab
    obtain ⟨r', hr', htab''⟩ := tabled_fillAll h
      (fun t' ht' => hmem t' (List.mem_cons_of_mem _ ht')) htab'
    refine ⟨r', ?_, ?_⟩
    · unfold fillAll at hr' ⊢
      rw [List.map_cons, List.foldlM_cons, hr]
      exact hr'
    · convert htab'' using 2 with text
      unfold instances
      by_cases htext : t.1.toString = text
      · subst htext
        rw [Function.update_self, List.filter_cons_of_pos (by simp), List.map_cons, add_assoc]
        rfl
      · rw [Function.update_of_ne (Ne.symm htext), List.filter_cons_of_neg (by simpa using htext)]

omit [RapidJsonDocument D F] [AddCommMonoid F] [LinearOrder F] [Library F] in
/-- Every instance is in the entry of an aggregator of the list, once. -/
theorem instances_flatMap {aggs : List (IAggregator D F)} (h : TextsDiffer aggs) {agg : IAggregator D F}
    (hagg : agg ∈ aggs) (parts : List (List D)) :
    instances (parts.flatMap fun part => aggs.map fun agg => (agg, part)) agg.toString = parts := by
  have hone : ∀ part : List D, (aggs.map fun agg => (agg, part)).filter
      (fun t => t.1.toString = agg.toString) = [(agg, part)] := by
    intro part
    have hfilter : aggs.filter (fun b => b.toString = agg.toString) = [agg] := by
      have hnodup : aggs.Nodup := List.Nodup.of_map _ h
      refine List.perm_singleton.mp ((List.perm_ext_iff_of_nodup (hnodup.filter _)
        (List.nodup_singleton agg)).mpr fun b => ?_)
      rw [List.mem_filter, List.mem_singleton, decide_eq_true_eq]
      constructor
      · exact fun hb => eq_of_text h hb.1 hagg hb.2
      · rintro rfl
        exact ⟨hagg, rfl⟩
    rw [List.filter_map]
    exact congrArg (List.map fun agg => (agg, part)) hfilter
  unfold instances
  congr 1
  induction parts with
  | nil => rfl
  | cons part parts ih =>
    rw [List.flatMap_cons, List.filter_append, List.map_append, ih, hone]
    rfl

omit [RapidJsonDocument D F] [AddCommMonoid F] [LinearOrder F] [Library F] in
theorem instances_eq_zero {aggs : List (IAggregator D F)} {text : Str}
    (htext : text ∉ aggs.map IAggregator.toString) (parts : List (List D)) :
    instances (parts.flatMap fun part => aggs.map fun agg => (agg, part)) text = 0 := by
  unfold instances
  rw [List.filter_eq_nil_iff.mpr]
  · rfl
  · intro t ht
    obtain ⟨part, -, ht⟩ := List.mem_flatMap.mp ht
    obtain ⟨agg, hagg, rfl⟩ := List.mem_map.mp ht
    rw [decide_eq_true_eq]
    rintro rfl
    exact htext (List.mem_map_of_mem hagg)

/-- The table of a single run. -/
def ofRun (docs : List D) (agg : IAggregator D F) : Str × Partial D F :=
  (agg.toString, (agg, run agg docs))

theorem bind_parts (parts : List (List D)) :
    (parts : Multiset (List D)).bind (fun part => (part : Multiset D)) = (parts.flatten : Multiset D) := by
  induction parts with
  | nil => rfl
  | cons part parts ih =>
    rw [← Multiset.cons_coe, Multiset.cons_bind, ih, List.flatten_cons, Multiset.coe_add]

/-- What arrives is that of tagged instances. -/
theorem accumulated_tagged {aggs : List (IAggregator D F)} {parts : List (List D)}
    {arrived : List (Partial D F)} (h : Accumulated aggs parts arrived) :
    ∃ tagged : List (IAggregator D F × List D),
      tagged.Perm (parts.flatMap fun part => aggs.map fun agg => (agg, part)) ∧
        arrived = tagged.map fun t => (t.1, run t.1 t.2) := by
  have hmap : parts.flatMap (fun docs => aggs.map fun agg => (agg, run agg docs)) =
      (parts.flatMap fun part => aggs.map fun agg => (agg, part)).map fun t => (t.1, run t.1 t.2) := by
    rw [List.map_flatMap]
    refine List.flatMap_congr fun part _ => ?_
    rw [List.map_map]
    rfl
  unfold Accumulated at h
  rw [hmap] at h
  have hcomp := congrFun (congrFun (List.eq_map_comp_perm
    fun t : IAggregator D F × List D => (t.1, run t.1 t.2)) arrived)
    (parts.flatMap fun part => aggs.map fun agg => (agg, part))
  obtain ⟨tagged, heq, hperm⟩ := hcomp.mpr h
  exact ⟨tagged, hperm, heq⟩

omit [RapidJsonDocument D F] [AddCommMonoid F] [LinearOrder F] [Library F] in
theorem instances_perm {tagged tagged' : List (IAggregator D F × List D)} (h : tagged.Perm tagged')
    (text : Str) : instances tagged text = instances tagged' text :=
  Multiset.coe_eq_coe.mpr ((h.filter _).map _)

/-- **The table at the end** has the entries of a single run, up to order. -/
theorem table_of_run {aggs : List (IAggregator D F)} (h : TextsDiffer aggs) {parts : List (List D)}
    (hparts : parts ≠ []) {docs : List D} (hdocs : parts.flatten.Perm docs)
    {arrived : List (Partial D F)} (harrived : Accumulated aggs parts arrived) :
    ∃ aggregators, fillAll arrived [] = some aggregators ∧ ∃ l : AggMap D F, l.Perm aggregators ∧
      List.Forall₂ (fun agg e => e.2.1 = agg ∧
        SameResult agg (terminate agg (run agg docs)) (terminate agg e.2.2)) aggs l := by
  obtain ⟨tagged, hperm, rfl⟩ := accumulated_tagged harrived
  have hmem : ∀ t ∈ tagged, t.1 ∈ aggs := by
    intro t ht
    obtain ⟨part, -, ht⟩ := List.mem_flatMap.mp (hperm.mem_iff.mp ht)
    obtain ⟨agg, hagg, rfl⟩ := List.mem_map.mp ht
    exact hagg
  have hempty : Tabled Prod.fst (EntryHolds aggs) ([] : AggMap D F) fun _ => 0 := fun _ => rfl
  obtain ⟨r, hr, htab⟩ := tabled_fillAll h hmem hempty
  refine ⟨r, hr, ?_⟩
  simp only [zero_add] at htab
  have hholds : ∀ agg ∈ aggs, instances tagged agg.toString = parts := fun agg hagg => by
    rw [instances_perm hperm, instances_flatMap h hagg]
  have hbind : (parts : Multiset (List D)).bind (fun part => (part : Multiset D)) = docs := by
    rw [bind_parts]
    exact Multiset.coe_eq_coe.mpr hdocs
  have hrun : Tabled Prod.fst (EntryHolds aggs) (aggs.map (ofRun docs)) fun text =>
      instances tagged text := by
    have hkeys : (aggs.map (ofRun docs)).map Prod.fst = aggs.map IAggregator.toString := by
      rw [List.map_map]
      rfl
    refine tabled_of_nodup (by rw [hkeys]; exact h) (fun e he => ?_) fun text htext => ?_
    · obtain ⟨agg, hagg, rfl⟩ := List.mem_map.mp he
      have hinst : instances tagged (ofRun docs agg).1 = parts := hholds agg hagg
      rw [hinst]
      refine ⟨by simpa using hparts, hagg, rfl, ?_⟩
      rw [hbind]
      exact holds_run agg docs
    · rw [hkeys] at htext
      rw [instances_perm hperm, instances_eq_zero htext]
  have hunique : ∃ l : AggMap D F, l.Perm r ∧ List.Forall₂ (fun e e' => e'.2.1 = e.2.1 ∧
      SameResult e.2.1 (terminate e.2.1 e.2.2) (terminate e.2.1 e'.2.2)) (aggs.map (ofRun docs)) l := by
    refine Tabled.unique (fun e _ e' insts hk he he' => ?_) hrun htab
    obtain ⟨hmem, htext, hholds⟩ := he
    obtain ⟨hmem', htext', hholds'⟩ := he'
    have heq : e'.2.1 = e.2.1 := eq_of_text h hmem' hmem (by rw [htext', htext, hk])
    rw [heq] at hholds'
    exact ⟨heq, sameResult hholds hholds'⟩
  obtain ⟨l, hl, hall⟩ := hunique
  refine ⟨l, hl, ?_⟩
  rwa [List.forall₂_map_left_iff] at hall

/-! ### The document -/

/-- In whatever order the values are listed, all have a destination or not. -/
theorem mapM_perm {α : Type*} {l l' : List (Option α)} (h : l.Perm l') :
    (l.mapM id = none ∧ l'.mapM id = none) ∨
      ∃ r r', l.mapM id = some r ∧ l'.mapM id = some r' ∧ r.Perm r' := by
  induction h with
  | nil => exact Or.inr ⟨[], [], rfl, rfl, .nil⟩
  | cons x _ ih =>
    rcases x with _ | x
    · exact Or.inl ⟨rfl, rfl⟩
    · rcases ih with ⟨hl, hl'⟩ | ⟨r, r', hr, hr', hperm⟩
      · exact Or.inl ⟨by simp [hl], by simp [hl']⟩
      · exact Or.inr ⟨x :: r, x :: r', by simp [hr], by simp [hr'], hperm.cons x⟩
  | swap x y l =>
    rcases x with _ | x
    · rcases y with _ | y
      · exact Or.inl ⟨rfl, rfl⟩
      · exact Or.inl ⟨by simp, by simp⟩
    · rcases y with _ | y
      · exact Or.inl ⟨by simp, by simp⟩
      · cases hl : l.mapM id with
        | none => exact Or.inl ⟨by simp [hl], by simp [hl]⟩
        | some r => exact Or.inr ⟨y :: x :: r, x :: y :: r, by simp [hl], by simp [hl], .swap x y r⟩
  | trans _ _ ih₁ ih₂ =>
    rcases ih₁ with ⟨h1, h2⟩ | ⟨r, r', h1, h2, hperm⟩
    · rcases ih₂ with ⟨-, h4⟩ | ⟨u, u', h3, -, -⟩
      · exact Or.inl ⟨h1, h4⟩
      · rw [h2] at h3
        cases h3
    · rcases ih₂ with ⟨h3, -⟩ | ⟨u, u', h3, h4, hperm'⟩
      · rw [h2] at h3
        cases h3
      · rw [h2] at h3
        obtain rfl := Option.some.inj h3
        exact Or.inr ⟨r, u', h1, h4, hperm.trans hperm'⟩

theorem mem_forall₂ {α β : Type*} {R : α → β → Prop} {l : List α} {r : List β}
    (h : List.Forall₂ R l r) : ∀ b ∈ r, ∃ a ∈ l, R a b := by
  induction h with
  | nil => exact fun b hb => absurd hb List.not_mem_nil
  | cons hab _ ih =>
    intro b hb
    rcases List.mem_cons.mp hb with rfl | hb
    · exact ⟨_, List.mem_cons_self, hab⟩
    · obtain ⟨a, ha, hR⟩ := ih b hb
      exact ⟨a, List.mem_cons_of_mem _ ha, hR⟩

theorem pairwise_forall₂ {α β : Type*} {R : α → β → Prop} {S : α → α → Prop} {T : β → β → Prop}
    (hST : ∀ a a' b b', R a b → R a' b' → S a a' → T b b') {l : List α} {r : List β}
    (h : List.Forall₂ R l r) (hl : l.Pairwise S) : r.Pairwise T := by
  induction h with
  | nil => exact .nil
  | cons hab hrest ih =>
    obtain ⟨hhead, htail⟩ := List.pairwise_cons.mp hl
    refine List.pairwise_cons.mpr ⟨fun b' hb' => ?_, ih htail⟩
    obtain ⟨a', ha', hab'⟩ := mem_forall₂ hrest b' hb'
    exact hST _ _ _ _ hab hab' (hhead a' ha')

omit [Double F] [AddCommMonoid F] [LinearOrder F] [Library F] in
/-- Setting at destinations that part, in another order. -/
theorem document_perm {vals vals' : List (Option (RJPointer × RJValue F))} (h : vals.Perm vals')
    (hparts : ∀ r, vals.mapM id = some r → r.Pairwise fun a b => Parts a.1 b.1) :
    Alike (document vals) (document vals') := by
  unfold document
  rcases mapM_perm h with ⟨h1, h2⟩ | ⟨r, r', h1, h2, hperm⟩
  · rw [h1, h2]
    exact .refl _
  · rw [h1, h2]
    exact setAll_perm hperm (hparts r h1) fun e _ => avoids_empty e.1

/-- **The document of the merger.** -/
theorem mergedRight {aggs : List (IAggregator D F)} (htexts : TextsDiffer aggs)
    (hdest : DestinationsPart aggs) {parts : List (List D)} (hparts : parts ≠ []) {docs : List D}
    (hdocs : parts.flatten.Perm docs) {arrived : List (Partial D F)}
    (harrived : Accumulated aggs parts arrived) : MergedRight aggs docs arrived := by
  obtain ⟨aggregators, hfill, l, hl, hall⟩ := table_of_run htexts hparts hdocs harrived
  refine ⟨aggregators, hfill, by rw [← hl.length_eq, ← hall.length_eq], fun order horder => ?_⟩
  refine ⟨l.map fun e => terminate e.2.1 e.2.2, ?_, ?_⟩
  · rw [List.forall₂_map_right_iff]
    exact hall.imp fun agg e he => by rw [he.1]; exact he.2
  · have haggs : aggs = l.map fun e => e.2.1 := by
      have heq : List.Forall₂ Eq aggs (l.map fun e => e.2.1) := by
        rw [List.forall₂_map_right_iff]
        exact hall.imp fun _ _ he => he.1.symm
      rwa [List.forall₂_eq_eq_eq] at heq
    have hlist : List.zipWith destined aggs (l.map fun e => terminate e.2.1 e.2.2) =
        l.map fun a => destined a.2.1 (terminate a.2.1 a.2.2) := by
      rw [haggs, List.zipWith_map, List.zipWith_self]
    rw [hlist]
    refine (document_perm ((hl.trans horder.symm).map _) fun r hr => ?_).symm
    have hpart : l.Pairwise fun a b => ∀ p q, parsePointer a.2.1.getDestPointer = some p →
        parsePointer b.2.1.getDestPointer = some q → Parts p q := by
      unfold DestinationsPart at hdest
      rwa [haggs, List.pairwise_map] at hdest
    refine pairwise_forall₂ (fun a a' b b' hab hab' hS => ?_)
      (List.forall₂_map_left_iff.mp (forall₂_of_mapM hr)) hpart
    obtain ⟨p, hp, rfl⟩ := Option.map_eq_some_iff.mp hab
    obtain ⟨q, hq, rfl⟩ := Option.map_eq_some_iff.mp hab'
    exact hS p q hp hq

/-! ### Where the merger does not do as one run -/

omit [RapidJsonDocument D F] [Library F] in
/-- The texts in the table are different ones, of what arrived. -/
theorem keys_fillAll : ∀ {arrived : List (Partial D F)} {aggregators r : AggMap D F},
    (aggregators.map Prod.fst).Nodup → fillAll arrived aggregators = some r →
      (r.map Prod.fst).Nodup ∧
        ∀ text ∈ r.map Prod.fst, text ∈ aggregators.map Prod.fst ∨
          text ∈ arrived.map fun agg => agg.1.toString
  | [], aggregators, r, hnodup, h => by
    obtain rfl := Option.some.inj h
    exact ⟨hnodup, fun text ht => Or.inl ht⟩
  | agg :: arrived, aggregators, r, hnodup, h => by
    unfold fillAll at h
    rw [List.foldlM_cons] at h
    obtain ⟨u, hu, hrest⟩ := Option.bind_eq_some_iff.mp h
    have hkey : ∀ (it r : Str × Partial D F), ((merge it.2.1 agg.1 it.2.2 agg.2).map
        fun s => (it.1, (it.2.1, s))) = some r → r.1 = it.1 := by
      intro it r hr
      obtain ⟨s, -, rfl⟩ := Option.map_eq_some_iff.mp hr
      rfl
    have hnodup' : (u.map Prod.fst).Nodup ∧ ∀ text ∈ u.map Prod.fst,
        text ∈ aggregators.map Prod.fst ∨ text = agg.1.toString := by
      have hadded : (agg.1.toString, agg).1 = agg.1.toString := rfl
      rcases keys_atKeyM hadded hkey hu with ⟨hkeys, -⟩ | ⟨hkeys, hnew⟩
      · rw [hkeys]
        exact ⟨hnodup, fun text ht => Or.inl ht⟩
      · rw [hkeys]
        refine ⟨List.nodup_append.mpr ⟨hnodup, List.nodup_singleton _, ?_⟩, fun text ht => ?_⟩
        · rintro a ha b hb rfl
          exact hnew (List.mem_singleton.mp hb ▸ ha)
        · rcases List.mem_append.mp ht with ht | ht
          · exact Or.inl ht
          · exact Or.inr (List.mem_singleton.mp ht)
    obtain ⟨hr, hmem⟩ := keys_fillAll hnodup'.1 hrest
    refine ⟨hr, fun text ht => ?_⟩
    rcases hmem text ht with hu' | ha
    · rcases hnodup'.2 text hu' with hold | rfl
      · exact Or.inl hold
      · exact Or.inr List.mem_cons_self
    · exact Or.inr (List.mem_cons_of_mem _ ha)

/-- **Aggregators of the same text are merged into one another**, and without an instance there is
nothing to merge. -/
theorem textsDiffer_of_mergedRight {aggs : List (IAggregator D F)} {parts : List (List D)}
    {docs : List D} {arrived : List (Partial D F)} (harrived : Accumulated aggs parts arrived)
    (h : MergedRight aggs docs arrived) : TextsDiffer aggs ∧ (parts = [] → aggs = []) := by
  obtain ⟨aggregators, hfill, hlen, -⟩ := h
  have hempty : (([] : AggMap D F).map Prod.fst).Nodup := List.nodup_nil
  obtain ⟨hnodup, hmem⟩ := keys_fillAll hempty hfill
  constructor
  · have hsub : (aggregators.map Prod.fst).Subperm (aggs.map IAggregator.toString) := by
      refine List.Nodup.subperm hnodup fun text ht => ?_
      rcases hmem text ht with hnil | ha
      · exact absurd hnil List.not_mem_nil
      · obtain ⟨agg, hagg, rfl⟩ := List.mem_map.mp ha
        obtain ⟨part, -, hpart⟩ := List.mem_flatMap.mp (harrived.mem_iff.mp hagg)
        obtain ⟨b, hb, rfl⟩ := List.mem_map.mp hpart
        exact List.mem_map_of_mem hb
    have hle : (aggs.map IAggregator.toString).length ≤ (aggregators.map Prod.fst).length := by
      rw [List.length_map, List.length_map, hlen]
    exact (hsub.perm_of_length_le hle).nodup_iff.mp hnodup
  · rintro rfl
    unfold Accumulated at harrived
    rw [List.flatMap_nil, List.perm_nil] at harrived
    subst harrived
    obtain rfl := Option.some.inj hfill
    exact List.eq_nil_of_length_eq_zero hlen.symm

/-- Without an aggregator there is nothing to do. -/
theorem mergedRight_nil {parts : List (List D)} {docs : List D} {arrived : List (Partial D F)}
    (harrived : Accumulated [] parts arrived) : MergedRight [] docs arrived := by
  have hnil : arrived = [] := by
    refine List.eq_nil_iff_forall_not_mem.mpr fun agg hagg => ?_
    obtain ⟨part, -, hpart⟩ := List.mem_flatMap.mp (harrived.mem_iff.mp hagg)
    exact absurd hpart List.not_mem_nil
  subst hnil
  refine ⟨[], rfl, rfl, fun order horder => ⟨[], .nil, ?_⟩⟩
  rw [List.perm_nil.mp horder]
  exact .refl _

/-- The document of a single run is a matter of what the aggregators have accumulated. -/
theorem MergedRight.congr {aggs : List (IAggregator D F)} {docs docs' : List D}
    {arrived : List (Partial D F)} (hruns : ∀ agg ∈ aggs, run agg docs = run agg docs')
    (h : MergedRight aggs docs arrived) : MergedRight aggs docs' arrived := by
  obtain ⟨aggregators, hfill, hlen, horders⟩ := h
  refine ⟨aggregators, hfill, hlen, fun order horder => ?_⟩
  obtain ⟨vals, hvals, halike⟩ := horders order horder
  refine ⟨vals, ?_, halike⟩
  have hmem := (List.forall₂_and_left aggs vals).mpr ⟨fun agg hagg => hruns agg hagg, hvals⟩
  refine hmem.imp fun agg val hagg => ?_
  rw [← hagg.1]
  exact hagg.2

/-- `COUNT()` at a destination. -/
def countAt (toPointer : String) : IAggregator (ViewedDocument ℚ) ℚ :=
  .basic .count (ascii toPointer) []

/-- `COLLECT` of a pointer at a destination. -/
def collectAt (toPointer ptrStr : String) : IAggregator (ViewedDocument ℚ) ℚ :=
  .basic .collect (ascii toPointer) [.pointer (ascii ptrStr)]

/-- `{"A":{"x":true,"y":true}}` in a view that changes `/A/x` to `false`. -/
def changedView : Stack ℚ :=
  [⟨[⟨2, .temporary, .object [(ascii "A", .object [(ascii "x", .bool false)])]⟩], [0],
      [[ascii "A", ascii "x"]]⟩,
    ⟨[⟨1, .temporary, .object [(ascii "A", .object [(ascii "x", .bool true), (ascii "y", .bool true)])]⟩],
      [], []⟩]

/-- The object at `/A` is materialised, with both members. -/
theorem readsAsWritten_changedView :
    ReadsAsWritten [countAt "/a", collectAt "/b" "/A"] changedView := by
  have hatts : getAGGAttributes [countAt "/a", collectAt "/b" "/A"] = [[ascii "A"]] := by
    simp [getAGGAttributes, sortUnique, countAt, collectAt, IAggregator.getAttributes,
      IValueProvider.attributesOf, IValueProvider.getAttributes]
    rfl
  intro agg hagg i hi
  obtain rfl : i = 0 := Nat.lt_one_iff.mp hi
  rw [materialised, hatts]
  rcases List.mem_cons.mp hagg with rfl | hagg
  · rfl
  · obtain rfl := List.mem_singleton.mp hagg
    rfl

/-- One document without members. -/
def emptyObject : Stack ℚ := [⟨[⟨1, .temporary, .object []⟩], [], []⟩]

end Joda.Aggregation.Merger
