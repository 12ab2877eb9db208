import Joda.Aggregation.Aggregator
import Mathlib.Data.List.Range

/-! # What an aggregator has accumulated

`Holds agg ds s`: the state `s` is one of an aggregator that has taken the documents `ds`, in whatever
order and through whatever merges. The results of two such states are the same up to the order of
what was collected (`SameResult`). -/

namespace Joda.Aggregation.Accumulation

open Joda.Lib.Table Joda.Values.Value Joda.Values.Provider Joda.Aggregation.Aggregator
open Joda.Aggregation.AttributeStat hiding merge

variable {D F : Type} [Double F] [RapidJsonDocument D F] [AddCommMonoid F] [LinearOrder F] [Library F]

/-! ### The basic aggregators -/

section Basic

variable (params : List (IValueProvider D F))

/-- Whether a document counts in a bucket. -/
def hits (i : ℕ) (json : D) : ℕ := if bucketOf params json = some i then 1 else 0

/-- The numbers, aggregated. -/
def aggregated (T : NumberAggregatorFunc) (xs : Multiset F) : Option (AggRep F) :=
  Multiset.fold T.combine none (xs.map fun x => some (NumberAggregatorFunc.aggregateFirst x))

omit [Double F] [Library F] in
theorem aggregated_add (T : NumberAggregatorFunc) (xs ys : Multiset F) :
    aggregated T (xs + ys) = T.combine (aggregated T xs) (aggregated T ys) := by
  unfold aggregated
  rw [Multiset.map_add, ← Multiset.fold_add T.combine]
  rfl

/-- The documents are in the state. -/
def HoldsBasic (ds : Multiset D) : AggregatorClass → BasicState F → Prop
  | .count, s => s = .count (ds.map fun json => if counts params json then 1 else 0).sum
  | .number T, s => s = .number (aggregated T (ds.bind fun json => (numbersOf params json : List F)))
  | .collect, s => ∃ list : List (RJValue F), s = .collect list ∧
      (list : Multiset (RJValue F)) = ds.map (collected params)
  | .distinct stringEnabled boolEnabled numEnabled, s => ∃ strSet numSet hasTrue hasFalse,
      s = .distinct strSet numSet hasTrue hasFalse ∧ strSet.Nodup ∧ numSet.Nodup ∧
        (∀ x, x ∈ strSet ↔ ∃ json ∈ ds, x ∈ stringsOf stringEnabled params json) ∧
        (∀ x, x ∈ numSet ↔ ∃ json ∈ ds, x ∈ distinctNumbers numEnabled params json) ∧
        (hasTrue = true ↔ ∃ json ∈ ds, isThe true boolEnabled params json = true) ∧
        (hasFalse = true ↔ ∃ json ∈ ds, isThe false boolEnabled params json = true)
  | .histogram, s => s = .histogram
      ((List.range (axisOf params).size).map fun i => (ds.map (hits params i)).sum)
  | .attStat, s => ∃ handler, s = .attStat handler ∧ handler.name = [] ∧
      NodeHolds handler (ds.bind fun json => ((accepted params json).toList : List (RJValue F)))

theorem holds_initBasic (c : AggregatorClass) : HoldsBasic params 0 c (initBasic params c) := by
  cases c with
  | count => rfl
  | number T =>
    unfold HoldsBasic
    rw [Multiset.zero_bind]
    rfl
  | collect => exact ⟨[], rfl, rfl⟩
  | distinct => exact ⟨[], [], false, false, rfl, .nil, .nil, by simp, by simp, by simp, by simp⟩
  | histogram =>
    unfold HoldsBasic initBasic
    simp
  | attStat =>
    refine ⟨_, rfl, rfl, ?_⟩
    rw [Multiset.zero_bind]
    exact nodeHolds_empty []

omit [Double F] [Library F] in
theorem foldl_take (T : NumberAggregatorFunc) (xs : List F) (val : Option (AggRep F)) :
    xs.foldl T.take val = T.combine val (aggregated T xs) := by
  induction xs generalizing val with
  | nil => exact (T.combine_none val).symm
  | cons x xs ih =>
    rw [List.foldl_cons, ih, NumberAggregatorFunc.take_eq, NumberAggregatorFunc.combine_assoc,
      ← Multiset.cons_coe, ← Multiset.singleton_add, aggregated_add]
    unfold aggregated
    rw [Multiset.map_singleton, Multiset.fold_singleton, T.combine_none]

section Insert

variable {α : Type*} [BEq α] [LawfulBEq α]

theorem mem_foldl_insert (xs : List α) : ∀ (l : List α) (x : α),
    x ∈ xs.foldl (fun l s => l.insert s) l ↔ x ∈ l ∨ x ∈ xs := by
  induction xs with
  | nil => simp
  | cons y xs ih =>
    intro l x
    rw [List.foldl_cons, ih, List.mem_insert_iff, List.mem_cons]
    tauto

theorem nodup_foldl_insert (xs : List α) : ∀ {l : List α}, l.Nodup →
    (xs.foldl (fun l s => l.insert s) l).Nodup := by
  induction xs with
  | nil => exact fun h => h
  | cons y xs ih => exact fun h => ih h.insert

end Insert

theorem exists_mem_add_singleton {ds : Multiset D} {json : D} {p : D → Prop} :
    (∃ d ∈ ds + {json}, p d) ↔ (∃ d ∈ ds, p d) ∨ p json := by
  simp only [Multiset.mem_add, Multiset.mem_singleton, or_and_right, exists_or, exists_eq_left]

theorem exists_mem_add {ds es : Multiset D} {p : D → Prop} :
    (∃ d ∈ ds + es, p d) ↔ (∃ d ∈ ds, p d) ∨ ∃ d ∈ es, p d := by
  simp only [Multiset.mem_add, or_and_right, exists_or]

theorem holds_accumulateBasic {ds : Multiset D} {c : AggregatorClass} {s : BasicState F} (json : D)
    (h : HoldsBasic params ds c s) :
    HoldsBasic params (ds + {json}) c (accumulateBasic params json c s) := by
  cases c with
  | count =>
    obtain rfl := h
    unfold HoldsBasic accumulateBasic
    rw [Multiset.map_add, Multiset.sum_add, Multiset.map_singleton, Multiset.sum_singleton]
    split_ifs <;> rfl
  | number T =>
    obtain rfl := h
    refine congrArg BasicState.number ?_
    rw [foldl_take, Multiset.add_bind, Multiset.singleton_bind, aggregated_add]
  | collect =>
    obtain ⟨list, rfl, hlist⟩ := h
    refine ⟨_, rfl, ?_⟩
    rw [← Multiset.coe_add, hlist, Multiset.map_add, Multiset.map_singleton]
    rfl
  | distinct stringEnabled boolEnabled numEnabled =>
    obtain ⟨strSet, numSet, hasTrue, hasFalse, rfl, hstr, hnum, hs, hn, ht, hf⟩ := h
    refine ⟨_, _, _, _, rfl, nodup_foldl_insert _ hstr, nodup_foldl_insert _ hnum, ?_, ?_, ?_, ?_⟩
    · intro x
      rw [mem_foldl_insert, hs, exists_mem_add_singleton]
    · intro x
      rw [mem_foldl_insert, hn, exists_mem_add_singleton]
    · rw [Bool.or_eq_true, ht, exists_mem_add_singleton]
    · rw [Bool.or_eq_true, hf, exists_mem_add_singleton]
  | histogram =>
    obtain rfl := h
    unfold HoldsBasic accumulateBasic
    simp only [Multiset.map_add, Multiset.sum_add, Multiset.map_singleton, Multiset.sum_singleton]
    congr 1
    unfold hits
    cases hb : bucketOf params json with
    | none => simp
    | some i =>
      refine List.ext_getElem? fun j => ?_
      rw [List.getElem?_modify, List.getElem?_map, List.getElem?_map]
      by_cases hj : j < (axisOf params).size
      · rw [List.getElem?_range hj]
        by_cases hij : i = j
        · simp [hij]
        · simp [hij]
      · rw [List.getElem?_eq_none (by simpa using Nat.le_of_not_lt hj)]
        rfl
  | attStat =>
    obtain ⟨handler, rfl, hname, hholds⟩ := h
    refine ⟨_, rfl, ?_⟩
    rw [Multiset.add_bind, Multiset.singleton_bind]
    cases accepted params json with
    | none =>
      refine ⟨hname, ?_⟩
      rw [Option.toList_none, Multiset.coe_nil, add_zero]
      exact hholds
    | some v =>
      obtain ⟨hname', hholds'⟩ := addValue_holds v handler _ hholds
      exact ⟨hname'.trans hname, hholds'⟩

theorem holds_mergeBasic {ds es : Multiset D} {c : AggregatorClass} {s o : BasicState F}
    (h : HoldsBasic params ds c s) (ho : HoldsBasic params es c o) :
    ∃ r, mergeBasic c s o = some r ∧ HoldsBasic params (ds + es) c r := by
  cases c with
  | count =>
    obtain rfl := h
    obtain rfl := ho
    refine ⟨_, rfl, ?_⟩
    unfold HoldsBasic
    rw [Multiset.map_add, Multiset.sum_add]
  | number T =>
    obtain rfl := h
    obtain rfl := ho
    refine ⟨_, rfl, congrArg BasicState.number ?_⟩
    rw [Multiset.add_bind, aggregated_add]
  | collect =>
    obtain ⟨list, rfl, hlist⟩ := h
    obtain ⟨list', rfl, hlist'⟩ := ho
    exact ⟨_, rfl, _, rfl, by rw [← Multiset.coe_add, hlist, hlist', Multiset.map_add]⟩
  | distinct stringEnabled boolEnabled numEnabled =>
    obtain ⟨strSet, numSet, hasTrue, hasFalse, rfl, hstr, hnum, hs, hn, ht, hf⟩ := h
    obtain ⟨strSet', numSet', hasTrue', hasFalse', rfl, -, -, hs', hn', ht', hf'⟩ := ho
    refine ⟨_, rfl, _, _, _, _, rfl, nodup_foldl_insert _ hstr, nodup_foldl_insert _ hnum,
      ?_, ?_, ?_, ?_⟩
    · intro x
      rw [mem_foldl_insert, hs, hs', exists_mem_add]
    · intro x
      rw [mem_foldl_insert, hn, hn', exists_mem_add]
    · rw [Bool.or_eq_true, ht, ht', exists_mem_add]
    · rw [Bool.or_eq_true, hf, hf', exists_mem_add]
  | histogram =>
    obtain rfl := h
    obtain rfl := ho
    refine ⟨_, rfl, ?_⟩
    unfold HoldsBasic
    rw [List.zipWith_map, List.zipWith_self]
    simp only [Multiset.map_add, Multiset.sum_add]
  | attStat =>
    obtain ⟨handler, rfl, hname, hholds⟩ := h
    obtain ⟨handler', rfl, -, hholds'⟩ := ho
    obtain ⟨hname'', hmerged⟩ := merge_holds handler' _ hholds' handler _ hholds
    refine ⟨_, rfl, _, rfl, hname''.trans hname, ?_⟩
    rwa [Multiset.add_bind]

/-- The same result, up to the order of what was collected. -/
def SameBasic : AggregatorClass → RJValue F → RJValue F → Prop
  | .collect, v, w => ∃ vs ws, v = .array vs ∧ w = .array ws ∧ vs.Perm ws
  | .distinct .., v, w => ∃ vs ws, v = .array vs ∧ w = .array ws ∧ vs.Perm ws
  | .attStat, v, w => Reordered v w
  | _, v, w => v = w

theorem sameBasic {ds : Multiset D} {c : AggregatorClass} {s s' : BasicState F}
    (h : HoldsBasic params ds c s) (h' : HoldsBasic params ds c s') :
    SameBasic c (terminateBasic params c s) (terminateBasic params c s') := by
  cases c with
  | count => rw [h, h']; rfl
  | number T => rw [h, h']; rfl
  | collect =>
    obtain ⟨list, rfl, hlist⟩ := h
    obtain ⟨list', rfl, hlist'⟩ := h'
    exact ⟨_, _, rfl, rfl, Multiset.coe_eq_coe.mp (hlist.trans hlist'.symm)⟩
  | distinct stringEnabled boolEnabled numEnabled =>
    obtain ⟨strSet, numSet, hasTrue, hasFalse, rfl, hstr, hnum, hs, hn, ht, hf⟩ := h
    obtain ⟨strSet', numSet', hasTrue', hasFalse', rfl, hstr', hnum', hs', hn', ht', hf'⟩ := h'
    obtain rfl : hasTrue = hasTrue' := Bool.eq_iff_iff.mpr (ht.trans ht'.symm)
    obtain rfl : hasFalse = hasFalse' := Bool.eq_iff_iff.mpr (hf.trans hf'.symm)
    have hpermStr : strSet.Perm strSet' :=
      (List.perm_ext_iff_of_nodup hstr hstr').mpr fun x => (hs x).trans (hs' x).symm
    have hpermNum : numSet.Perm numSet' :=
      (List.perm_ext_iff_of_nodup hnum hnum').mpr fun x => (hn x).trans (hn' x).symm
    refine ⟨_, _, rfl, rfl, ?_⟩
    refine List.Perm.append_right _ (List.Perm.append_right _ (List.Perm.append ?_ ?_))
    · split_ifs
      · exact hpermStr.map _
      · exact .refl _
    · split_ifs
      · exact hpermNum.map _
      · exact .refl _
  | histogram => rw [h, h']; rfl
  | attStat =>
    obtain ⟨handler, rfl, hname, hholds⟩ := h
    obtain ⟨handler', rfl, hname', hholds'⟩ := h'
    exact toValue_unique handler handler' _ (hname.trans hname'.symm) hholds hholds'

end Basic

/-! ### All aggregators -/

/-- **The documents are in the state**, whatever their order was. -/
def Holds : IAggregator D F → Multiset D → AggState F → Prop
  | .basic c _ params, ds, s => ∃ b, s = .basic b ∧ HoldsBasic params ds c b
  | .group _ groupBy protoAgg _, ds, s => ∃ groups, s = .group groups ∧
      Tabled Prod.fst (fun e es => Holds protoAgg es e.2) groups
        (fun key => ds.filter fun json => groupOf groupBy json = some key)

theorem holds_init (agg : IAggregator D F) : Holds agg 0 (init agg) := by
  cases agg with
  | basic c toPointer params => exact ⟨_, rfl, holds_initBasic params c⟩
  | group toPointer groupBy protoAgg groupAs => exact ⟨[], rfl, fun _ => Multiset.filter_zero _⟩

omit [AddCommMonoid F] [Library F] in
theorem filter_group_add (groupBy : IValueProvider D F) (ds : Multiset D) {json : D} {key : GroupKey F}
    (hkey : groupOf groupBy json = some key) :
    (fun k => (ds + {json}).filter fun json => groupOf groupBy json = some k) =
      Function.update (fun k => ds.filter fun json => groupOf groupBy json = some k) key
        (ds.filter (fun json => groupOf groupBy json = some key) + {json}) := by
  funext k
  rw [Multiset.filter_add, Multiset.filter_singleton, hkey]
  by_cases hk : k = key
  · rw [hk, Function.update_self, if_pos rfl]
  · rw [Function.update_of_ne hk, if_neg fun h => hk (Option.some.inj h).symm]
    exact add_zero _

/-- **Step**: one more document. -/
theorem holds_accumulate : ∀ {agg : IAggregator D F} {ds : Multiset D} {s : AggState F} (json : D),
    Holds agg ds s → Holds agg (ds + {json}) (accumulate agg json s)
  | .basic c _ params, ds, s, json, h => by
    obtain ⟨b, rfl, hb⟩ := h
    exact ⟨_, rfl, holds_accumulateBasic params json hb⟩
  | .group _ groupBy protoAgg _, ds, s, json, h => by
    obtain ⟨groups, rfl, htab⟩ := h
    unfold accumulate Holds
    cases hkey : groupOf groupBy json with
    | none =>
      refine ⟨groups, rfl, ?_⟩
      simpa only [Multiset.filter_add, Multiset.filter_singleton, hkey, reduceCtorEq, if_false,
        Multiset.empty_eq_zero, add_zero] using htab
    | some key =>
      refine ⟨_, rfl, ?_⟩
      rw [filter_group_add groupBy ds hkey]
      have hnew := holds_accumulate json (holds_init protoAgg)
      rw [zero_add] at hnew
      have hupdate : ∀ (e : GroupKey F × AggState F) (es : Multiset D), e.1 = key →
          Holds protoAgg es e.2 → e.1 = key ∧ Holds protoAgg (es + {json}) (accumulate protoAgg json e.2) :=
        fun e es he hes => ⟨he, holds_accumulate json hes⟩
      have hadded : (key, accumulate protoAgg json (init protoAgg)).1 = key ∧
          Holds protoAgg {json} (key, accumulate protoAgg json (init protoAgg)).2 := ⟨rfl, hnew⟩
      exact Tabled.update (Multiset.singleton_ne_zero json) hadded hupdate htab

/-- **Run**: the documents one after the other. -/
theorem holds_run (agg : IAggregator D F) (docs : List D) : Holds agg docs (run agg docs) := by
  have hfold : ∀ (docs : List D) (ds : Multiset D) (s : AggState F), Holds agg ds s →
      Holds agg (ds + docs) (docs.foldl (fun s json => accumulate agg json s) s) := by
    intro docs
    induction docs with
    | nil => intro ds s h; simpa using h
    | cons json docs ih =>
      intro ds s h
      have hrest := ih _ _ (holds_accumulate json h)
      rwa [add_assoc, Multiset.singleton_add, Multiset.cons_coe] at hrest
  have h := hfold docs 0 (init agg) (holds_init agg)
  rwa [zero_add] at h

/-- **Merge**: the documents of both. -/
theorem holds_merge : ∀ {agg : IAggregator D F} {ds es : Multiset D} {s o : AggState F},
    Holds agg ds s → Holds agg es o → ∃ r, merge agg agg s o = some r ∧ Holds agg (ds + es) r
  | .basic c _ params, ds, es, s, o, h, ho => by
    obtain ⟨b, rfl, hb⟩ := h
    obtain ⟨b', rfl, hb'⟩ := ho
    obtain ⟨r, hr, hholds⟩ := holds_mergeBasic params hb hb'
    refine ⟨.basic r, ?_, r, rfl, hholds⟩
    unfold merge
    rw [if_pos c.castable_self, hr]
    rfl
  | .group _ groupBy protoAgg _, ds, es, s, o, h, ho => by
    obtain ⟨groups, rfl, htab⟩ := h
    obtain ⟨others, rfl, htab'⟩ := ho
    have hspec : ∀ o ∈ others, ∀ u, Holds protoAgg u o.2 →
        ((id o).1 = o.1 ∧ Holds protoAgg u (id o).2) ∧ ∀ (e : GroupKey F × AggState F) w,
          e.1 = o.1 → Holds protoAgg w e.2 → ∃ r, ((merge protoAgg protoAgg e.2 o.2).map fun s => (e.1, s)) = some r ∧
            r.1 = o.1 ∧ Holds protoAgg (w + u) r.2 := by
      intro o _ u hu
      refine ⟨⟨rfl, hu⟩, fun e w he hw => ?_⟩
      obtain ⟨r, hr, hholds⟩ := holds_merge hw hu
      exact ⟨(e.1, r), by rw [hr]; rfl, he, hholds⟩
    obtain ⟨r, hr, hmerged⟩ := Tabled.merged hspec htab htab'
    refine ⟨.group r, ?_, r, rfl, ?_⟩
    · unfold merge
      rw [hr]
      rfl
    · simpa only [Multiset.filter_add] using hmerged

/-- **The same result**, up to the order of what was collected. -/
def SameResult : IAggregator D F → RJValue F → RJValue F → Prop
  | .basic c _ _, v, w => SameBasic c v w
  | .group _ groupBy protoAgg groupAs, v, w => ∃ es us fs : List (GroupKey F × RJValue F),
      v = .array (es.map (groupEntry groupBy protoAgg groupAs)) ∧
      w = .array (fs.map (groupEntry groupBy protoAgg groupAs)) ∧ us.Perm fs ∧
      List.Forall₂ (fun e u => e.1 = u.1 ∧ SameResult protoAgg e.2 u.2) es us

/-- **The result depends on the documents only.** -/
theorem sameResult : ∀ {agg : IAggregator D F} {ds : Multiset D} {s s' : AggState F},
    Holds agg ds s → Holds agg ds s' → SameResult agg (terminate agg s) (terminate agg s')
  | .basic c _ params, ds, s, s', h, h' => by
    obtain ⟨b, rfl, hb⟩ := h
    obtain ⟨b', rfl, hb'⟩ := h'
    exact sameBasic params hb hb'
  | .group _ groupBy protoAgg groupAs, ds, s, s', h, h' => by
    obtain ⟨groups, rfl, htab⟩ := h
    obtain ⟨groups', rfl, htab'⟩ := h'
    have hunique : ∃ l : List (GroupKey F × AggState F), l.Perm groups' ∧ List.Forall₂ (fun e u =>
        e.1 = u.1 ∧ SameResult protoAgg (terminate protoAgg e.2) (terminate protoAgg u.2)) groups l :=
      Tabled.unique (P := fun (e : GroupKey F × AggState F) es => Holds protoAgg es e.2)
        (fun e _ u es hk he hu => ⟨hk, sameResult he hu⟩) htab htab'
    obtain ⟨l, hperm, hall⟩ := hunique
    refine ⟨groups.map fun e => (e.1, terminate protoAgg e.2), l.map fun e => (e.1, terminate protoAgg e.2),
      groups'.map fun e => (e.1, terminate protoAgg e.2), ?_, ?_, hperm.map _, ?_⟩
    · rw [List.map_map, terminate]
      rfl
    · rw [List.map_map, terminate]
      rfl
    · rw [List.forall₂_map_left_iff, List.forall₂_map_right_iff]
      exact hall

/-! ### Splits -/

/-- How documents are split over aggregators, and which of them are merged. -/
inductive Split (D : Type) where
  | run (docs : List D)
  | merge (into other : Split D)

namespace Split

/-- The documents of all aggregators. -/
def docs : Split D → List D
  | .run docs => docs
  | .merge into other => into.docs ++ other.docs

/-- The aggregator that is left. -/
def eval (agg : IAggregator D F) : Split D → Option (AggState F)
  | .run docs => some (Aggregator.run agg docs)
  | .merge into other =>
    (into.eval agg).bind fun s => (other.eval agg).bind fun o => Aggregator.merge agg agg s o

end Split

/-- **Every split** leaves an aggregator with all documents. -/
theorem holds_eval (agg : IAggregator D F) (t : Split D) :
    ∃ s, t.eval agg = some s ∧ Holds agg t.docs s := by
  induction t with
  | run docs => exact ⟨_, rfl, holds_run agg docs⟩
  | merge into other ih ih' =>
    obtain ⟨s, hs, hholds⟩ := ih
    obtain ⟨o, ho, hholds'⟩ := ih'
    obtain ⟨r, hr, hmerged⟩ := holds_merge hholds hholds'
    refine ⟨r, by rw [Split.eval, hs, ho]; exact hr, ?_⟩
    rwa [Multiset.coe_add] at hmerged

end Joda.Aggregation.Accumulation
