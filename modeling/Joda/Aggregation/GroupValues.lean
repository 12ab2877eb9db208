import Joda.Aggregation.MergeHomomorphism
import Joda.Lib.Grouping
import Mathlib.Data.List.TakeWhile

/-! # The values of groups and of `DISTINCT`

`GROUP` and `DISTINCT` tell values apart by keys: a number is converted to a double, a string to a C
string. So they keep different values apart, and report each with its own value, exactly if the
conversions change none of them (`Exact`). What is done below a key does not depend on that: a group has
the inner aggregator run over its documents, in their order (`run_grouped`). -/

namespace Joda.Aggregation.GroupValues

open Joda.Lib.Table Joda.Lib.Grouping Joda.Lib.Rounding
open Joda.Values.Value Joda.Values.Provider Joda.Values.Doubles
open Joda.Aggregation.Aggregator Joda.Aggregation.Accumulation Joda.Aggregation.MergeHomomorphism

variable {D F S : Type} [Double F]

/-! ### Keys -/

/-- What a value is told apart by. -/
def keyOf : RJValue F → Option (GroupKey F)
  | .string s => some (.str (cString s))
  | .number n => some (.num n.getDouble)
  | .bool b => some (.bool b)
  | _ => none

theorem groupOf_eq [RapidJsonDocument D F] (groupBy : IValueProvider D F) (json : D) :
    groupOf groupBy json = (valueOf groupBy json).bind keyOf := by
  unfold groupOf
  rcases valueOf groupBy json with _ | v
  · rfl
  cases v <;> rfl

/-- The JSON values that are grouped. Numbers are the same if their mathematical values are. -/
inductive JsonValue where
  | bool (b : Bool)
  | string (s : Str)
  | number (q : ℚ)
  deriving DecidableEq

variable [Binary64 F]

def jsonValue : RJValue F → Option JsonValue
  | .bool b => some (.bool b)
  | .string s => some (.string s)
  | .number n => some (.number (numberValue n))
  | _ => none

/-- A number as documents have it: an integer of one of the integer types, or a double. -/
def Stored : RJValue F → Prop
  | .number (.int z) => -2 ^ 63 ≤ z ∧ z < 2 ^ 64
  | .number (.double x) => roundTo 53 (Binary64.value x) = Binary64.value x
  | _ => True

omit [Double F] [Binary64 F] in
/-- **Nothing is lost by the conversion**: the integer is one of the doubles, the string has no zero
byte. -/
def Exact : RJValue F → Prop
  | .number (.int z) => roundTo 53 (z : ℚ) = z
  | .string s => (0 : UInt8) ∉ s
  | _ => True

/-- The JSON value that is reported for a key. -/
def reported (k : GroupKey F) : Option JsonValue := jsonValue (keyValue k)

theorem reported_injective : Function.Injective (reported (F := F)) := by
  intro k l h
  cases k <;> cases l <;>
    simp only [reported, keyValue, jsonValue, Option.some.injEq, JsonValue.string.injEq,
      JsonValue.bool.injEq, JsonValue.number.injEq, reduceCtorEq, numberValue] at h
  · rw [h]
  · rw [Binary64.value_injective h]
  · rw [h]

/-- A value is reported as itself if nothing is lost. -/
theorem jsonValue_eq_reported {v : RJValue F} {k : GroupKey F} (hk : keyOf v = some k)
    (hs : Stored v) (he : Exact v) : jsonValue v = reported k := by
  cases v with
  | bool b =>
    obtain rfl := Option.some.inj hk
    rfl
  | string s =>
    obtain rfl := Option.some.inj hk
    show some (JsonValue.string s) = some (JsonValue.string (cString s))
    rw [cString_eq_self.mpr he]
  | number n =>
    obtain rfl := Option.some.inj hk
    cases n with
    | int z =>
      have hz : roundTo 53 (z : ℚ) = z := he
      show some (JsonValue.number z) = some (JsonValue.number (Binary64.value (Double.ofInt z : F)))
      rw [Binary64.value_ofInt z hs.1 hs.2, hz]
    | double x => rfl
  | null | array | object => cases hk

/-- The double that a stored number is converted to. -/
theorem roundTo_getDouble {n : Number F} (hs : Stored (.number n)) :
    roundTo 53 (Binary64.value n.getDouble) = Binary64.value n.getDouble := by
  cases n with
  | int z =>
    rw [value_getDouble_int hs]
    exact roundTo_roundTo (by norm_num) z
  | double x => exact hs

/-- **What is reported as the value of something**, be it another value of the group, was converted
without a loss. -/
theorem exact_of_reported {v w : RJValue F} {k : GroupKey F} (hk : keyOf w = some k)
    (hs : Stored w) (h : jsonValue v = reported k) : Exact v := by
  cases v with
  | string s =>
    cases w with
    | string t =>
      obtain rfl := Option.some.inj hk
      obtain rfl : s = cString t := JsonValue.string.inj (Option.some.inj h)
      exact zero_not_mem_cString t
    | bool | number =>
      obtain rfl := Option.some.inj hk
      cases h
    | null | array | object => cases hk
  | number n =>
    cases n with
    | int z =>
      cases w with
      | number m =>
        obtain rfl := Option.some.inj hk
        have hz : (z : ℚ) = Binary64.value m.getDouble := JsonValue.number.inj (Option.some.inj h)
        show roundTo 53 (z : ℚ) = z
        rw [hz]
        exact roundTo_getDouble hs
      | bool | string =>
        obtain rfl := Option.some.inj hk
        cases h
      | null | array | object => cases hk
    | double x => trivial
  | null | bool | array | object => trivial

/-! ### Groups -/

section Grouped

variable [RapidJsonDocument D F] [DecidableEq F]

omit [Binary64 F] in
/-- **The groups of a run**: each key once, with the inner aggregator run over its documents in their
order. -/
theorem run_grouped {groupBy : IValueProvider D F} (result : GroupKey F × RJValue F → RJValue F)
    (inner : Operations D S F) (key : D → GroupKey F) (docs : List D)
    (hkey : ∀ json ∈ docs, groupOf groupBy json = some (key json)) :
    ∃ gs, IsGrouping key docs gs ∧
      (grouped groupBy result inner).run docs = gs.map fun g => (g.1, inner.run g.2) := by
  induction docs using List.reverseRecOn with
  | nil => exact ⟨[], isGrouping_nil key, rfl⟩
  | append_singleton docs json ih =>
    obtain ⟨gs, hgs, hrun⟩ := ih fun d hd => hkey d (List.mem_append_left _ hd)
    have hjson := hkey json (List.mem_append_right _ (List.mem_singleton_self json))
    refine ⟨_, hgs.snoc json, ?_⟩
    have hstep : (grouped groupBy result inner).run (docs ++ [json]) =
        atKey Prod.fst (key json) (key json, inner.accumulate json inner.init)
          (fun e => (e.1, inner.accumulate json e.2)) ((grouped groupBy result inner).run docs) := by
      unfold Operations.run
      rw [List.foldl_append]
      unfold grouped
      dsimp only [List.foldl]
      rw [hjson]
    rw [hstep, hrun]
    refine atKey_map Prod.fst Prod.fst (fun g : GroupKey F × List D => (g.1, inner.run g.2))
      (key json, [json]) (fun _ => rfl) (fun g => ?_) gs
    show (g.1, inner.accumulate json (inner.run g.2)) = (g.1, inner.run (g.2 ++ [json]))
    unfold Operations.run
    rw [List.foldl_append]
    rfl

end Grouped

section Aggregators

variable [RapidJsonDocument D F] [AddCommMonoid F] [LinearOrder F] [Library F]

/-- What a document is to be grouped by. -/
def jsonOf (v : Option (RJValue F)) : Option JsonValue := v.bind jsonValue

omit [RapidJsonDocument D F] [AddCommMonoid F] [LinearOrder F] [Library F] in
theorem jsonOf_some (v : RJValue F) : jsonOf (some v) = jsonValue v := rfl

/-- A document whose value is a boolean, a string or a number. -/
structure Groupable (groupBy : IValueProvider D F) (json : D) (v : RJValue F) : Prop where
  value : valueOf groupBy json = some v
  grouped : (keyOf v).isSome = true
  stored : Stored v

/-- The object of a group that is reported with a value. -/
def groupObject (groupBy : IValueProvider D F) (protoAgg : IAggregator D F) (groupAs : Str)
    (v result : RJValue F) : RJValue F :=
  .object [(ascii "group", v), (ascii "groupedBy", .string groupBy.toString),
    (IAggregator.getGroupName protoAgg groupAs, result)]

/-- **The groups are right**: there is one for each JSON value, it is reported with that value, and has
the inner aggregator run over its documents in their order. -/
def GroupsRight (toPointer : Str) (groupBy : IValueProvider D F) (protoAgg : IAggregator D F)
    (groupAs : Str) (docs : List D) : Prop :=
  ∃ entries : List (RJValue F × List D),
    IsGrouping (fun json => jsonOf (valueOf groupBy json)) docs
      (entries.map fun e => (jsonValue e.1, e.2)) ∧
    terminate (.group toPointer groupBy protoAgg groupAs)
        (run (.group toPointer groupBy protoAgg groupAs) docs) =
      .array (entries.map fun e =>
        groupObject groupBy protoAgg groupAs e.1 (terminate protoAgg (run protoAgg e.2)))

omit [Binary64 F] in
/-- The groups as they are. -/
theorem terminate_run (toPointer : Str) (groupBy : IValueProvider D F) (protoAgg : IAggregator D F)
    (groupAs : Str) {docs : List D} {key : D → GroupKey F}
    (hkey : ∀ json ∈ docs, groupOf groupBy json = some (key json)) :
    ∃ gs, IsGrouping key docs gs ∧ terminate (.group toPointer groupBy protoAgg groupAs)
        (run (.group toPointer groupBy protoAgg groupAs) docs) =
      .array (gs.map fun g => groupObject groupBy protoAgg groupAs (keyValue g.1)
        (terminate protoAgg (run protoAgg g.2))) := by
  obtain ⟨hrun, -, hterminate⟩ := group_grouped toPointer groupBy protoAgg groupAs
  obtain ⟨gs, hgs, hgrouped⟩ :=
    run_grouped (groupEntry groupBy protoAgg groupAs) (operations protoAgg) key docs hkey
  refine ⟨gs, hgs, ?_⟩
  rw [hrun, hterminate, hgrouped]
  show RJValue.array _ = _
  rw [List.map_map]
  rfl

theorem groupsRight (toPointer : Str) {groupBy : IValueProvider D F} (protoAgg : IAggregator D F)
    (groupAs : Str) {docs : List D} (hdocs : ∀ json ∈ docs, ∃ v, Groupable groupBy json v ∧ Exact v) :
    GroupsRight toPointer groupBy protoAgg groupAs docs := by
  have hvalue : ∀ json ∈ docs, groupOf groupBy json = some ((groupOf groupBy json).getD (.bool true)) ∧
      jsonOf (valueOf groupBy json) = reported ((groupOf groupBy json).getD (.bool true)) := by
    intro json hjson
    obtain ⟨v, hv, he⟩ := hdocs json hjson
    obtain ⟨k, hk⟩ := Option.isSome_iff_exists.mp hv.grouped
    have hgroup : groupOf groupBy json = some k := by
      rw [groupOf_eq, hv.value]
      exact hk
    rw [hgroup, hv.value]
    exact ⟨rfl, jsonValue_eq_reported hk hv.stored he⟩
  obtain ⟨gs, hgs, hterminate⟩ :=
    terminate_run toPointer groupBy protoAgg groupAs fun json hjson => (hvalue json hjson).1
  refine ⟨gs.map fun g => (keyValue g.1, g.2), ?_, ?_⟩
  · rw [List.map_map]
    refine hgs.refine _ (fun g => reported g.1) fun g _ json hjson => ?_
    rw [(hvalue json hjson).2]
    exact reported_injective.eq_iff
  · rw [hterminate, List.map_map]
    rfl

/-- Right groups were converted without a loss. -/
theorem exact_of_groupsRight {toPointer : Str} {groupBy : IValueProvider D F}
    {protoAgg : IAggregator D F} {groupAs : Str} {docs : List D}
    (hdocs : ∀ json ∈ docs, ∃ v, Groupable groupBy json v)
    (h : GroupsRight toPointer groupBy protoAgg groupAs docs) {json : D} (hjson : json ∈ docs)
    {v : RJValue F} (hv : valueOf groupBy json = some v) : Exact v := by
  have hkey : ∀ json ∈ docs, groupOf groupBy json = some ((groupOf groupBy json).getD (.bool true)) := by
    intro json hjson
    obtain ⟨w, hw⟩ := hdocs json hjson
    obtain ⟨k, hk⟩ := Option.isSome_iff_exists.mp hw.grouped
    rw [groupOf_eq, hw.value, Option.bind_some, hk]
    rfl
  obtain ⟨entries, hentries, hright⟩ := h
  obtain ⟨gs, hgs, hterminate⟩ := terminate_run toPointer groupBy protoAgg groupAs hkey
  -- the entry of the document is one of the groups there are
  obtain ⟨e', he', hvalue⟩ := List.mem_map.mp (hentries.complete json hjson)
  obtain ⟨e, he, rfl⟩ := List.mem_map.mp he'
  have harray := RJValue.array.inj (hright.symm.trans hterminate)
  obtain ⟨g, hg, hobject⟩ := List.mem_map.mp (harray ▸ List.mem_map_of_mem he)
  have hreported : keyValue g.1 = e.1 := by
    injection hobject with hmembers
    injection hmembers with hgroup
    exact (Prod.mk.inj hgroup).2
  -- which has the key of one of the documents
  obtain ⟨other, hother, hgkey⟩ := hgs.exists_mem hg
  obtain ⟨w, hw⟩ := hdocs other hother
  obtain ⟨k, hk⟩ := Option.isSome_iff_exists.mp hw.grouped
  have hgk : k = g.1 := by
    rw [← hgkey, groupOf_eq, hw.value, Option.bind_some, hk]
    rfl
  refine exact_of_reported hk hw.stored ?_
  rw [hgk, reported, hreported, ← jsonOf_some, ← hv]
  exact hvalue.symm

/-! ### `DISTINCT` -/

/-- The types that `DISTINCT` is enabled for. -/
def enabled (stringEnabled boolEnabled numEnabled : Bool) : RJValue F → Bool
  | .string _ => stringEnabled
  | .bool _ => boolEnabled
  | .number _ => numEnabled
  | _ => false

section Distinct

variable (stringEnabled boolEnabled numEnabled : Bool) (params : List (IValueProvider D F))

/-- A document has an enabled value with a key. -/
def HasKey (json : D) (k : GroupKey F) : Prop :=
  ∃ v, param params 0 json = some v ∧ enabled stringEnabled boolEnabled numEnabled v = true ∧
    keyOf v = some k

omit [Binary64 F] [AddCommMonoid F] [LinearOrder F] [Library F] in
theorem mem_stringsOf (json : D) (x : Str) : x ∈ stringsOf stringEnabled params json ↔
    HasKey stringEnabled boolEnabled numEnabled params json (.str x) := by
  unfold stringsOf HasKey
  rcases param params 0 json with _ | v
  · simp
  cases v with
  | string s =>
    cases stringEnabled with
    | true => simpa [enabled, keyOf] using eq_comm
    | false => simp [enabled]
  | null | bool | number | array | object => simp [keyOf]

omit [Binary64 F] [AddCommMonoid F] [LinearOrder F] [Library F] in
theorem mem_distinctNumbers (json : D) (x : F) : x ∈ distinctNumbers numEnabled params json ↔
    HasKey stringEnabled boolEnabled numEnabled params json (.num x) := by
  unfold distinctNumbers HasKey
  rcases param params 0 json with _ | v
  · simp
  cases v with
  | number n =>
    cases numEnabled with
    | true => simpa [enabled, keyOf] using eq_comm
    | false => simp [enabled]
  | null | bool | string | array | object => simp [keyOf]

omit [Binary64 F] [AddCommMonoid F] [LinearOrder F] [Library F] in
theorem isThe_iff (b : Bool) (json : D) : isThe b boolEnabled params json = true ↔
    HasKey stringEnabled boolEnabled numEnabled params json (.bool b) := by
  unfold isThe HasKey
  rcases param params 0 json with _ | v
  · simp
  cases v with
  | bool b' => simp [enabled, keyOf]
  | null | string | number | array | object => simp [keyOf]

omit [Double F] [Binary64 F] [RapidJsonDocument D F] [AddCommMonoid F] [LinearOrder F] [Library F] in
/-- The keys by their types. -/
def keyList (strSet : List Str) (numSet : List F) (hasTrue hasFalse : Bool) : List (GroupKey F) :=
  strSet.map .str ++ numSet.map .num ++ (if hasTrue then [.bool true] else []) ++
    (if hasFalse then [.bool false] else [])

omit [Double F] [Binary64 F] [AddCommMonoid F] [LinearOrder F] [Library F] in
theorem nodup_keyList {strSet : List Str} {numSet : List F} (hstr : strSet.Nodup)
    (hnum : numSet.Nodup) (hasTrue hasFalse : Bool) : (keyList strSet numSet hasTrue hasFalse).Nodup := by
  have hbool : ∀ (b has : Bool), (if has then [GroupKey.bool (F := F) b] else []).Nodup := by
    intro b has
    cases has <;> simp
  have hthe : ∀ {b has : Bool} {k : GroupKey F}, k ∈ (if has then [GroupKey.bool b] else []) →
      k = .bool b := by
    intro b has k hk
    cases has with
    | true => simpa using hk
    | false => simp at hk
  have hstr' := hstr.map fun _ _ h => GroupKey.str.inj (F := F) h
  have hnum' := hnum.map fun _ _ h => GroupKey.num.inj (F := F) h
  refine List.nodup_append.mpr ⟨List.nodup_append.mpr ⟨List.nodup_append.mpr
    ⟨hstr', hnum', ?_⟩, hbool true hasTrue, ?_⟩, hbool false hasFalse, ?_⟩
  · rintro _ hk _ hl rfl
    obtain ⟨s, -, rfl⟩ := List.mem_map.mp hk
    obtain ⟨x, -, hx⟩ := List.mem_map.mp hl
    cases hx
  · rintro _ hk _ hl rfl
    obtain rfl := hthe hl
    simp at hk
  · rintro _ hk _ hl rfl
    obtain rfl := hthe hl
    simp at hk

/-- The aggregator with the one parameter. -/
def distinctAggregator (toPointer : Str) : IAggregator D F :=
  .basic (.distinct stringEnabled boolEnabled numEnabled) toPointer params

omit [Binary64 F] in
/-- **What `DISTINCT` reports**: each key of an enabled value, once. -/
theorem terminate_distinct (toPointer : Str) (docs : List D) :
    ∃ keys : List (GroupKey F),
      terminate (distinctAggregator stringEnabled boolEnabled numEnabled params toPointer)
        (run (distinctAggregator stringEnabled boolEnabled numEnabled params toPointer) docs) =
          .array (keys.map keyValue) ∧
      keys.Nodup ∧
      ∀ k, k ∈ keys ↔ ∃ json ∈ docs, HasKey stringEnabled boolEnabled numEnabled params json k := by
  obtain ⟨b, hb, strSet, numSet, hasTrue, hasFalse, rfl, hstr, hnum, hs, hn, ht, hf⟩ :=
    holds_run (distinctAggregator stringEnabled boolEnabled numEnabled params toPointer) docs
  simp only [mem_stringsOf stringEnabled boolEnabled numEnabled, Multiset.mem_coe] at hs
  simp only [mem_distinctNumbers stringEnabled boolEnabled numEnabled, Multiset.mem_coe] at hn
  simp only [isThe_iff stringEnabled boolEnabled numEnabled, Multiset.mem_coe] at ht hf
  -- what is not enabled was not accumulated
  have hstrOff : (if stringEnabled then strSet.map RJValue.string else []) =
      (strSet.map GroupKey.str).map (keyValue (F := F)) := by
    rw [List.map_map]
    by_cases hon : stringEnabled = true
    · rw [if_pos hon]
      rfl
    · have hnil : strSet = [] := List.eq_nil_iff_forall_not_mem.mpr fun x hx => by
        obtain ⟨json, -, v, -, he, hk⟩ := (hs x).mp hx
        cases v <;> simp [keyOf, enabled, hon] at he hk
      rw [hnil]
      simp
  have hnumOff : (if numEnabled then numSet.map (fun x => RJValue.number (.double x)) else []) =
      (numSet.map GroupKey.num).map keyValue := by
    rw [List.map_map]
    by_cases hon : numEnabled = true
    · rw [if_pos hon]
      rfl
    · have hnil : numSet = [] := List.eq_nil_iff_forall_not_mem.mpr fun x hx => by
        obtain ⟨json, -, v, -, he, hk⟩ := (hn x).mp hx
        cases v <;> simp [keyOf, enabled, hon] at he hk
      rw [hnil]
      simp
  have hboolOff : ∀ (b has : Bool), (has = true ↔ ∃ json ∈ docs,
      HasKey stringEnabled boolEnabled numEnabled params json (.bool b)) →
      (if boolEnabled && has then [RJValue.bool b] else []) =
        (if has then [GroupKey.bool b] else []).map (keyValue (F := F)) := by
    intro b has hhas
    by_cases hon : has = true
    · obtain ⟨json, -, v, -, he, hk⟩ := hhas.mp hon
      have hb : boolEnabled = true := by cases v <;> simp_all [keyOf, enabled]
      rw [hon, hb]
      rfl
    · rw [if_neg hon, if_neg (by simp [hon])]
      rfl
  refine ⟨keyList strSet numSet hasTrue hasFalse, ?_, nodup_keyList hstr hnum hasTrue hasFalse, ?_⟩
  · rw [hb]
    simp only [distinctAggregator, terminate, terminateBasic, keyList, List.map_append, hstrOff,
      hnumOff, hboolOff true hasTrue ht, hboolOff false hasFalse hf]
  · intro k
    unfold keyList
    cases k with
    | str x => simp [hs]
    | num x => simp [hn]
    | bool b => cases b <;> simp [ht, hf]

/-- **`DISTINCT` is right**: it reports the JSON value of each enabled value once, and nothing else. -/
def DistinctRight (toPointer : Str) (docs : List D) : Prop :=
  ∃ vs, terminate (distinctAggregator stringEnabled boolEnabled numEnabled params toPointer)
      (run (distinctAggregator stringEnabled boolEnabled numEnabled params toPointer) docs) = .array vs ∧
    (vs.map jsonValue).Nodup ∧
    ∀ w, w ∈ vs.map jsonValue ↔ ∃ json ∈ docs, ∃ v, param params 0 json = some v ∧
      enabled stringEnabled boolEnabled numEnabled v = true ∧ jsonValue v = w

variable {stringEnabled boolEnabled numEnabled params}

omit [Double F] [Binary64 F] [AddCommMonoid F] [LinearOrder F] [Library F] [RapidJsonDocument D F] in
theorem keyOf_enabled [Double F] {v : RJValue F}
    (h : enabled stringEnabled boolEnabled numEnabled v = true) : ∃ k, keyOf v = some k := by
  cases v with
  | bool | string | number => exact ⟨_, rfl⟩
  | null | array | object => cases h

theorem distinctRight (toPointer : Str) {docs : List D}
    (hdocs : ∀ json ∈ docs, ∀ v, param params 0 json = some v →
      enabled stringEnabled boolEnabled numEnabled v = true → Stored v ∧ Exact v) :
    DistinctRight stringEnabled boolEnabled numEnabled params toPointer docs := by
  obtain ⟨keys, hterminate, hnodup, hkeys⟩ :=
    terminate_distinct stringEnabled boolEnabled numEnabled params toPointer docs
  have hmap : (keys.map keyValue).map jsonValue = keys.map reported := by
    rw [List.map_map]
    rfl
  refine ⟨_, hterminate, by rw [hmap]; exact hnodup.map reported_injective, fun w => ?_⟩
  rw [hmap, List.mem_map]
  constructor
  · rintro ⟨k, hk, rfl⟩
    obtain ⟨json, hjson, v, hv, he, hkey⟩ := (hkeys k).mp hk
    obtain ⟨hs, hexact⟩ := hdocs json hjson v hv he
    exact ⟨json, hjson, v, hv, he, jsonValue_eq_reported hkey hs hexact⟩
  · rintro ⟨json, hjson, v, hv, he, rfl⟩
    obtain ⟨k, hkey⟩ := keyOf_enabled he
    obtain ⟨hs, hexact⟩ := hdocs json hjson v hv he
    exact ⟨k, (hkeys k).mpr ⟨json, hjson, v, hv, he, hkey⟩, (jsonValue_eq_reported hkey hs hexact).symm⟩

theorem exact_of_distinctRight {toPointer : Str} {docs : List D}
    (hstored : ∀ json ∈ docs, ∀ v, param params 0 json = some v → Stored v)
    (h : DistinctRight stringEnabled boolEnabled numEnabled params toPointer docs) {json : D}
    (hjson : json ∈ docs) {v : RJValue F} (hv : param params 0 json = some v)
    (he : enabled stringEnabled boolEnabled numEnabled v = true) : Exact v := by
  obtain ⟨vs, hvs, -, hmem⟩ := h
  obtain ⟨keys, hterminate, -, hkeys⟩ :=
    terminate_distinct stringEnabled boolEnabled numEnabled params toPointer docs
  obtain rfl := RJValue.array.inj (hvs.symm.trans hterminate)
  obtain ⟨u, hu, hvalue⟩ := List.mem_map.mp ((hmem (jsonValue v)).mpr ⟨json, hjson, v, hv, he, rfl⟩)
  obtain ⟨k, hk, rfl⟩ := List.mem_map.mp hu
  obtain ⟨other, hother, w, hw, -, hkey⟩ := (hkeys k).mp hk
  exact exact_of_reported hkey (hstored other hother w hw) hvalue.symm

end Distinct

/-- **Different values are kept apart**, and reported with their own values, exactly if the conversions
lose nothing: by `GROUP` for the values that are grouped, by `DISTINCT` for the enabled ones. -/
theorem values_kept_apart_iff (toPointer : Str) (docs : List D) :
    (∀ (groupBy : IValueProvider D F) (protoAgg : IAggregator D F) (groupAs : Str),
      (∀ json ∈ docs, ∃ v, Groupable groupBy json v) →
        (GroupsRight toPointer groupBy protoAgg groupAs docs ↔
          ∀ json ∈ docs, ∀ v, valueOf groupBy json = some v → Exact v)) ∧
      ∀ (stringEnabled boolEnabled numEnabled : Bool) (params : List (IValueProvider D F)),
        (∀ json ∈ docs, ∀ v, param params 0 json = some v → Stored v) →
          (DistinctRight stringEnabled boolEnabled numEnabled params toPointer docs ↔
            ∀ json ∈ docs, ∀ v, param params 0 json = some v →
              enabled stringEnabled boolEnabled numEnabled v = true → Exact v) := by
  refine ⟨fun groupBy protoAgg groupAs hdocs => ⟨fun h json hjson v hv => ?_, fun h => ?_⟩,
    fun stringEnabled boolEnabled numEnabled params hstored => ⟨fun h json hjson v hv he => ?_, fun h => ?_⟩⟩
  · exact exact_of_groupsRight hdocs h hjson hv
  · refine groupsRight toPointer protoAgg groupAs fun json hjson => ?_
    obtain ⟨v, hv⟩ := hdocs json hjson
    exact ⟨v, hv, h json hjson v hv.value⟩
  · exact exact_of_distinctRight hstored h hjson hv he
  · exact distinctRight toPointer fun json hjson v hv he => ⟨hstored json hjson v hv, h json hjson v hv he⟩

end Aggregators

/-! ### Large identifiers -/

instance : Library Rounded where
  regular bins min max :=
    let axis := Library.regular bins min.val max.val
    { size := axis.size
      index := fun x => axis.index x.val
      lower := fun i => (axis.lower i).map Rounded.mk
      upper := fun i => (axis.upper i).map Rounded.mk }
  arrayDouble vs := ⟨vs.length⟩

def byA : IValueProvider (FlatDocument Rounded) Rounded := .pointer (ascii "/a")

def ofInt (z : ℤ) : FlatDocument Rounded := ⟨[(ascii "/a", .number (.int z))]⟩

/-- Two documents that a double tells apart, and a string. -/
def smallDocs : List (FlatDocument Rounded) := [ofInt 1, ofInt (-7), ⟨[(ascii "/a", .string (ascii "x"))]⟩]

theorem values_kept_apart_iff_small :
    (GroupsRight [] byA (.basic .count [] []) [] smallDocs ↔
      ∀ json ∈ smallDocs, ∀ v, valueOf byA json = some v → Exact v) ∧
      (DistinctRight true true true [byA] [] smallDocs ↔
        ∀ json ∈ smallDocs, ∀ v, param [byA] 0 json = some v → enabled true true true v = true → Exact v) := by
  have hrange : ∀ z : ℤ, z = 1 ∨ z = -7 → -2 ^ 63 ≤ z ∧ z < 2 ^ 64 := by omega
  refine ⟨(values_kept_apart_iff [] smallDocs).1 byA (.basic .count [] []) [] fun json hjson => ?_,
    (values_kept_apart_iff [] smallDocs).2 true true true [byA] fun json hjson v hv => ?_⟩
  · simp only [smallDocs, List.mem_cons, List.not_mem_nil, or_false] at hjson
    obtain rfl | rfl | rfl := hjson
    · exact ⟨_, rfl, rfl, hrange 1 (.inl rfl)⟩
    · exact ⟨_, rfl, rfl, hrange (-7) (.inr rfl)⟩
    · exact ⟨_, rfl, rfl, trivial⟩
  · simp only [smallDocs, List.mem_cons, List.not_mem_nil, or_false] at hjson
    obtain rfl | rfl | rfl := hjson
    · obtain rfl : RJValue.number (.int 1) = v := Option.some.inj hv
      exact hrange 1 (.inl rfl)
    · obtain rfl : RJValue.number (.int (-7)) = v := Option.some.inj hv
      exact hrange (-7) (.inr rfl)
    · obtain rfl : RJValue.string (ascii "x") = v := Option.some.inj hv
      trivial

/-- **Identifiers from `2 ^ 53` on share a group.** -/
theorem not_groupsRight_identifiers :
    ¬ GroupsRight [] byA (.basic .count [] []) [] [ofInt (2 ^ 53), ofInt (2 ^ 53 + 1)] := by
  intro h
  have hdocs : ∀ json ∈ [ofInt (2 ^ 53), ofInt (2 ^ 53 + 1)], ∃ v, Groupable byA json v := by
    intro json hjson
    simp only [List.mem_cons, List.not_mem_nil, or_false] at hjson
    obtain rfl | rfl := hjson
    · exact ⟨_, rfl, rfl, by norm_num [Stored]⟩
    · exact ⟨_, rfl, rfl, by norm_num [Stored]⟩
  have hexact := exact_of_groupsRight hdocs h (List.mem_cons_of_mem _ List.mem_cons_self) rfl
  have heq : roundTo 53 (((2 ^ 53 + 1 : ℤ)) : ℚ) = ((2 ^ 53 + 1 : ℤ) : ℚ) := hexact
  have htie := roundTo_two_pow_add_one (p := 53) (by norm_num)
  rw [Int.cast_add, Int.cast_pow, Int.cast_ofNat, Int.cast_one, htie] at heq
  norm_num at heq

end Joda.Aggregation.GroupValues
