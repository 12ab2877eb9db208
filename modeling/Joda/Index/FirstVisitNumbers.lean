import Joda.Index.FirstVisitRanges
import Joda.Index.HistogramBuild
import Mathlib.Data.List.Sort

/-! # The number index of the first visit

The minimum of the numbers is tracked rightly, but a new minimum is not compared with the maximum, so
that the first number counts as the greatest only if it comes again or is an end of `int64_t`
(`trackAll_extremes`). The index of the parent gets the path of the visited node. -/

namespace Joda.Index.FirstVisit

open Joda.Values.Value Joda.Values.Pointer Joda.Values.PointerSet
open Joda.Index.Query Joda.Index.Trie Joda.Index.Histogram Joda.Lib.Ranges

variable {F : Type}

/-! ### Extremes -/

namespace NumberStats

variable {s : NumberStats} {v w : ℤ} {vs : List ℤ}

def trackAll (vs : List ℤ) (s : NumberStats) : NumberStats := vs.foldl (fun s v => s.track v) s

theorem track_intMin : (s.track v).intMin = min v s.intMin := by
  unfold track
  split_ifs with h1 h2
  · exact (min_eq_left (le_of_lt h1)).symm
  · exact (min_eq_right (not_lt.mp h1)).symm
  · exact (min_eq_right (not_lt.mp h1)).symm

theorem track_intMax :
    (s.track v).intMax = if v < s.intMin then s.intMax else max s.intMax v := by
  unfold track
  split_ifs with h1 h2
  · rfl
  · exact (max_eq_right (le_of_lt h2)).symm
  · exact (max_eq_left (not_lt.mp h2)).symm

theorem trackAll_cons : trackAll (v :: vs) s = trackAll vs (s.track v) := rfl

theorem intMin_le_trackAll (vs : List ℤ) (s : NumberStats) :
    (trackAll vs s).intMin ≤ s.intMin ∧ ∀ v ∈ vs, (trackAll vs s).intMin ≤ v := by
  induction vs generalizing s with
  | nil => exact ⟨le_refl _, by simp⟩
  | cons v vs ih =>
    obtain ⟨h1, h2⟩ := ih (s.track v)
    rw [track_intMin] at h1
    exact ⟨by rw [trackAll_cons]; omega, List.forall_mem_cons.mpr ⟨by rw [trackAll_cons]; omega, h2⟩⟩

theorem trackAll_intMin_mem (vs : List ℤ) (s : NumberStats) :
    (trackAll vs s).intMin = s.intMin ∨ (trackAll vs s).intMin ∈ vs := by
  induction vs generalizing s with
  | nil => exact .inl rfl
  | cons v vs ih =>
    rw [trackAll_cons]
    rcases ih (s.track v) with h | h
    · rw [h, track_intMin]
      rcases le_total v s.intMin with hle | hle
      · exact .inr (by simp [hle])
      · exact .inl (by simp [hle])
    · exact .inr (List.mem_cons_of_mem _ h)

theorem le_track_intMax : s.intMax ≤ (s.track v).intMax := by
  rw [track_intMax]
  split_ifs <;> omega

theorem le_trackAll_intMax (vs : List ℤ) (s : NumberStats) : s.intMax ≤ (trackAll vs s).intMax := by
  induction vs generalizing s with
  | nil => exact le_refl _
  | cons v vs ih => exact le_trans le_track_intMax (ih (s.track v))

theorem trackAll_intMax_mem (vs : List ℤ) (s : NumberStats) :
    (trackAll vs s).intMax = s.intMax ∨ (trackAll vs s).intMax ∈ vs := by
  induction vs generalizing s with
  | nil => exact .inl rfl
  | cons v vs ih =>
    rw [trackAll_cons]
    rcases ih (s.track v) with h | h
    · rw [h, track_intMax]
      split_ifs
      · exact .inl rfl
      · rcases le_total s.intMax v with hle | hle
        · exact .inr (by simp [hle])
        · exact .inl (max_eq_left hle)
    · exact .inr (List.mem_cons_of_mem _ h)

/-- A number that is no new minimum counts for the maximum. -/
theorem le_trackAll_of_mem (hw : w ∈ vs) (h : s.intMin ≤ w) : w ≤ (trackAll vs s).intMax := by
  induction vs generalizing s with
  | nil => cases hw
  | cons v vs ih =>
    rw [trackAll_cons]
    rcases List.mem_cons.mp hw with rfl | hw
    · have htrack : w ≤ (s.track w).intMax := by
        rw [track_intMax, if_neg (by omega)]
        exact le_max_right _ _
      exact le_trans htrack (le_trackAll_intMax vs _)
    · exact ih hw (by rw [track_intMin]; omega)

end NumberStats

open NumberStats

/-- **When the maximum is right**: the first number is not greater than all others, or it is an end of
`int64_t`. -/
def MaxTracked : List ℤ → Prop
  | [] => True
  | v :: vs => (∃ w ∈ vs, v ≤ w) ∨ v = 2 ^ 63 - 1 ∨ v = -2 ^ 63

/-- The maximum that is tracked is right. -/
theorem trackAll_intMax (numberValues : Option (List ℤ)) {v : ℤ} {vs : List ℤ}
    (hint : ∀ w ∈ v :: vs, -2 ^ 63 ≤ w ∧ w < 2 ^ 63) :
    ((∀ w ∈ v :: vs, w ≤ (trackAll (v :: vs) (.empty numberValues)).intMax) ∧
      (trackAll (v :: vs) (.empty numberValues)).intMax ∈ v :: vs) ↔ MaxTracked (v :: vs) := by
  obtain ⟨hv, hvs⟩ := List.forall_mem_cons.mp hint
  rw [trackAll_cons]
  generalize hs : (NumberStats.empty numberValues).track v = s
  have hmin : s.intMin = v := by
    rw [← hs, track_intMin]
    exact min_eq_left (by show v ≤ 2 ^ 63 - 1; omega)
  have hmax : s.intMax = if v < 2 ^ 63 - 1 then -2 ^ 63 else v := by
    rw [← hs, track_intMax]
    refine if_congr Iff.rfl rfl (max_eq_right ?_)
    exact hv.1
  have hmem := trackAll_intMax_mem vs s
  have hle := le_trackAll_intMax vs s
  constructor
  · rintro ⟨hall, -⟩
    by_contra hnot
    unfold MaxTracked at hnot
    rw [not_or, not_or] at hnot
    obtain ⟨hless, h1, h2⟩ := hnot
    rw [if_pos (by omega)] at hmax
    have hfirst := hall v List.mem_cons_self
    rcases hmem with h | h
    · omega
    · exact hless ⟨_, h, hfirst⟩
  · intro hright
    -- the first number is at most the maximum
    have hfirst : v ≤ (trackAll vs s).intMax := by
      rcases hright with ⟨w, hw, hvw⟩ | rfl | rfl
      · exact le_trans hvw (le_trackAll_of_mem hw (by omega))
      · rw [if_neg (by omega)] at hmax
        omega
      · rw [if_pos (by omega)] at hmax
        omega
    refine ⟨List.forall_mem_cons.mpr ⟨hfirst, fun w hw => ?_⟩, ?_⟩
    · rcases le_total v w with hvw | hwv
      · exact le_trackAll_of_mem hw (by omega)
      · exact le_trans hwv hfirst
    · rcases hmem with h | h
      · refine List.mem_cons.mpr (.inl ?_)
        split_ifs at hmax <;> omega
      · exact List.mem_cons_of_mem _ h

theorem extremes_iff {least greatest : ℤ} {entries : List (ℤ × ℕ)} :
    Extremes least greatest entries ↔ least ∈ entries.map Prod.fst ∧ greatest ∈ entries.map Prod.fst ∧
      ∀ v ∈ entries.map Prod.fst, least ≤ v ∧ v ≤ greatest := by
  rw [List.forall_mem_map, List.mem_map, List.mem_map]
  exact ⟨fun h => ⟨h.least, h.greatest, h.bounds⟩, fun h => ⟨h.1, h.2.1, h.2.2⟩⟩

/-- **The extremes of the numbers.** -/
theorem trackAll_extremes (numberValues : Option (List ℤ)) {entries : List (ℤ × ℕ)}
    (hint : Int64 entries) (hne : entries ≠ []) :
    Extremes (trackAll (entries.map Prod.fst) (.empty numberValues)).intMin
        (trackAll (entries.map Prod.fst) (.empty numberValues)).intMax entries ↔
      MaxTracked (entries.map Prod.fst) := by
  have hvalues : ∀ w ∈ entries.map Prod.fst, -2 ^ 63 ≤ w ∧ w < 2 ^ 63 :=
    List.forall_mem_map.mpr hint
  rw [extremes_iff]
  obtain ⟨e, es, rfl⟩ := List.exists_cons_of_ne_nil hne
  rw [List.map_cons] at hvalues ⊢
  rw [← trackAll_intMax numberValues hvalues]
  have hle := (intMin_le_trackAll (e.1 :: es.map Prod.fst) (.empty numberValues)).2
  have hleast : (trackAll (e.1 :: es.map Prod.fst) (.empty numberValues)).intMin ∈
      e.1 :: es.map Prod.fst := by
    rw [trackAll_cons]
    rcases trackAll_intMin_mem (es.map Prod.fst) ((NumberStats.empty numberValues).track e.1) with h | h
    · rw [h, track_intMin]
      obtain ⟨-, hlt⟩ := hvalues e.1 List.mem_cons_self
      exact List.mem_cons.mpr (.inl (min_eq_left (by show e.1 ≤ 2 ^ 63 - 1; omega)))
    · exact List.mem_cons_of_mem _ h
  constructor
  · rintro ⟨-, h, hall⟩
    exact ⟨fun w hw => (hall w hw).2, h⟩
  · rintro ⟨hall, h⟩
    exact ⟨hleast, h, fun w hw => ⟨hle w hw, hall w hw⟩⟩

/-! ### The numbers at a path -/

/-- `GetInt64` of the value at a path. -/
def intAt (docs : List (RJValue F)) (path : Str) (k : ℕ) : ℤ :=
  match pathAt docs path k with
  | some (.number n) => n.getInt
  | _ => 0

/-- The number at the path, with its document. -/
def entryAt (docs : List (RJValue F)) (path : Str) (k : ℕ) : Option (ℤ × ℕ) :=
  match pathAt docs path k with
  | some (.number n) => some (n.getInt, k)
  | _ => none

/-- The numbers at the path, in the order of the documents. -/
def numbersAt (docs : List (RJValue F)) (path : Str) (R : List ℕ) : List (ℤ × ℕ) :=
  (elements R).filterMap (entryAt docs path)

/-- A document has a number that is no `int64_t`. -/
def Unsupported (docs : List (RJValue F)) (path : Str) (R : List ℕ) : Prop :=
  ∃ k ∈ elements R, ∃ n, pathAt docs path k = some (.number n) ∧ n.isInt64 = false

/-- **A number index that is right** for a path: the documents of its ranges have numbers of 64 bits
there, the extremes are theirs, the recorded values are theirs in order, and the histogram is built from
them, its range being computed without overflow. -/
structure Sound (docs : List (RJValue F)) (path : Str) (values : Option (List ℤ)) (index : NumberIndex) :
    Prop where
  jsonPath : index.jsonPath = path
  fits : ∀ k ∈ elements index.relevantDocuments,
    ∃ n, pathAt docs path k = some (.number n) ∧ n.isInt64 = true
  extremes : elements index.relevantDocuments ≠ [] → Extremes index.minValue index.maxValue
    (entriesAt (intAt docs path) (pairs index.relevantDocuments))
  recorded : ∀ vs, values = some vs → vs = (elements index.relevantDocuments).map (intAt docs path)
  range : elements index.relevantDocuments ≠ [] → index.maxValue - index.minValue + 1 < 2 ^ 63
  split : ∃ h, initialSplit (intAt docs index.jsonPath) 100 (pairs index.relevantDocuments)
    index.minValue index.maxValue = some h
  splitWithValues : ∀ vs, values = some vs → ∃ h, initialSplitWithValues vs 100
    (pairs index.relevantDocuments) index.minValue index.maxValue = some h

/-- **When the number index is right**: no number is followed by an array in its range, the maximum is
tracked rightly, and buckets of equal width cover the numbers. -/
structure NumbersRight (docs : List (RJValue F)) (path : Str) (R : List ℕ) : Prop where
  followed : ∀ p ∈ pairs R, ∀ k, p.1 ≤ k → k < p.2 → HasType (pathAt docs path) .number k →
    isArray (pathAt docs path (k + 1)) = false
  tracked : MaxTracked ((numbersAt docs path R).map Prod.fst)
  buildable : ∀ least greatest, Extremes least greatest (numbersAt docs path R) →
    Buildable 100 least greatest (numbersAt docs path R)

theorem documents_pairs {l : List ℕ} (h : Valid l) : Histogram.documents (pairs l) = elements l := by
  induction h with
  | nil => rfl
  | cons le lt tail ih =>
    rw [elements, ← ih]
    rfl

/-- The numbers of valid ranges are in ascending order. -/
theorem elements_sorted {l : List ℕ} (h : Valid l) : (elements l).Pairwise (· < ·) := by
  induction h with
  | nil => exact List.Pairwise.nil
  | @cons lo hi rest le lt tail ih =>
    rw [elements, List.pairwise_append]
    refine ⟨List.pairwise_lt_range', ih, fun k hk j hj => ?_⟩
    have := tail.lt_elements lt j hj
    have := (mem_range'.mp hk).2
    omega

theorem entryAt_eq_some {docs : List (RJValue F)} {path : Str} {k : ℕ} {e : ℤ × ℕ} :
    entryAt docs path k = some e ↔
      ∃ n, pathAt docs path k = some (.number n) ∧ e = (n.getInt, k) := by
  unfold entryAt
  split
  · next n hn => exact ⟨fun h => ⟨n, hn, (Option.some.inj h).symm⟩, fun ⟨m, hm, he⟩ => by
      obtain rfl := RJValue.number.inj (Option.some.inj (hn.symm.trans hm))
      rw [he]⟩
  · next hne => exact ⟨fun h => (Option.some_ne_none e h.symm).elim, fun ⟨n, hn, _⟩ => (hne n hn).elim⟩

theorem hasType_number {a : ℕ → Option (RJValue F)} {k : ℕ} :
    HasType a .number k ↔ ∃ n, a k = some (.number n) := by
  unfold HasType
  constructor
  · intro h
    obtain ⟨v, hv, htype⟩ := Option.bind_eq_some_iff.mp h
    cases v with
    | number n => exact ⟨n, hv⟩
    | bool b => cases b <;> cases htype
    | _ => cases htype
  · rintro ⟨n, hn⟩
    rw [hn]
    rfl

/-- The ranges of the numbers have the numbers, in the order of the documents. -/
theorem entriesAt_eq {docs : List (RJValue F)} {path : Str} {R l : List ℕ} (hR : Valid R) (hl : Valid l)
    (h : ∀ k, k ∈ elements l ↔ k ∈ elements R ∧ HasType (pathAt docs path) .number k) :
    entriesAt (intAt docs path) (pairs l) = numbersAt docs path R := by
  have hfilter : elements l = (elements R).filter fun k => (entryAt docs path k).isSome := by
    refine (elements_sorted hl).eq_of_mem_iff ((elements_sorted hR).filter _) fun k => ?_
    rw [h k, List.mem_filter, hasType_number, Option.isSome_iff_exists]
    refine and_congr_right fun _ => ⟨fun ⟨n, hn⟩ => ⟨_, entryAt_eq_some.mpr ⟨n, hn, rfl⟩⟩,
      fun ⟨e, he⟩ => ?_⟩
    obtain ⟨n, hn, -⟩ := entryAt_eq_some.mp he
    exact ⟨n, hn⟩
  unfold entriesAt numbersAt
  rw [documents_pairs hl, hfilter]
  clear hfilter h
  induction elements R with
  | nil => rfl
  | cons k ks ih =>
    cases hk : entryAt docs path k with
    | none => rw [List.filter_cons_of_neg (by rw [hk]; simp), List.filterMap_cons_none hk, ih]
    | some e =>
      obtain ⟨n, hn, rfl⟩ := entryAt_eq_some.mp hk
      rw [List.filter_cons_of_pos (by rw [hk]; rfl), List.filterMap_cons_some hk, List.map_cons, ih,
        intAt, hn]

/-! ### The numbers of a visit -/

section Visit

variable {a : ℕ → Option (RJValue F)} {l : List ℕ} {s : NumberStats}

theorem track_unsupported {v : ℤ} : (s.track v).unsupportedDouble = s.unsupportedDouble := by
  unfold track
  split_ifs <;> rfl

theorem unsupported_iff : (l.foldl (fun s k => addSeen addNumber (a k) s) s).unsupportedDouble = true ↔
    s.unsupportedDouble = true ∨ ∃ k ∈ l, ∃ n, a k = some (.number n) ∧ n.isInt64 = false := by
  induction l generalizing s with
  | nil => simp
  | cons k l ih =>
    rw [List.foldl_cons, ih, List.exists_mem_cons_iff, ← or_assoc]
    refine or_congr ?_ Iff.rfl
    unfold addSeen
    split
    · next n hn =>
      unfold addNumber
      split_ifs with hint
      · rw [track_unsupported, hn]
        simp [hint]
      · simp [hn, hint]
    · next hne =>
      exact ⟨Or.inl, fun h => h.resolve_right fun ⟨n, hn, _⟩ => hne n hn⟩

theorem parent_unsupported_iff :
    (l.foldl (fun s k => addSeen addParentNumber (a k) s) s).unsupportedDouble = true ↔
      s.unsupportedDouble = true ∨ ∃ k ∈ l, ∃ d, a k = some (.number (.double d)) := by
  induction l generalizing s with
  | nil => simp
  | cons k l ih =>
    rw [List.foldl_cons, ih, List.exists_mem_cons_iff, ← or_assoc]
    refine or_congr ?_ Iff.rfl
    unfold addSeen
    split
    · next n hn =>
      rw [hn]
      cases n with
      | double d => simp [addParentNumber, Number.isInt64]
      | int z =>
        unfold addParentNumber
        split_ifs <;> simp [track_unsupported]
    · next hne =>
      exact ⟨Or.inl, fun h => h.resolve_right fun ⟨d, hd⟩ => hne _ hd⟩

theorem track_values {v : ℤ} {values : Option (List ℤ)} :
    ({ s with numberValues := values } : NumberStats).track v =
      { s.track v with numberValues := values } := by
  unfold track
  split_ifs <;> rfl

theorem trackAll_values {vs : List ℤ} {values : Option (List ℤ)} :
    trackAll vs { s with numberValues := values } = { trackAll vs s with numberValues := values } := by
  induction vs generalizing s with
  | nil => rfl
  | cons v vs ih => rw [trackAll_cons, track_values, ih, trackAll_cons]

/-- **The numbers of a visit** that are all of 64 bits. -/
theorem addSeen_foldl {docs : List (RJValue F)} {path : Str}
    (h : ∀ k ∈ l, ∀ n, pathAt docs path k = some (.number n) → n.isInt64 = true) :
    l.foldl (fun s k => addSeen addNumber (pathAt docs path k) s) s =
      { trackAll ((l.filterMap (entryAt docs path)).map Prod.fst) s with
        numberValues := s.numberValues.map fun values =>
          values ++ (l.filterMap (entryAt docs path)).map Prod.fst } := by
  induction l generalizing s with
  | nil =>
    show s = { s with numberValues := s.numberValues.map fun values => values ++ [] }
    simp
  | cons k l ih =>
    obtain ⟨hk, hl⟩ := List.forall_mem_cons.mp h
    rw [List.foldl_cons, ih hl]
    cases hentry : entryAt docs path k with
    | none =>
      rw [List.filterMap_cons_none hentry]
      have hsame : addSeen addNumber (pathAt docs path k) s = s := by
        unfold addSeen
        split
        · next n hn => rw [entryAt_eq_some.mpr ⟨n, hn, rfl⟩] at hentry; cases hentry
        · rfl
      rw [hsame]
    | some e =>
      obtain ⟨n, hn, rfl⟩ := entryAt_eq_some.mp hentry
      rw [List.filterMap_cons_some hentry, List.map_cons, trackAll_cons, hn, addSeen, addNumber,
        if_pos (hk n hn), trackAll_values]
      simp [Function.comp_def]

end Visit

/-! ### Sound indexes -/

theorem int64_numbersAt {docs : List (RJValue F)} {path : Str} {R : List ℕ}
    (h : ∀ k ∈ elements R, ∀ n, pathAt docs path k = some (.number n) → n.isInt64 = true) :
    Int64 (numbersAt docs path R) := by
  intro e he
  obtain ⟨k, hk, hentry⟩ := List.mem_filterMap.mp he
  obtain ⟨n, hn, rfl⟩ := entryAt_eq_some.mp hentry
  have hint := h k hk n hn
  cases n with
  | int z => exact of_decide_eq_true hint
  | double d => cases hint

theorem sound_iff {docs : List (RJValue F)} {path : Str} {R l : List ℕ} {values : Option (List ℤ)}
    (hvalues : ∀ vs, values = some vs → vs = []) (hR : Valid R) (hl : Valid l)
    (hmem : ∀ k, k ∈ elements l ↔ FiledIn (pathAt docs path) R .number k)
    (hall : ∀ k ∈ elements R, ∀ n, pathAt docs path k = some (.number n) → n.isInt64 = true) :
    Sound docs path (values.map fun vs => vs ++ (numbersAt docs path R).map Prod.fst)
      ⟨path, (trackAll ((numbersAt docs path R).map Prod.fst) (.empty values)).intMin,
        (trackAll ((numbersAt docs path R).map Prod.fst) (.empty values)).intMax, l, none⟩ ↔
      NumbersRight docs path R := by
  have hint := int64_numbersAt hall
  -- the ranges have the numbers, once no array follows one
  have hentries : (∀ p ∈ pairs R, ∀ k, p.1 ≤ k → k < p.2 → HasType (pathAt docs path) .number k →
      isArray (pathAt docs path (k + 1)) = false) →
      entriesAt (intAt docs path) (pairs l) = numbersAt docs path R := fun hfollowed =>
    entriesAt_eq hR hl fun k => (hmem k).trans (filedIn_of_followed hR hfollowed k)
  have hnil : ∀ {e}, entriesAt (intAt docs path) (pairs l) = e → (elements l ≠ [] ↔ e ≠ []) := by
    rintro _ rfl
    rw [entriesAt, documents_pairs hl, Ne, Ne, List.map_eq_nil_iff]
  have hextremes := trackAll_extremes values hint
  generalize hs : trackAll ((numbersAt docs path R).map Prod.fst) (.empty values) = s at *
  constructor
  · intro h
    have hfollowed := followed_of_filedIn (a := pathAt docs path) (R := R) (t := .number)
      fun k hk => hasType_number.mpr
        (let ⟨n, hn, _⟩ := h.fits k ((hmem k).mpr hk); ⟨n, hn⟩)
    have heq := hentries hfollowed
    have hright : numbersAt docs path R ≠ [] → Extremes s.intMin s.intMax (numbersAt docs path R) :=
      fun hne => heq ▸ h.extremes ((hnil heq).mpr hne)
    refine ⟨hfollowed, ?_, fun least greatest hends => ?_⟩
    · by_cases hne : numbersAt docs path R = []
      · rw [hne]
        trivial
      · exact (hextremes hne).mp (hright hne)
    · have hne : numbersAt docs path R ≠ [] := by
        obtain ⟨e, he, -⟩ := hends.least
        exact List.ne_nil_of_mem he
      obtain ⟨rfl, rfl⟩ := (hright hne).unique hends
      refine (build_iff hint hends).mp ⟨h.range ((hnil heq).mpr hne), ?_⟩
      rw [← heq]
      exact h.split
  · intro h
    have heq := hentries h.followed
    have hright : numbersAt docs path R ≠ [] → Extremes s.intMin s.intMax (numbersAt docs path R) :=
      fun hne => (hextremes hne).mpr h.tracked
    have hsplit : ∃ h, build 100 s.intMin s.intMax (numbersAt docs path R) = some h := by
      by_cases hne : numbersAt docs path R = []
      · rw [hne]
        exact build_nil _ _ _
      · exact ((build_iff hint (hright hne)).mpr (h.buildable _ _ (hright hne))).2
    have hrecorded : (numbersAt docs path R).map Prod.fst = (elements l).map (intAt docs path) := by
      rw [← heq, entriesAt, documents_pairs hl, List.map_map]
      rfl
    have hvs : ∀ vs, (values.map fun vs => vs ++ (numbersAt docs path R).map Prod.fst) = some vs →
        vs = (elements l).map (intAt docs path) := by
      intro vs h
      obtain ⟨vs', hvs', rfl⟩ := Option.map_eq_some_iff.mp h
      rw [hvalues vs' hvs', List.nil_append, hrecorded]
    refine ⟨rfl, fun k hk => ?_, fun hne => ?_, hvs, fun hne => ?_, ?_, fun vs hv => ?_⟩
    · obtain ⟨hkR, htype⟩ := (filedIn_of_followed hR h.followed k).mp ((hmem k).mp hk)
      obtain ⟨n, hn⟩ := hasType_number.mp htype
      exact ⟨n, hn, hall k hkR n hn⟩
    · rw [heq]
      exact hright ((hnil heq).mp hne)
    · have hends := hright ((hnil heq).mp hne)
      exact (h.buildable _ _ hends).range
    · rw [← heq] at hsplit
      exact hsplit
    · rw [hvs vs hv, ← documents_pairs hl, initialSplitWithValues_eq]
      rw [← heq] at hsplit
      exact hsplit

/-! ### The indexes that are left -/

variable [Double F] {docs : List (RJValue F)} {query : AdaptiveIndexQuery}
  {node parentNode parentDocRangeNode : UnionTreeNode} {pass : Pass}

/-- The number index the visit leaves on the node, before its histogram is built. -/
def indexOfNode (pass : Pass) (node : UnionTreeNode) : Option NumberIndex :=
  createNumberIndex pass.node.numbers (pass.node.ranges.documents .number) node.jsonPath
    node.numberIndex

/-- The number index the visit leaves on the parent it fills. -/
def indexOfParent (pass : Pass) (node parentNode : UnionTreeNode) : Option NumberIndex :=
  createNumberIndex pass.parent.numbers (pass.parent.ranges.documents .number) node.jsonPath
    parentNode.numberIndex

/-- **When the number indexes of the first visit are right.** -/
theorem numberIndex_sound (hpath : node.jsonPath = query.propertyPath)
    (hnode : node.numberIndex = none)
    (hparent : (parentNode.jsonPath == parentDocRangeNode.jsonPath) = false →
      parentNode.numberIndex = none)
    (hne : parentNode.jsonPath ≠ node.jsonPath) (hR : Valid (parentDocRangeNode.documents .object))
    (h : firstVisit docs query node parentNode parentDocRangeNode = some pass) :
    ((∀ index, indexOfNode pass node = some index →
        Sound docs node.jsonPath pass.node.numbers.numberValues index) ∧
      ((parentNode.jsonPath == parentDocRangeNode.jsonPath) = false →
        ∀ index, indexOfParent pass node parentNode = some index →
          Sound docs parentNode.jsonPath none index)) ↔
      if parentNode.jsonPath == parentDocRangeNode.jsonPath then
        Unsupported docs node.jsonPath (parentDocRangeNode.documents .object) ∨
          NumbersRight docs node.jsonPath (parentDocRangeNode.documents .object)
      else
        ∃ k ∈ elements (parentDocRangeNode.documents .object), ∃ d,
          pathAt docs parentNode.jsonPath k = some (.number (.double d)) := by
  obtain ⟨hvisited, hranges, -⟩ := visitRanges_spec hR h
  have hnumbers := hvisited.numbers
  have hparentNumbers := hvisited.parentNumbers
  generalize hR' : parentDocRangeNode.documents .object = R at *
  cases hdirect : parentNode.jsonPath == parentDocRangeNode.jsonPath with
  | true =>
    rw [hdirect] at hnumbers hranges
    have hseen : seenAt docs true query parentNode.jsonPath = pathAt docs node.jsonPath := by
      rw [hpath]
      rfl
    rw [hseen] at hnumbers hranges
    rw [if_pos rfl]
    by_cases hunsupported : Unsupported docs node.jsonPath R
    · have hnodeUnsupported : pass.node.numbers.unsupportedDouble = true := by
        rw [hnumbers, unsupported_iff]
        exact .inr hunsupported
      refine ⟨fun _ => .inl hunsupported, fun _ => ⟨fun index hindex => ?_, fun h => by cases h⟩⟩
      rw [indexOfNode, createNumberIndex, if_pos hnodeUnsupported, hnode] at hindex
      cases hindex
    · have hall : ∀ k ∈ elements R, ∀ n, pathAt docs node.jsonPath k = some (.number n) →
          n.isInt64 = true := fun k hk n hn => by
        by_contra hint
        exact hunsupported ⟨k, hk, n, hn, Bool.not_eq_true _ ▸ hint⟩
      have hsupported : ¬ pass.node.numbers.unsupportedDouble = true := by
        rw [hnumbers, unsupported_iff]
        exact fun h => hunsupported (h.resolve_left Bool.false_ne_true)
      have hindex : indexOfNode pass node = some ⟨node.jsonPath, pass.node.numbers.intMin,
          pass.node.numbers.intMax, pass.node.ranges.documents .number, none⟩ := if_neg hsupported
      obtain ⟨hvalid, hmem⟩ := recordRanges_empty (a := pathAt docs node.jsonPath) hR .number
      rw [← hranges] at hvalid hmem
      rw [addSeen_foldl hall] at hnumbers
      rw [or_iff_right hunsupported, hindex, hnumbers, ← sound_iff ?_ hR hvalid hmem hall]
      · exact ⟨fun h => h.1 _ rfl, fun h => ⟨fun index hindex => Option.some.inj hindex ▸ h,
          fun h => by cases h⟩⟩
      · intro vs hvs
        cases hcontent : query.content with
        | INT z =>
          rw [hcontent] at hvs
          exact (Option.some.inj hvs).symm
        | _ =>
          rw [hcontent] at hvs
          cases hvs
  | false =>
    rw [hdirect] at hnumbers
    have hparentNumbers := hparentNumbers hdirect
    rw [if_neg Bool.false_ne_true]
    constructor
    · rintro ⟨-, hsound⟩
      by_contra hnone
      have hsupported : ¬ pass.parent.numbers.unsupportedDouble = true := by
        rw [hparentNumbers, parent_unsupported_iff]
        exact fun h => hnone (h.resolve_left Bool.false_ne_true)
      exact hne (hsound rfl _ (if_neg hsupported)).jsonPath.symm
    · rintro ⟨k, hk, d, hd⟩
      have hparentUnsupported : pass.parent.numbers.unsupportedDouble = true := by
        rw [hparentNumbers, parent_unsupported_iff]
        exact .inr ⟨k, hk, d, hd⟩
      have hseen : seenAt docs false query parentNode.jsonPath k = some (.number (.double d)) := by
        obtain ⟨doc, hdoc, hvalue⟩ := Option.bind_eq_some_iff.mp hd
        rw [seenAt, hdoc, Option.bind_some, seen, if_neg Bool.false_ne_true, hvalue]
      have hnodeUnsupported : pass.node.numbers.unsupportedDouble = true := by
        rw [hnumbers, unsupported_iff]
        exact .inr ⟨k, hk, _, hseen, rfl⟩
      refine ⟨fun index hindex => ?_, fun _ index hindex => ?_⟩
      · rw [indexOfNode, createNumberIndex, if_pos hnodeUnsupported, hnode] at hindex
        cases hindex
      · rw [indexOfParent, createNumberIndex, if_pos hparentUnsupported, hparent hdirect] at hindex
        cases hindex

/-- `{"a":1}` and `{"a":5}` -/
def risingDocs : List (RJValue Float) :=
  [.object [(ascii "a", .number (.int 1))], .object [(ascii "a", .number (.int 5))]]

theorem numberIndex_sound_rising : ∃ pass,
    firstVisit risingDocs ⟨ascii "/a", .INT 3, .LT, .NONE⟩ (.unvisited (ascii "/a")) rootOfTwo
      rootOfTwo = some pass ∧
      (((∀ index, indexOfNode pass (.unvisited (ascii "/a")) = some index →
          Sound risingDocs (ascii "/a") pass.node.numbers.numberValues index) ∧
        ((ascii "/" == ascii "/") = false →
          ∀ index, indexOfParent pass (.unvisited (ascii "/a")) rootOfTwo = some index →
            Sound risingDocs (ascii "/") none index)) ↔
        Unsupported risingDocs (ascii "/a") [0, 1] ∨ NumbersRight risingDocs (ascii "/a") [0, 1]) := by
  have hvisit : ∃ pass, firstVisit risingDocs ⟨ascii "/a", .INT 3, .LT, .NONE⟩
      (.unvisited (ascii "/a")) rootOfTwo rootOfTwo = some pass := ⟨_, rfl⟩
  obtain ⟨pass, h⟩ := hvisit
  exact ⟨pass, h, numberIndex_sound rfl rfl (fun _ => rfl) (by decide) valid_rootOfTwo h⟩

/-- `{"a":5}` and `{"a":1}` -/
def fallingDocs : List (RJValue Float) :=
  [.object [(ascii "a", .number (.int 5))], .object [(ascii "a", .number (.int 1))]]

/-- The first number is the greatest, and the maximum stays the least `int64_t`. -/
theorem not_numberIndex_sound : ¬ ∀ (docs : List (RJValue Float)) (query : AdaptiveIndexQuery)
    (node parentNode parentDocRangeNode : UnionTreeNode) (pass : Pass),
    node.jsonPath = query.propertyPath → node.numberIndex = none →
    Valid (parentDocRangeNode.documents .object) →
    firstVisit docs query node parentNode parentDocRangeNode = some pass →
    ∀ index, indexOfNode pass node = some index →
      Sound docs node.jsonPath pass.node.numbers.numberValues index := by
  intro hall
  have hvisit : ∃ pass, firstVisit fallingDocs ⟨ascii "/a", .NONE, .EQUALS, .EXISTS⟩
      (.unvisited (ascii "/a")) rootOfTwo rootOfTwo = some pass ∧
        indexOfNode pass (.unvisited (ascii "/a")) = some ⟨ascii "/a", 1, -2 ^ 63, [0, 1], none⟩ :=
    ⟨_, rfl, rfl⟩
  obtain ⟨pass, h, hindex⟩ := hvisit
  have hsound := hall _ _ _ _ _ _ rfl rfl valid_rootOfTwo h _ hindex
  obtain ⟨e, he, -⟩ := (hsound.extremes (by decide)).least
  obtain ⟨h1, h2⟩ := (hsound.extremes (by decide)).bounds e he
  dsimp only at h1 h2
  omega

end Joda.Index.FirstVisit
