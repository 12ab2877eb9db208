import Joda.Index.Histogram
import Joda.Lib.Runs

/-! # Searches in histograms

Building and dividing keep the entries and their order; a search whose places are all those of buckets
finds what it searches for. -/

namespace Joda.Index.Histogram

open Joda.Lib.Fuel Joda.Lib.Rounding Joda.Lib.Runs Joda.Index.Query

/-! ### Filling -/

theorem Ordered.empty : Ordered HistogramBucket.empty := .leaf fun e he => by cases he

/-- The extremes of the values. -/
structure Extremes (min max : ℤ) (entries : List (ℤ × ℕ)) : Prop where
  least : ∃ e ∈ entries, e.1 = min
  greatest : ∃ e ∈ entries, e.1 = max
  bounds : ∀ e ∈ entries, min ≤ e.1 ∧ e.1 ≤ max

/-- The values are `int64_t`. -/
def Int64 (entries : List (ℤ × ℕ)) : Prop := ∀ e ∈ entries, -2 ^ 63 ≤ e.1 ∧ e.1 < 2 ^ 63

/-- A bucket that is not divided takes an entry. -/
theorem push_leaf {b : HistogramBucket} (h : Ordered b) (hleaf : b.hasSub = false) (e : ℤ × ℕ) :
    Ordered (b.push e) ∧ (b.push e).entries = b.entries ++ [e] ∧ (b.push e).hasSub = false := by
  cases h with
  | leaf bounds =>
    refine ⟨.leaf fun f hf => ?_, rfl, rfl⟩
    rcases List.mem_append.mp hf with hf | hf
    · have := bounds f hf
      constructor <;> split_ifs <;> omega
    · rw [List.mem_singleton] at hf
      subst hf
      constructor <;> split_ifs <;> omega
  | sub => cases hleaf

/-- Its extremes are those of the values. -/
theorem push_extremes {b : HistogramBucket} (h : Ordered b) (hleaf : b.hasSub = false) {e : ℤ × ℕ}
    (he : -2 ^ 63 ≤ e.1 ∧ e.1 < 2 ^ 63)
    (hb : b = HistogramBucket.empty ∨ Extremes b.min b.max b.entries) :
    Extremes (b.push e).min (b.push e).max (b.push e).entries := by
  have hbounds := (push_leaf h hleaf e).1.bounds
  cases h with
  | @leaf min max entries bounds =>
    have hself : e ∈ entries ++ [e] := List.mem_append_right _ List.mem_cons_self
    refine ⟨?_, ?_, hbounds⟩
    · rcases hb with hb | hb
      · obtain ⟨rfl, rfl, rfl⟩ := HistogramBucket.leaf.inj hb
        refine ⟨e, hself, ?_⟩
        show e.1 = if e.1 < 2 ^ 63 - 1 then e.1 else 2 ^ 63 - 1
        split_ifs <;> omega
      · obtain ⟨f, hf, hmin⟩ := hb.least
        by_cases hlt : e.1 < min
        · exact ⟨e, hself, (if_pos hlt).symm⟩
        · exact ⟨f, List.mem_append_left _ hf, hmin.trans (if_neg hlt).symm⟩
    · rcases hb with hb | hb
      · obtain ⟨rfl, rfl, rfl⟩ := HistogramBucket.leaf.inj hb
        refine ⟨e, hself, ?_⟩
        show e.1 = if -2 ^ 63 < e.1 then e.1 else -2 ^ 63
        split_ifs <;> omega
      · obtain ⟨f, hf, hmax⟩ := hb.greatest
        by_cases hlt : max < e.1
        · exact ⟨e, hself, (if_pos hlt).symm⟩
        · exact ⟨f, List.mem_append_left _ hf, hmax.trans (if_neg hlt).symm⟩
  | sub => cases hleaf

/-- The entries of one interval. -/
def part (min bucketSize : ℤ) (i : ℕ) (entries : List (ℤ × ℕ)) : List (ℤ × ℕ) :=
  entries.filter fun e => min + i * bucketSize ≤ e.1 && e.1 < min + (i + 1) * bucketSize

theorem mem_part {min bucketSize : ℤ} {i : ℕ} {entries : List (ℤ × ℕ)} {e : ℤ × ℕ} :
    e ∈ part min bucketSize i entries ↔
      e ∈ entries ∧ min + i * bucketSize ≤ e.1 ∧ e.1 < min + (i + 1) * bucketSize := by
  simp [part]

/-- Intervals of equal width follow one another. -/
theorem interval_le (min : ℤ) {bucketSize : ℤ} {i j : ℕ} (hsize : 0 < bucketSize) (h : i < j) :
    min + (i + 1) * bucketSize ≤ min + j * bucketSize := by
  have : ((i : ℤ) + 1) ≤ j := by omega
  have := mul_le_mul_of_nonneg_right this (le_of_lt hsize)
  omega

/-- One more entry is one of its own interval only. -/
theorem part_append {min bucketSize : ℤ} {i : ℕ} (hsize : 0 < bucketSize) {e : ℤ × ℕ}
    (hlo : min + i * bucketSize ≤ e.1) (hhi : e.1 < min + (i + 1) * bucketSize) (j : ℕ)
    (entries : List (ℤ × ℕ)) : part min bucketSize j (entries ++ [e]) =
      if i = j then part min bucketSize j entries ++ [e] else part min bucketSize j entries := by
  unfold part
  rw [List.filter_append]
  split_ifs with hij
  · subst hij
    simp [hlo, hhi]
  · have hout : ¬ (min + j * bucketSize ≤ e.1 ∧ e.1 < min + (j + 1) * bucketSize) := by
      rintro ⟨h1, h2⟩
      rcases lt_or_gt_of_ne hij with hlt | hlt
      · have := interval_le min hsize hlt
        omega
      · have := interval_le min hsize hlt
        omega
    simpa using hout

/-- **The buckets that are filled**: none is divided, and each has the entries of its interval so far,
with their extremes. -/
structure Grid (min bucketSize : ℤ) (entries : List (ℤ × ℕ)) (buckets : List HistogramBucket) :
    Prop where
  leaf : ∀ b ∈ buckets, b.hasSub = false
  ordered : ∀ b ∈ buckets, Ordered b
  extremes : Int64 entries →
    ∀ b ∈ buckets, b = HistogramBucket.empty ∨ Extremes b.min b.max b.entries
  parts : ∀ (i : ℕ) b, buckets[i]? = some b → b.entries = part min bucketSize i entries

theorem Grid.intervals {min bucketSize : ℤ} {entries : List (ℤ × ℕ)} {buckets : List HistogramBucket}
    (h : Grid min bucketSize entries buckets) (i : ℕ) (b : HistogramBucket)
    (hb : buckets[i]? = some b) : ∀ e ∈ b.entries,
      min + i * bucketSize ≤ e.1 ∧ e.1 < min + (i + 1) * bucketSize := fun e he => by
  rw [h.parts i b hb] at he
  exact (mem_part.mp he).2

/-- The value has a place among the buckets. -/
def Within (min bucketSize : ℤ) (count : ℕ) (value : ℤ) : Prop :=
  min ≤ value ∧ value - min < 2 ^ 63 ∧ value - min < bucketSize * count

/-- **A document is put into its bucket.** -/
theorem Grid.place {min bucketSize : ℤ} {entries : List (ℤ × ℕ)} {buckets : List HistogramBucket}
    (h : Grid min bucketSize entries buckets) (hsize : 0 < bucketSize)
    (hlength : buckets.length < 2 ^ 31) {e : ℤ × ℕ}
    (he : Within min bucketSize buckets.length e.1) :
    ∃ buckets', place min bucketSize buckets e = some buckets' ∧
      Grid min bucketSize (entries ++ [e]) buckets' ∧ buckets'.length = buckets.length ∧
      (entriesOf buckets').Perm (entriesOf buckets ++ [e]) := by
  obtain ⟨hle, hlt, hwithin⟩ := he
  have hfits := fits_of_le hle hlt hsize
  generalize ((e.1 - min) / bucketSize).toNat = i at hfits
  obtain ⟨hupper, hlower⟩ := hfits.interval hsize
  have hlow : min + i * bucketSize ≤ e.1 := by
    rcases Nat.eq_zero_or_pos i with rfl | hpos
    · simpa using hle
    · exact hlower hpos
  have hi : i < buckets.length := by
    have hplace := hfits.place
    rw [Int.tdiv_eq_ediv_of_nonneg (by omega)] at hplace
    have : (e.1 - min) / bucketSize < buckets.length :=
      Int.ediv_lt_of_lt_mul hsize (by rw [mul_comm]; exact hwithin)
    omega
  have hnum : bucketNum e.1 min bucketSize = i := hfits.bucketNum_eq (by omega)
  obtain ⟨b, hb⟩ : ∃ b, buckets[i]? = some b := ⟨_, List.getElem?_eq_getElem hi⟩
  have hmem : b ∈ buckets := List.mem_of_getElem? hb
  obtain ⟨h1, h2, h3⟩ := push_leaf (h.ordered b hmem) (h.leaf b hmem) e
  have hat : bucketAt buckets (i : ℤ) = some b := by
    unfold bucketAt
    rw [if_pos (by omega), Int.toNat_natCast]
    exact hb
  refine ⟨buckets.set i (b.push e), ?_, ⟨?_, ?_, ?_, ?_⟩, List.length_set, ?_⟩
  · unfold Histogram.place
    rw [hnum, hat, Option.map_some, Int.toNat_natCast]
  · intro c hc
    rcases List.mem_or_eq_of_mem_set hc with hc | rfl
    · exact h.leaf c hc
    · exact h3
  · intro c hc
    rcases List.mem_or_eq_of_mem_set hc with hc | rfl
    · exact h.ordered c hc
    · exact h1
  · intro hint c hc
    have hbefore := h.extremes fun f hf => hint f (List.mem_append_left _ hf)
    rcases List.mem_or_eq_of_mem_set hc with hc | rfl
    · exact hbefore c hc
    · exact Or.inr (push_extremes (h.ordered b hmem) (h.leaf b hmem)
        (hint e (List.mem_append_right _ List.mem_cons_self)) (hbefore b hmem))
  · intro j c hj
    rw [part_append hsize hlow hupper]
    by_cases hij : i = j
    · subst hij
      rw [List.getElem?_set_self hi] at hj
      obtain rfl := Option.some.inj hj
      rw [if_pos rfl, h2, h.parts i b hb]
    · rw [List.getElem?_set_ne hij] at hj
      rw [if_neg hij, h.parts j c hj]
  · exact entriesOf_set (by rw [h2]) hb

theorem Grid.foldlM {min bucketSize : ℤ} (hsize : 0 < bucketSize) :
    ∀ (entries : List (ℤ × ℕ)) {done : List (ℤ × ℕ)} {buckets : List HistogramBucket},
    Grid min bucketSize done buckets → buckets.length < 2 ^ 31 →
    (∀ e ∈ entries, Within min bucketSize buckets.length e.1) →
    ∃ buckets', entries.foldlM (Histogram.place min bucketSize) buckets = some buckets' ∧
      Grid min bucketSize (done ++ entries) buckets' ∧ buckets'.length = buckets.length ∧
      (entriesOf buckets').Perm (entriesOf buckets ++ entries)
  | [], done, buckets, h, _, _ =>
    ⟨buckets, rfl, by rw [List.append_nil]; exact h, rfl, by rw [List.append_nil]⟩
  | e :: entries, done, buckets, h, hlength, hwithin => by
    obtain ⟨he, hrest⟩ := List.forall_mem_cons.mp hwithin
    obtain ⟨b1, h1, h2, h3, h4⟩ := h.place hsize hlength he
    obtain ⟨b2, g1, g2, g3, g4⟩ := Grid.foldlM hsize entries h2 (by omega) (by rw [h3]; exact hrest)
    refine ⟨b2, ?_, ?_, by omega, g4.trans ?_⟩
    · rw [List.foldlM_cons, h1]
      exact g1
    · rwa [List.append_assoc, List.singleton_append] at g2
    · have := h4.append_right entries
      rwa [List.append_assoc, List.singleton_append] at this

/-- **New buckets** take the entries that have a place in them. -/
theorem fill_grid {min bucketSize count : ℤ} {entries : List (ℤ × ℕ)} (hsize : 0 < bucketSize)
    (h0 : 0 ≤ count) (hcount : count < 2 ^ 31)
    (hwithin : ∀ e ∈ entries, Within min bucketSize count.toNat e.1) :
    ∃ buckets, fill min bucketSize count entries = some buckets ∧
      Grid min bucketSize entries buckets ∧ buckets.length = count.toNat ∧
      (entriesOf buckets).Perm entries := by
  have hempty : ∀ b ∈ List.replicate count.toNat HistogramBucket.empty, b = HistogramBucket.empty :=
    fun b hb => List.eq_of_mem_replicate hb
  have hgrid : Grid min bucketSize [] (List.replicate count.toNat HistogramBucket.empty) := by
    refine ⟨fun b hb => by rw [hempty b hb]; rfl, fun b hb => by rw [hempty b hb]; exact .empty,
      fun _ b hb => Or.inl (hempty b hb), ?_⟩
    intro i b hb
    rw [hempty b (List.mem_of_getElem? hb)]
    rfl
  obtain ⟨buckets, h1, h2, h3, h4⟩ := Grid.foldlM hsize entries hgrid
    (by rw [List.length_replicate]; omega)
    (by rw [List.length_replicate]; exact hwithin)
  rw [List.length_replicate] at h3
  rw [entriesOf_replicate, List.nil_append] at h4
  exact ⟨buckets, h1, h2, h3, h4⟩

/-! ### Dividing -/

/-- **The smaller buckets of a bucket cover it**, with its range in 64 bits. -/
def Covers (splitCount min max : ℤ) : Prop :=
  max - min + 1 < 2 ^ 63 ∧
    (max - min + 1 < splitCount ∨
      max - min + 1 ≤ bucketWidth (max - min + 1) splitCount * splitCount)

/-- **A bucket is divided.** -/
theorem split_ordered {splitCount min max : ℤ} {entries : List (ℤ × ℕ)} (hpos : 1 ≤ splitCount)
    (hint : splitCount < 2 ^ 31) (h : Ordered (.leaf min max entries)) (hne : entries ≠ [])
    (hcovers : Covers splitCount min max) :
    ∃ docCount bucketSize buckets,
      split splitCount (.leaf min max entries) = some (.sub docCount min max bucketSize buckets) ∧
      Ordered (.sub docCount min max bucketSize buckets) ∧
      (entriesOf buckets).Perm entries := by
  obtain ⟨e, he⟩ := List.exists_mem_of_ne_nil entries hne
  have hbounds : ∀ e ∈ entries, min ≤ e.1 ∧ e.1 ≤ max := h.bounds
  obtain ⟨hmin, hmax⟩ := hbounds e he
  obtain ⟨hrange, hcovers⟩ := hcovers
  have hvalueRange : valueRange min max = max - min + 1 := valueRange_eq (by omega) hrange
  have hsizes : ∃ splitSize bucketSize, splitSizes (max - min + 1) splitCount =
      (splitSize, bucketSize) ∧ 1 ≤ splitSize ∧ splitSize ≤ splitCount ∧ 0 < bucketSize ∧
        max - min + 1 ≤ bucketSize * splitSize := by
    unfold splitSizes
    by_cases hlt : max - min + 1 < splitCount
    · rw [if_pos hlt]
      exact ⟨_, _, rfl, by omega, by omega, by omega, by omega⟩
    · rw [if_neg hlt]
      have hle := hcovers.resolve_left hlt
      have hwidth : 0 < bucketWidth (max - min + 1) splitCount := by
        by_contra hneg
        have := mul_nonpos_of_nonpos_of_nonneg (not_lt.mp hneg) (show 0 ≤ splitCount by omega)
        omega
      exact ⟨_, _, rfl, hpos, le_rfl, hwidth, hle⟩
  obtain ⟨splitSize, bucketSize, hsplit, h1, h2, h3, h4⟩ := hsizes
  have hwithin : ∀ e ∈ entries, Within min bucketSize splitSize.toNat e.1 := fun e he => by
    obtain ⟨hlo, hhi⟩ := hbounds e he
    refine ⟨hlo, by omega, ?_⟩
    rw [Int.toNat_of_nonneg (by omega)]
    omega
  obtain ⟨buckets, g1, g2, g3, g4⟩ := fill_grid h3 (by omega) (by omega) hwithin
  refine ⟨entries.length, bucketSize, buckets, ?_, ?_, g4⟩
  · unfold split
    dsimp only
    rw [hvalueRange, hsplit]
    dsimp only
    rw [g1]
    rfl
  · exact .sub g4.length_eq.symm h3 (by omega) (fun e he => hbounds e (g4.mem_iff.mp he))
      g2.intervals g2.ordered

/-! ### Searches -/

/-- **The order is that of the buckets.** -/
structure Search.Lawful (s : Search) : Prop where
  outside : ∀ b, Ordered b → s.outside b = true → ∀ e ∈ b.entries, s.selects e.1 = false
  checks : ∀ b, Ordered b → s.checks b = false → ∀ e ∈ b.entries, s.selects e.1 = false
  self : ∀ i, s.takes i i = false
  takes : ∀ {min bucketSize : ℤ} {i j : ℕ} {v : ℤ}, 0 < bucketSize → j ≠ i →
    s.value < min + (i + 1) * bucketSize → (0 < i → min + i * bucketSize ≤ s.value) →
    min + j * bucketSize ≤ v → v < min + (j + 1) * bucketSize → s.takes i j = s.selects v

theorem findEqual_lawful (value : ℤ) : (findEqual value).Lawful := by
  refine ⟨fun b hb h e he => ?_, fun b hb h e he => ?_, fun i => rfl, ?_⟩
  · have hbounds := hb.bounds e he
    simp only [findEqual, Bool.or_eq_true, decide_eq_true_eq] at h
    simp only [findEqual, beq_eq_false_iff_ne]
    omega
  · have hbounds := hb.bounds e he
    have hcount := hb.docCount_eq
    have hpos : 0 < b.entries.length := List.length_pos_of_mem he
    simp only [findEqual, Bool.not_eq_false', Bool.or_eq_true, decide_eq_true_eq,
      beq_iff_eq] at h
    simp only [findEqual, beq_eq_false_iff_ne]
    omega
  · intro min bucketSize i j v hsize hne hupper hlower hv hv'
    simp only [findEqual] at hupper hlower ⊢
    symm
    rw [beq_eq_false_iff_ne]
    rintro rfl
    rcases lt_or_gt_of_ne hne with hlt | hlt
    · have := interval_le min hsize hlt
      have := hlower (by omega)
      omega
    · have := interval_le min hsize hlt
      omega

theorem findLess_lawful (value : ℤ) (includes : Bool) : (findLess value includes).Lawful := by
  refine ⟨fun b hb h e he => ?_, fun b hb h e he => ?_, fun i => by simp [findLess], ?_⟩
  · have hbounds := hb.bounds e he
    simp only [findLess, decide_eq_true_eq] at h
    cases includes <;> simp only [findLess] <;> simp <;> omega
  · have hbounds := hb.bounds e he
    simp only [findLess, decide_eq_false_iff_not, not_le] at h
    cases includes <;> simp only [findLess] <;> simp <;> omega
  · intro min bucketSize i j v hsize hne hupper hlower hv hv'
    simp only [findLess] at hupper hlower ⊢
    rcases lt_or_gt_of_ne hne with hlt | hlt
    · have := interval_le min hsize hlt
      have := hlower (by omega)
      cases includes <;> simp <;> omega
    · have := interval_le min hsize hlt
      cases includes <;> simp <;> omega

theorem findMore_lawful (value : ℤ) (includes : Bool) : (findMore value includes).Lawful := by
  refine ⟨fun b hb h e he => ?_, fun b hb h e he => ?_, fun i => by simp [findMore], ?_⟩
  · have hbounds := hb.bounds e he
    simp only [findMore, decide_eq_true_eq] at h
    cases includes <;> simp only [findMore] <;> simp <;> omega
  · have hbounds := hb.bounds e he
    simp only [findMore, decide_eq_false_iff_not, not_le] at h
    cases includes <;> simp only [findMore] <;> simp <;> omega
  · intro min bucketSize i j v hsize hne hupper hlower hv hv'
    simp only [findMore] at hupper hlower ⊢
    rcases lt_or_gt_of_ne hne with hlt | hlt
    · have := interval_le min hsize hlt
      have := hlower (by omega)
      cases includes <;> simp <;> omega
    · have := interval_le min hsize hlt
      cases includes <;> simp <;> omega

section Search

variable (s : Search) (splitCount : ℤ) (bucketThreshold : ℚ)

/-- **The condition on a search** in a divided bucket: the value has the place of a bucket in every
divided bucket the search enters, and the bucket it divides can be covered. -/
inductive Safe : HistogramBucket → Bool → Prop
  | outside {docCount : ℕ} {min max bucketSize : ℤ} {buckets : List HistogramBucket}
      {splitted : Bool} (h : s.outside (.sub docCount min max bucketSize buckets) = true) :
      Safe (.sub docCount min max bucketSize buckets) splitted
  | skip {docCount : ℕ} {min max bucketSize : ℤ} {buckets : List HistogramBucket} {splitted : Bool}
      {i : ℕ} {b : HistogramBucket} (fits : Fits s.value min bucketSize i)
      (bucket : buckets[i]? = some b) (h : s.checks b = false) :
      Safe (.sub docCount min max bucketSize buckets) splitted
  | scan {docCount : ℕ} {min max bucketSize lo hi : ℤ} {buckets : List HistogramBucket}
      {entries : List (ℤ × ℕ)} {splitted : Bool} {i : ℕ} (fits : Fits s.value min bucketSize i)
      (bucket : buckets[i]? = some (.leaf lo hi entries))
      (h : divides bucketThreshold splitted lo hi entries = false) :
      Safe (.sub docCount min max bucketSize buckets) splitted
  | divide {docCount : ℕ} {min max bucketSize lo hi : ℤ} {buckets : List HistogramBucket}
      {entries : List (ℤ × ℕ)} {splitted : Bool} {i : ℕ} {b : HistogramBucket}
      (fits : Fits s.value min bucketSize i) (bucket : buckets[i]? = some (.leaf lo hi entries))
      (h : divides bucketThreshold splitted lo hi entries = true) (covers : Covers splitCount lo hi)
      (divided : split splitCount (.leaf lo hi entries) = some b) (sub : Safe b true) :
      Safe (.sub docCount min max bucketSize buckets) splitted
  | descend {docCount : ℕ} {min max bucketSize : ℤ} {buckets : List HistogramBucket}
      {splitted : Bool} {i : ℕ} {b : HistogramBucket} (fits : Fits s.value min bucketSize i)
      (bucket : buckets[i]? = some b) (sub : Safe b splitted) :
      Safe (.sub docCount min max bucketSize buckets) splitted

end Search

/-- What a search is to find in a bucket. -/
def found (s : Search) (b : HistogramBucket) : Finset ℕ :=
  docsOf (b.entries.filter fun e => s.selects e.1)

theorem mem_docsOf {entries : List (ℤ × ℕ)} {k : ℕ} : k ∈ docsOf entries ↔ ∃ v, (v, k) ∈ entries := by
  unfold docsOf
  rw [List.mem_toFinset, List.mem_map]
  constructor
  · rintro ⟨⟨v, k'⟩, h, rfl⟩
    exact ⟨v, h⟩
  · rintro ⟨v, h⟩
    exact ⟨(v, k), h, rfl⟩

theorem mem_found {s : Search} {b : HistogramBucket} {k : ℕ} :
    k ∈ found s b ↔ ∃ v, (v, k) ∈ b.entries ∧ s.selects v = true := by
  unfold found
  rw [mem_docsOf]
  simp only [List.mem_filter]

mutual

/-- All documents of a bucket. -/
theorem mem_setAll {k : ℕ} : ∀ {b : HistogramBucket}, Ordered b →
    (k ∈ setAll b ↔ ∃ v, (v, k) ∈ b.entries)
  | .leaf _ _ entries, _ => by
    rw [setAll, mem_docsOf]
    rfl
  | .sub _ _ _ _ buckets, h => by
    cases h with
    | sub count size length bounds intervals ordered =>
      rw [setAll, mem_setAllOf ordered]
      rfl

theorem mem_setAllOf {k : ℕ} : ∀ {buckets : List HistogramBucket}, (∀ b ∈ buckets, Ordered b) →
    (k ∈ setAllOf buckets ↔ ∃ v, (v, k) ∈ entriesOf buckets)
  | [], _ => by simp [setAllOf, entriesOf]
  | b :: buckets, h => by
    obtain ⟨hb, hbuckets⟩ := List.forall_mem_cons.mp h
    have hhead : (k ∈ if b.docCount = 0 then ∅ else setAll b) ↔ ∃ v, (v, k) ∈ b.entries := by
      by_cases hcount : b.docCount = 0
      · rw [if_pos hcount]
        rw [hb.docCount_eq, List.length_eq_zero_iff] at hcount
        simp [hcount]
      · rw [if_neg hcount]
        exact mem_setAll hb
    rw [setAllOf, Finset.mem_union, hhead, mem_setAllOf hbuckets, entriesOf]
    simp only [List.mem_append, exists_or]

end

theorem mem_others {takes : ℕ → Bool} {k : ℕ} : ∀ {buckets : List HistogramBucket} {n : ℕ},
    (∀ b ∈ buckets, Ordered b) → (k ∈ others takes n buckets ↔
      ∃ j b, buckets[j]? = some b ∧ takes (n + j) = true ∧ ∃ v, (v, k) ∈ b.entries)
  | [], n, _ => by simp [others]
  | c :: buckets, n, h => by
    obtain ⟨hc, hbuckets⟩ := List.forall_mem_cons.mp h
    rw [others, Finset.mem_union, mem_others hbuckets]
    constructor
    · rintro (hk | ⟨j, b, hb, ht, hv⟩)
      · split_ifs at hk with ht
        · exact ⟨0, c, rfl, ht, (mem_setAll hc).mp hk⟩
        · simp at hk
      · refine ⟨j + 1, b, hb, ?_, hv⟩
        rw [← ht]
        congr 1
        omega
    · rintro ⟨j, b, hb, ht, hv⟩
      cases j with
      | zero =>
        left
        rw [List.getElem?_cons_zero] at hb
        obtain rfl := Option.some.inj hb
        rw [Nat.add_zero] at ht
        rw [if_pos ht]
        exact (mem_setAll hc).mpr hv
      | succ j =>
        right
        rw [List.getElem?_cons_succ] at hb
        refine ⟨j, b, hb, ?_, hv⟩
        rw [← ht]
        congr 1
        omega

theorem docsOf_perm {entries entries' : List (ℤ × ℕ)} (h : entries.Perm entries') :
    docsOf entries = docsOf entries' := by
  ext k
  simp only [mem_docsOf, h.mem_iff]

theorem found_perm {s : Search} {b b' : HistogramBucket} (h : b.entries.Perm b'.entries) :
    found s b = found s b' := docsOf_perm (h.filter _)

theorem found_empty {s : Search} {b : HistogramBucket}
    (h : ∀ e ∈ b.entries, s.selects e.1 = false) : found s b = ∅ := by
  refine Finset.eq_empty_of_forall_notMem fun k hk => ?_
  obtain ⟨v, hv, hsel⟩ := mem_found.mp hk
  rw [h _ hv] at hsel
  cases hsel

/-- **The documents found in a divided bucket** are those of the value's bucket, and the others that
are taken. -/
theorem found_sub {s : Search} (hs : s.Lawful) {docCount : ℕ} {min max bucketSize : ℤ}
    {buckets : List HistogramBucket} (h : Ordered (.sub docCount min max bucketSize buckets)) {i : ℕ}
    {b : HistogramBucket} (fits : Fits s.value min bucketSize i) (hb : buckets[i]? = some b) :
    found s (.sub docCount min max bucketSize buckets) =
      found s b ∪ others (s.takes i) 0 buckets := by
  cases h with
  | sub count size length bounds intervals ordered =>
    obtain ⟨hupper, hlower⟩ := fits.interval size
    ext k
    rw [Finset.mem_union, mem_found, mem_found, mem_others ordered]
    constructor
    · rintro ⟨v, hv, hsel⟩
      obtain ⟨c, hc, hvc⟩ := mem_entriesOf.mp hv
      obtain ⟨j, hj⟩ := List.getElem?_of_mem hc
      by_cases hij : j = i
      · subst hij
        obtain rfl := Option.some.inj (hj.symm.trans hb)
        exact Or.inl ⟨v, hvc, hsel⟩
      · obtain ⟨hlo, hhi⟩ := intervals j c hj _ hvc
        refine Or.inr ⟨j, c, hj, ?_, v, hvc⟩
        rw [Nat.zero_add, hs.takes size hij hupper hlower hlo hhi]
        exact hsel
    · rintro (⟨v, hv, hsel⟩ | ⟨j, c, hj, htakes, v, hv⟩)
      · exact ⟨v, mem_entriesOf.mpr ⟨b, List.mem_of_getElem? hb, hv⟩, hsel⟩
      · rw [Nat.zero_add] at htakes
        have hij : j ≠ i := by
          rintro rfl
          rw [hs.self] at htakes
          cases htakes
        obtain ⟨hlo, hhi⟩ := intervals j c hj _ hv
        refine ⟨v, mem_entriesOf.mpr ⟨c, List.mem_of_getElem? hj, hv⟩, ?_⟩
        rw [← hs.takes size hij hupper hlower hlo hhi]
        exact htakes

/-- A bucket with the same entries takes the place of another. -/
theorem Ordered.set {docCount : ℕ} {min max bucketSize : ℤ} {buckets : List HistogramBucket}
    (h : Ordered (.sub docCount min max bucketSize buckets)) {i : ℕ} {b b' : HistogramBucket}
    (hb : buckets[i]? = some b) (hperm : b'.entries.Perm b.entries) (hb' : Ordered b') :
    Ordered (.sub docCount min max bucketSize (buckets.set i b')) ∧
      (entriesOf (buckets.set i b')).Perm (entriesOf buckets) := by
  have hentries : (entriesOf (buckets.set i b')).Perm (entriesOf buckets) := by
    have := @entriesOf_set b b' [] (by rw [List.append_nil]; exact hperm) _ _ hb
    rwa [List.append_nil] at this
  have hi : i < buckets.length := by
    by_contra hge
    rw [List.getElem?_eq_none (by omega)] at hb
    cases hb
  cases h with
  | sub count size length bounds intervals ordered =>
    refine ⟨.sub (by rw [count, hentries.length_eq]) size (by rw [List.length_set]; exact length)
      (fun e he => bounds e (hentries.mem_iff.mp he)) (fun j c hj e he => ?_) fun c hc => ?_, hentries⟩
    · by_cases hij : i = j
      · subst hij
        rw [List.getElem?_set_self hi] at hj
        obtain rfl := Option.some.inj hj
        exact intervals i b hb e (hperm.mem_iff.mp he)
      · rw [List.getElem?_set_ne hij] at hj
        exact intervals j c hj e he
    · rcases List.mem_or_eq_of_mem_set hc with hc | rfl
      · exact ordered c hc
      · exact hb'

section Search

variable {s : Search} {splitCount : ℤ} {bucketThreshold : ℚ}

/-- What a search leaves: an ordered bucket with the same entries, in which it found what it was to
find. -/
def Finds (s : Search) (splitCount : ℤ) (bucketThreshold : ℚ) (b : HistogramBucket)
    (splitted : Bool) : Prop :=
  ∃ b' splitted', Returns (fun n => search s splitCount bucketThreshold n b splitted)
    (b', found s b, splitted') ∧ Ordered b' ∧ b'.entries.Perm b.entries

/-- **A search in a divided bucket** is one in the bucket of the value. -/
theorem search_of_look (hs : s.Lawful) {docCount : ℕ} {min max bucketSize : ℤ}
    {buckets : List HistogramBucket} {splitted splitted' : Bool} {i : ℕ} {b b' : HistogramBucket}
    (h : Ordered (.sub docCount min max bucketSize buckets)) (fits : Fits s.value min bucketSize i)
    (hb : buckets[i]? = some b)
    (hlook : Returns (fun n => look s splitCount bucketThreshold
      (search s splitCount bucketThreshold n) b splitted) (b', found s b, splitted'))
    (hperm : b'.entries.Perm b.entries) (hb' : Ordered b') :
    Finds s splitCount bucketThreshold (.sub docCount min max bucketSize buckets) splitted := by
  by_cases houtside : s.outside (.sub docCount min max bucketSize buckets) = true
  · refine ⟨_, splitted, ?_, h, List.Perm.refl _⟩
    rw [found_empty (hs.outside _ h houtside)]
    refine Returns.of_succ (g := fun _ => some _) (fun n => ?_) (Returns.pure _)
    rw [search, if_pos houtside]
  · obtain ⟨hset, hentries⟩ := h.set hb hperm hb'
    have hnum : bucketNum s.value min bucketSize = i := by
      cases h with
      | sub count size length bounds intervals ordered =>
        refine fits.bucketNum_eq ?_
        by_contra hge
        rw [List.getElem?_eq_none (by omega)] at hb
        cases hb
    have hat : bucketAt buckets (i : ℤ) = some b := by
      unfold bucketAt
      rw [if_pos (by omega), Int.toNat_natCast]
      exact hb
    refine ⟨_, splitted', ?_, hset, hentries⟩
    rw [found_sub hs h fits hb]
    refine Returns.of_succ (fun n => ?_)
      (hlook.map fun (r : HistogramBucket × Finset ℕ × Bool) =>
        (HistogramBucket.sub docCount min max bucketSize (buckets.set i r.1),
          r.2.1 ∪ others (s.takes i) 0 buckets, r.2.2))
    rw [search, if_neg houtside, hnum]
    dsimp only
    rw [hat]
    rfl

/-- The value's bucket has none of the values. -/
theorem look_of_not_checks {go : HistogramBucket → Bool → Option (HistogramBucket × Finset ℕ × Bool)}
    {b : HistogramBucket} {splitted : Bool} (hs : s.Lawful) (hb : Ordered b)
    (h : s.checks b = false) :
    look s splitCount bucketThreshold go b splitted = some (b, found s b, splitted) := by
  unfold look
  rw [found_empty (hs.checks b hb h), h]
  rfl

/-- A bucket that is divided has entries. -/
theorem ne_nil_of_exceeds {entries : List (ℤ × ℕ)} (hthreshold : 0 ≤ bucketThreshold)
    (h : exceeds bucketThreshold entries.length = true) : entries ≠ [] := by
  rintro rfl
  have hzero : toDouble ((0 : ℕ) : ℚ) = 0 := by
    rw [Nat.cast_zero]
    exact roundTo_eq_self (z := 0) (by simp)
  unfold exceeds at h
  rw [List.length_nil, hzero, decide_eq_true_eq] at h
  exact absurd h (not_lt.mpr hthreshold)

/-- **A search that meets the condition finds what it searches for.** -/
theorem search_safe (hs : s.Lawful) (hthreshold : 0 ≤ bucketThreshold) (hpos : 1 ≤ splitCount)
    (hint : splitCount < 2 ^ 31) {b : HistogramBucket} {splitted : Bool}
    (h : Safe s splitCount bucketThreshold b splitted) (hb : Ordered b) :
    Finds s splitCount bucketThreshold b splitted := by
  have hordered {docCount : ℕ} {min max bucketSize : ℤ} {buckets : List HistogramBucket} {i : ℕ}
      {c : HistogramBucket} (hb : Ordered (.sub docCount min max bucketSize buckets))
      (hc : buckets[i]? = some c) : Ordered c := by
    cases hb with
    | sub count size length bounds intervals ordered => exact ordered c (List.mem_of_getElem? hc)
  induction h with
  | @outside docCount min max bucketSize buckets splitted h =>
    refine ⟨_, splitted, ?_, hb, List.Perm.refl _⟩
    rw [found_empty (hs.outside _ hb h)]
    refine Returns.of_succ (g := fun _ => some _) (fun n => ?_) (Returns.pure _)
    rw [search, if_pos h]
  | skip fits bucket h =>
    have hc := hordered hb bucket
    exact search_of_look hs hb fits bucket ⟨0, fun n _ => look_of_not_checks hs hc h⟩
      (List.Perm.refl _) hc
  | @scan docCount min max bucketSize lo hi buckets entries splitted i fits bucket h =>
    have hc := hordered hb bucket
    have hlook (n : ℕ) : look s splitCount bucketThreshold (search s splitCount bucketThreshold n)
        (.leaf lo hi entries) splitted =
          some (.leaf lo hi entries, found s (.leaf lo hi entries), splitted) := by
      cases hchecks : s.checks (.leaf lo hi entries) with
      | true =>
        unfold look
        rw [hchecks]
        dsimp only
        rw [h]
        rfl
      | false => exact look_of_not_checks hs hc hchecks
    exact search_of_look hs hb fits bucket ⟨0, fun n _ => hlook n⟩ (List.Perm.refl _) hc
  | @divide docCount min max bucketSize lo hi buckets entries splitted i b fits bucket h covers
      divided sub ih =>
    have hc := hordered hb bucket
    cases hchecks : s.checks (.leaf lo hi entries) with
    | true =>
      have hne : entries ≠ [] := by
        unfold divides at h
        rw [Bool.and_eq_true, Bool.and_eq_true] at h
        exact ne_nil_of_exceeds hthreshold h.1.1
      obtain ⟨docCount', size', buckets', hsplit, hordered', hsplitPerm⟩ :=
        split_ordered hpos hint hc hne covers
      have hperm : (HistogramBucket.sub docCount' lo hi size' buckets').entries.Perm
          (HistogramBucket.leaf lo hi entries).entries := hsplitPerm
      obtain rfl := Option.some.inj (hsplit.symm.trans divided)
      obtain ⟨b', splitted', hreturns, hb', hperm'⟩ := ih hordered'
      have hlook : Returns (fun n => look s splitCount bucketThreshold
          (search s splitCount bucketThreshold n) (.leaf lo hi entries) splitted)
          (b', found s (.leaf lo hi entries), splitted') := by
        rw [← found_perm hperm]
        obtain ⟨N, hN⟩ := hreturns
        refine ⟨N, fun n hn => ?_⟩
        dsimp only [look]
        rw [if_pos hchecks]
        rw [if_pos h, divided]
        exact hN n hn
      exact search_of_look hs hb fits bucket hlook (hperm'.trans hperm) hb'
    | false =>
      exact search_of_look hs hb fits bucket ⟨0, fun n _ => look_of_not_checks hs hc hchecks⟩
        (List.Perm.refl _) hc
  | @descend docCount min max bucketSize buckets splitted i b fits bucket sub ih =>
    have hc := hordered hb bucket
    cases hchecks : s.checks b with
    | true =>
      obtain ⟨b', splitted', hreturns, hb', hperm⟩ := ih hc
      have hlook : Returns (fun n => look s splitCount bucketThreshold
          (search s splitCount bucketThreshold n) b splitted) (b', found s b, splitted') := by
        obtain ⟨N, hN⟩ := hreturns
        refine ⟨N, fun n hn => ?_⟩
        dsimp only [look]
        rw [if_pos hchecks]
        -- the search goes on in divided buckets only
        cases sub <;> exact hN n hn
      exact search_of_look hs hb fits bucket hlook hperm hb'
    | false =>
      exact search_of_look hs hb fits bucket ⟨0, fun n _ => look_of_not_checks hs hc hchecks⟩
        (List.Perm.refl _) hc

end Search

/-! ### Building -/

/-- A bucket in the place of another. -/
def Replaces (b b' : HistogramBucket) : Prop := Ordered b' ∧ b'.entries.Perm b.entries

/-- Buckets that keep their entries. -/
theorem entriesOf_perm {buckets buckets' : List HistogramBucket}
    (h : List.Forall₂ (fun b b' => b'.entries.Perm b.entries) buckets buckets') :
    (entriesOf buckets').Perm (entriesOf buckets) := by
  induction h with
  | nil => exact List.Perm.refl _
  | cons hb _ ih =>
    rw [entriesOf, entriesOf]
    exact hb.append ih

/-- The buckets at one index. -/
theorem replaces_getElem? {buckets buckets' : List HistogramBucket}
    (h : List.Forall₂ Replaces buckets buckets') {i : ℕ} {b' : HistogramBucket}
    (hb' : buckets'[i]? = some b') : ∃ b, buckets[i]? = some b ∧ Replaces b b' := by
  induction h generalizing i with
  | nil => simp at hb'
  | @cons c c' buckets buckets' hc _ ih =>
    cases i with
    | zero =>
      rw [List.getElem?_cons_zero] at hb'
      obtain rfl := Option.some.inj hb'
      exact ⟨c, rfl, hc⟩
    | succ i => exact ih hb'

/-- **The condition on the values**: the buckets cover them, and so do those of the buckets that are
divided at once. -/
structure Buildable (splitCount min max : ℤ) (entries : List (ℤ × ℕ)) : Prop where
  range : max - min + 1 < 2 ^ 63
  covers : max - min + 1 ≤ bucketWidth (max - min + 1) splitCount * splitCount
  splits : ∀ i < splitCount.toNat, ∀ lo hi,
    Extremes lo hi (part min (bucketWidth (max - min + 1) splitCount) i entries) →
    exceeds (threshold entries.length splitCount)
      (part min (bucketWidth (max - min + 1) splitCount) i entries).length = true →
    Covers splitCount lo hi

theorem threshold_nonneg (docCount : ℕ) (bucketCount : ℤ) : 0 ≤ threshold docCount bucketCount := by
  unfold threshold toDouble
  refine roundTo_nonneg 53 (mul_nonneg (roundTo_nonneg 53 ?_) (roundTo_nonneg 53 (by norm_num)))
  exact_mod_cast Nat.zero_le _

/-- **A histogram is built.** -/
theorem build_ordered {splitCount min max : ℤ} {entries : List (ℤ × ℕ)} (hpos : 1 ≤ splitCount)
    (hcount : splitCount < 2 ^ 31) (hne : entries ≠ []) (hint : Int64 entries)
    (hbounds : ∀ e ∈ entries, min ≤ e.1 ∧ e.1 ≤ max)
    (h : Buildable splitCount min max entries) :
    ∃ root, build splitCount min max entries =
      some ⟨root, splitCount, threshold entries.length splitCount⟩ ∧
      Ordered root ∧ root.entries.Perm entries := by
  obtain ⟨e, he⟩ := List.exists_mem_of_ne_nil entries hne
  obtain ⟨hmin, hmax⟩ := hbounds e he
  have hrange := h.range
  have hcovers := h.covers
  have hsplits := h.splits
  have hvalueRange : valueRange min max = max - min + 1 := valueRange_eq (by omega) hrange
  generalize hbucketSize : bucketWidth (max - min + 1) splitCount = bucketSize at hcovers hsplits
  have hsize : 0 < bucketSize := by
    by_contra hneg
    have := mul_nonpos_of_nonpos_of_nonneg (not_lt.mp hneg) (show 0 ≤ splitCount by omega)
    omega
  have hwithin : ∀ e ∈ entries, Within min bucketSize splitCount.toNat e.1 := fun e he => by
    obtain ⟨hlo, hhi⟩ := hbounds e he
    refine ⟨hlo, by omega, ?_⟩
    rw [Int.toNat_of_nonneg (by omega)]
    omega
  obtain ⟨buckets, hfill, hgrid, hlength, hperm⟩ := fill_grid hsize (by omega) hcount hwithin
  generalize hthreshold : threshold entries.length splitCount = bucketThreshold at hsplits
  have hnonneg : 0 ≤ bucketThreshold := hthreshold ▸ threshold_nonneg _ _
  -- each bucket that is too full is divided
  have hdivided : ∀ b ∈ buckets, ∃ b',
      Returns (fun _ => if exceeds bucketThreshold b.docCount = true then split splitCount b
        else some b) b' ∧ Replaces b b' := fun b hb => by
    have hordered := hgrid.ordered b hb
    have hleaf := hgrid.leaf b hb
    by_cases hexceeds : exceeds bucketThreshold b.docCount = true
    · obtain ⟨i, hi⟩ := List.getElem?_of_mem hb
      have hparts := hgrid.parts i b hi
      have hlt : i < buckets.length := by
        by_contra hge
        rw [List.getElem?_eq_none (by omega)] at hi
        cases hi
      have hextremes := hgrid.extremes hint b hb
      cases b with
      | leaf lo hi' es =>
        have hes : es ≠ [] := ne_nil_of_exceeds hnonneg hexceeds
        have hextremes' : Extremes lo hi' es := hextremes.resolve_left fun heq =>
          hes (HistogramBucket.leaf.inj heq).2.2
        have hparts' : es = part min bucketSize i entries := hparts
        have hcover : Covers splitCount lo hi' :=
          hsplits i (by omega) lo hi' (hparts' ▸ hextremes') (by rw [← hparts']; exact hexceeds)
        obtain ⟨_, _, _, hsplit, hordered', hperm'⟩ := split_ordered hpos hcount hordered hes hcover
        refine ⟨_, ⟨0, fun n _ => ?_⟩, hordered', hperm'⟩
        rw [if_pos hexceeds, hsplit]
      | sub => cases hleaf
    · exact ⟨b, ⟨0, fun n _ => if_neg hexceeds⟩, hordered, List.Perm.refl _⟩
  obtain ⟨buckets', ⟨N, hN⟩, hreplaces⟩ := Returns.mapM hdivided
  have hentries := entriesOf_perm (hreplaces.imp fun _ _ h => h.2)
  refine ⟨.sub entries.length min max bucketSize buckets', ?_, ?_, hentries.trans hperm⟩
  · have hmapM := hN N le_rfl
    dsimp only at hmapM
    unfold build
    dsimp only
    rw [hvalueRange, hbucketSize, hfill, Option.bind_some, hthreshold, hmapM]
    rfl
  · refine .sub ?_ hsize ?_ ?_ ?_ ?_
    · rw [hentries.length_eq, hperm.length_eq]
    · rw [← hreplaces.length_eq, hlength]
      omega
    · exact fun e he => hbounds e (hperm.mem_iff.mp (hentries.mem_iff.mp he))
    · intro i b' hb' e he
      obtain ⟨b, hb, -, hsame⟩ := replaces_getElem? hreplaces hb'
      exact hgrid.intervals i b hb e (hsame.mem_iff.mp he)
    · intro b' hb'
      obtain ⟨i, hi⟩ := List.getElem?_of_mem hb'
      obtain ⟨b, -, hordered, -⟩ := replaces_getElem? hreplaces hi
      exact hordered

/-- A range that is exact as a `double` is covered. -/
theorem covers_of_le {splitCount min max : ℤ} (hpos : 1 ≤ splitCount) (hcount : splitCount < 2 ^ 31)
    (hle : min ≤ max) (h : max - min + 1 ≤ 2 ^ 53) :
    max - min + 1 ≤ bucketWidth (max - min + 1) splitCount * splitCount := by
  have hrange : toDouble ((max - min + 1 : ℤ) : ℚ) = (max - min + 1 : ℤ) :=
    roundTo_int (by norm_num) (by omega) h
  have hsplit : toDouble (splitCount : ℚ) = splitCount :=
    roundTo_int (by norm_num) (by omega) (by omega)
  unfold bucketWidth
  rw [hrange, hsplit]
  exact le_ceil_roundTo_mul (by norm_num) (by omega) h (by omega)

/-- The condition on the values, where their range is exact as a `double`. -/
theorem buildable_of_le {splitCount min max : ℤ} {entries : List (ℤ × ℕ)} (hpos : 1 ≤ splitCount)
    (hcount : splitCount < 2 ^ 31) (hextremes : Extremes min max entries)
    (h : max - min + 1 ≤ 2 ^ 53) : Buildable splitCount min max entries := by
  obtain ⟨e, he, hmin⟩ := hextremes.least
  have hbounds := hextremes.bounds e he
  refine ⟨by omega, covers_of_le hpos hcount (by omega) h, fun i hi lo hi' hpart _ => ?_⟩
  obtain ⟨e, he, rfl⟩ := hpart.least
  obtain ⟨f, hf, rfl⟩ := hpart.greatest
  have h1 := hextremes.bounds e (mem_part.mp he).1
  have h2 := hextremes.bounds f (mem_part.mp hf).1
  have h3 := hpart.bounds f hf
  exact ⟨by omega, Or.inr (covers_of_le hpos hcount (by omega) (by omega))⟩

/-! ### Calls -/

/-- The documents whose value satisfies the comparison of a call. -/
def answer (size : ℕ) (entries : List (ℤ × ℕ)) (call : Call) : Finset ℕ :=
  match call.comparisonType with
  | .EQUALS => docsOf (entries.filter fun e => e.1 == call.value)
  | .NOT_EQUALS => Finset.range size \ docsOf (entries.filter fun e => e.1 == call.value)
  | .LT => docsOf (entries.filter fun e => e.1 < call.value)
  | .LTE => docsOf (entries.filter fun e => e.1 ≤ call.value)
  | .GT => docsOf (entries.filter fun e => call.value < e.1)
  | .GTE => docsOf (entries.filter fun e => call.value ≤ e.1)
  | .STARTS_WITH => ∅

/-- **The condition on a call** in a state. -/
def Meets (h : AdaptiveHistogram) (call : Call) : Prop :=
  ∀ s, searchOf call.value call.comparisonType = some s →
    Safe s h.splitCount h.bucketThreshold h.root call.splitted

/-- The call finds exactly the documents. -/
def RightAt (size : ℕ) (entries : List (ℤ × ℕ)) (h : AdaptiveHistogram) (call : Call) : Prop :=
  ∃ h', Returns (find size call h) (answer size entries call, h')

/-- A call returns. -/
def Step (size : ℕ) (call : Call) (h h' : AdaptiveHistogram) : Prop :=
  ∃ result, Returns (find size call h) (result, h')

/-- **The invariant of the runs**: the histogram is that of the entries. -/
structure Inv (splitCount : ℤ) (entries : List (ℤ × ℕ)) (h : AdaptiveHistogram) : Prop where
  splitCount : h.splitCount = splitCount
  threshold : 0 ≤ h.bucketThreshold
  ordered : Ordered h.root
  entries : h.root.entries.Perm entries

theorem searchOf_lawful {value : ℤ} {comparisonType : CmpType} {s : Search}
    (h : searchOf value comparisonType = some s) : s.Lawful := by
  cases comparisonType with
  | EQUALS =>
    cases h
    exact findEqual_lawful value
  | NOT_EQUALS =>
    cases h
    exact findEqual_lawful value
  | LT =>
    cases h
    exact findLess_lawful value false
  | LTE =>
    cases h
    exact findLess_lawful value true
  | GT =>
    cases h
    exact findMore_lawful value false
  | GTE =>
    cases h
    exact findMore_lawful value true
  | STARTS_WITH => cases h

/-- What the search of a call is to find is the answer. -/
theorem answer_eq {size : ℕ} {entries : List (ℤ × ℕ)} {call : Call} {s : Search}
    {b : HistogramBucket} (h : searchOf call.value call.comparisonType = some s)
    (hb : b.entries.Perm entries) : answer size entries call =
      if call.comparisonType = .NOT_EQUALS then Finset.range size \ found s b else found s b := by
  have hfound : found s b = docsOf (entries.filter fun e => s.selects e.1) :=
    docsOf_perm (hb.filter _)
  rw [hfound]
  unfold answer
  cases hc : call.comparisonType with
  | STARTS_WITH =>
    rw [hc] at h
    cases h
  | EQUALS | NOT_EQUALS | LT | LTE | GT | GTE =>
    rw [hc] at h
    cases h
    rfl

/-- **A call that meets the condition is right**, and the histogram stays that of the entries. -/
theorem find_right {size : ℕ} {splitCount : ℤ} {entries : List (ℤ × ℕ)} {h : AdaptiveHistogram}
    {call : Call} (hpos : 1 ≤ splitCount) (hcount : splitCount < 2 ^ 31)
    (hinv : Inv splitCount entries h) (hmeets : Meets h call) :
    ∃ h', Returns (find size call h) (answer size entries call, h') ∧ Inv splitCount entries h' := by
  cases hs : searchOf call.value call.comparisonType with
  | none =>
    have hstarts : call.comparisonType = .STARTS_WITH := by
      cases hc : call.comparisonType <;> rw [hc] at hs <;> first | rfl | cases hs
    refine ⟨h, ⟨0, fun n _ => ?_⟩, hinv⟩
    unfold find answer
    rw [hs, hstarts]
  | some s =>
    have hsplit := hinv.splitCount
    obtain ⟨root, splitted, hreturns, hordered, hperm⟩ :=
      search_safe (searchOf_lawful hs) hinv.threshold (by omega) (by omega) (hmeets s hs) hinv.ordered
    refine ⟨{ h with root := root }, ?_, ⟨hsplit, hinv.threshold, hordered,
      hperm.trans hinv.entries⟩⟩
    obtain ⟨N, hN⟩ := hreturns
    refine ⟨N, fun n hn => ?_⟩
    have hsearch := hN n hn
    dsimp only at hsearch
    unfold find
    rw [hs, answer_eq hs hinv.entries]
    dsimp only
    rw [hsearch, Option.map_some]

/-- The values of the documents of the ranges. -/
def entriesAt (getInt64 : ℕ → ℤ) (relevantDocuments : List (ℕ × ℕ)) : List (ℤ × ℕ) :=
  (documents relevantDocuments).map fun k => (getInt64 k, k)

theorem initialSplitWithValues_eq (getInt64 : ℕ → ℤ) (splitCount : ℤ)
    (relevantDocuments : List (ℕ × ℕ)) (min max : ℤ) :
    initialSplitWithValues ((documents relevantDocuments).map getInt64) splitCount
      relevantDocuments min max = initialSplit getInt64 splitCount relevantDocuments min max := by
  unfold initialSplitWithValues initialSplit
  congr 1
  induction documents relevantDocuments with
  | nil => rfl
  | cons k ks ih => rw [List.map_cons, List.zip_cons_cons, ih, List.map_cons]

/-- **The answers after any earlier calls** that meet the condition. -/
theorem find_runs (getInt64 : ℕ → ℤ) (relevantDocuments : List (ℕ × ℕ)) (size : ℕ)
    {splitCount min max : ℤ} (hpos : 1 ≤ splitCount) (hcount : splitCount < 2 ^ 31)
    (hint : Int64 (entriesAt getInt64 relevantDocuments))
    (hextremes : Extremes min max (entriesAt getInt64 relevantDocuments))
    (hbuild : Buildable splitCount min max (entriesAt getInt64 relevantDocuments)) :
    ∃ h, initialSplit getInt64 splitCount relevantDocuments min max = some h ∧
      initialSplitWithValues ((documents relevantDocuments).map getInt64) splitCount
        relevantDocuments min max = some h ∧
      ∀ past h', Run (· = h) (Step size) past h' → (∀ p ∈ past, Meets p.1 p.2) →
        (∀ p ∈ past, RightAt size (entriesAt getInt64 relevantDocuments) p.1 p.2) ∧
        ∀ call, Meets h' call → RightAt size (entriesAt getInt64 relevantDocuments) h' call := by
  obtain ⟨e, he, -⟩ := hextremes.least
  obtain ⟨root, hroot, hordered, hperm⟩ := build_ordered hpos hcount (List.ne_nil_of_mem he) hint
    hextremes.bounds hbuild
  generalize hh : AdaptiveHistogram.mk root splitCount _ = h at hroot
  have hstart : ∀ h0, h0 = h → Inv splitCount (entriesAt getInt64 relevantDocuments) h0 := by
    rintro _ rfl
    rw [← hh]
    exact ⟨rfl, threshold_nonneg _ _, hordered, hperm⟩
  refine ⟨h, hroot, (initialSplitWithValues_eq _ _ _ _ _).trans hroot,
    fun past h' hrun hmeets => ?_⟩
  have hkeeps : ∀ call h1 h2, Inv splitCount (entriesAt getInt64 relevantDocuments) h1 →
      Meets h1 call → Step size call h1 h2 →
      Inv splitCount (entriesAt getInt64 relevantDocuments) h2 := by
    rintro call h1 h2 hinv hcall ⟨result, hstep⟩
    obtain ⟨h'', hreturns, hinv'⟩ := find_right hpos hcount hinv hcall
    obtain ⟨-, rfl⟩ := Prod.mk.inj (hreturns.unique hstep)
    exact hinv'
  obtain ⟨hlast, hpast⟩ := hrun.invariant _ Meets hstart hkeeps hmeets
  refine ⟨fun p hp => ?_, fun call hcall => ?_⟩
  · obtain ⟨h'', hreturns, -⟩ := find_right hpos hcount (hpast p hp) (hmeets p hp)
    exact ⟨h'', hreturns⟩
  · obtain ⟨h'', hreturns, -⟩ := find_right hpos hcount hlast hcall
    exact ⟨h'', hreturns⟩

/-- The values of five documents. -/
def fiveValues (k : ℕ) : ℤ := [1, 5, 3, 5, 9].getD k 0

/-- Their histogram of two buckets, the first of which is divided. -/
def fiveHistogram : AdaptiveHistogram :=
  ⟨.sub 5 1 9 5 [.sub 4 1 5 3 [.leaf 1 3 [(1, 0), (3, 2)], .leaf 5 5 [(5, 1), (5, 3)]],
    .leaf 9 9 [(9, 4)]], 2, threshold 5 2⟩

theorem initialSplit_five : initialSplit fiveValues 2 [(0, 4)] 1 9 = some fiveHistogram := by
  have hwidth : bucketWidth (valueRange 1 9) 2 = 5 := by decide +kernel
  have hfill : fill 1 5 2 [(1, 0), (5, 1), (3, 2), (5, 3), (9, 4)] =
      some [.leaf 1 5 [(1, 0), (5, 1), (3, 2), (5, 3)], .leaf 9 9 [(9, 4)]] := rfl
  have hsizes : splitSizes (valueRange 1 5) 2 = (2, 3) := by decide +kernel
  have hexceeds : exceeds (threshold 5 2) 4 = true ∧ exceeds (threshold 5 2) 1 = false := by
    decide +kernel
  have hsplit : split 2 (.leaf 1 5 [(1, 0), (5, 1), (3, 2), (5, 3)]) =
      some (.sub 4 1 5 3 [.leaf 1 3 [(1, 0), (3, 2)], .leaf 5 5 [(5, 1), (5, 3)]]) := by
    unfold split
    dsimp only
    rw [hsizes]
    rfl
  show build 2 1 9 [(1, 0), (5, 1), (3, 2), (5, 3), (9, 4)] = _
  unfold build
  dsimp only [List.length_cons, List.length_nil]
  rw [hwidth, hfill, Option.bind_some, List.mapM_cons, List.mapM_cons, List.mapM_nil]
  simp [HistogramBucket.docCount, hexceeds, hsplit, fiveHistogram]

theorem extremes_five : Int64 (entriesAt fiveValues [(0, 4)]) ∧
    Extremes 1 9 (entriesAt fiveValues [(0, 4)]) := by
  have hentries : entriesAt fiveValues [(0, 4)] = [(1, 0), (5, 1), (3, 2), (5, 3), (9, 4)] := rfl
  rw [hentries]
  unfold Int64
  exact ⟨by decide, ⟨(1, 0), by simp, rfl⟩, ⟨(9, 4), by simp, rfl⟩, by decide⟩

/-- The values below 4 are those of the documents 0 and 2. -/
theorem find_runs_five :
    RightAt 5 (entriesAt fiveValues [(0, 4)]) fiveHistogram ⟨4, .LT, false⟩ := by
  obtain ⟨hint, hextremes⟩ := extremes_five
  obtain ⟨h, hh, -, hruns⟩ := @find_runs fiveValues [(0, 4)] 5 2 1 9 (by decide)
    (by decide) hint hextremes (buildable_of_le (by decide) (by decide) hextremes (by decide))
  rw [initialSplit_five] at hh
  obtain rfl := Option.some.inj hh
  refine (hruns [] _ (.start rfl) (by simp)).2 _ ?_
  rintro s hs
  cases hs
  refine .descend (i := 0) ⟨by decide, by decide, by decide⟩ rfl ?_
  exact .skip (i := 1) ⟨by decide, by decide, by decide⟩ rfl rfl

/-- No bucket is that of 11, although all values are smaller. -/
theorem not_find_runs : ¬ ∀ (getInt64 : ℕ → ℤ) (relevantDocuments : List (ℕ × ℕ)) (size : ℕ)
    (splitCount min max : ℤ), 1 ≤ splitCount → splitCount < 2 ^ 31 →
    Int64 (entriesAt getInt64 relevantDocuments) →
    Extremes min max (entriesAt getInt64 relevantDocuments) →
    ∃ h, initialSplit getInt64 splitCount relevantDocuments min max = some h ∧
      ∀ past h', Run (· = h) (Step size) past h' → ∀ call, call.comparisonType ≠ .STARTS_WITH →
        RightAt size (entriesAt getInt64 relevantDocuments) h' call := by
  intro hall
  obtain ⟨hint, hextremes⟩ := extremes_five
  obtain ⟨h, hh, hruns⟩ := hall fiveValues [(0, 4)] 5 2 1 9 (by decide) (by decide) hint hextremes
  rw [initialSplit_five] at hh
  obtain rfl := Option.some.inj hh
  obtain ⟨h', hreturns⟩ := hruns [] _ (.start rfl) ⟨11, .LTE, false⟩ (by decide)
  refine not_returns_of_none (fun n => ?_) _ hreturns
  cases n with
  | zero => rfl
  | succ n => rfl

end Joda.Index.Histogram
