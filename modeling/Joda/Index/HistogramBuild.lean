import Joda.Index.HistogramRuns

/-! # When a histogram is built

With the extremes of the values, and a range of less than 64 bits, a histogram of 100 buckets is built
exactly when the condition on the values holds (`build_iff`): the greatest value has a bucket only if the
buckets cover the range. -/

namespace Joda.Index.Histogram

open Joda.Lib.Fuel Joda.Lib.Rounding

/-- The number is that of a bucket. -/
def HasBucket (value min bucketSize count : ℤ) : Prop :=
  0 ≤ bucketNum value min bucketSize ∧ bucketNum value min bucketSize < count

/-! ### Filling -/

theorem place_some {min bucketSize : ℤ} {buckets buckets' : List HistogramBucket} {e : ℤ × ℕ}
    (h : place min bucketSize buckets e = some buckets') :
    HasBucket e.1 min bucketSize buckets.length ∧ buckets'.length = buckets.length := by
  obtain ⟨bucket, hbucket, rfl⟩ := Option.map_eq_some_iff.mp h
  unfold bucketAt at hbucket
  split_ifs at hbucket with hnonneg
  have hlt := (List.getElem?_eq_some_iff.mp hbucket).1
  exact ⟨⟨hnonneg, by omega⟩, List.length_set⟩

/-- **Documents that are put into buckets** have numbers of buckets. -/
theorem foldlM_place_some {min bucketSize : ℤ} {entries : List (ℤ × ℕ)}
    {buckets buckets' : List HistogramBucket}
    (h : entries.foldlM (place min bucketSize) buckets = some buckets') :
    ∀ e ∈ entries, HasBucket e.1 min bucketSize buckets.length := by
  induction entries generalizing buckets with
  | nil => exact fun e he => (List.not_mem_nil he).elim
  | cons e entries ih =>
    rw [List.foldlM_cons] at h
    obtain ⟨buckets₁, hplace, hrest⟩ := Option.bind_eq_some_iff.mp h
    obtain ⟨hbucket, hlength⟩ := place_some hplace
    refine List.forall_mem_cons.mpr ⟨hbucket, fun e' he' => ?_⟩
    rw [← hlength]
    exact ih hrest e' he'

theorem fill_some {min bucketSize count : ℤ} {entries : List (ℤ × ℕ)} (hcount : 0 ≤ count)
    {buckets : List HistogramBucket} (h : fill min bucketSize count entries = some buckets) :
    ∀ e ∈ entries, HasBucket e.1 min bucketSize count := by
  have hall := foldlM_place_some h
  rwa [List.length_replicate, Int.toNat_of_nonneg hcount] at hall

/-! ### The width of the buckets -/

theorem roundTo_bounds {q : ℚ} (h : 0 < q) : q / 2 ≤ toDouble q ∧ toDouble q ≤ 2 * q := by
  have herror := (abs_le.mp (abs_roundTo_sub_le_half (p := 53) (by norm_num) (ne_of_gt h))).1
  rw [abs_of_pos h] at herror
  unfold toDouble
  refine ⟨half_le_roundTo (by norm_num) h, ?_⟩
  linarith

/-- The width is not far from the quotient. -/
theorem bucketWidth_bounds {v : ℤ} (h : 0 < v) :
    0 < bucketWidth v 100 ∧ v ≤ 400 * bucketWidth v 100 ∧ 25 * bucketWidth v 100 < v + 25 := by
  have hv : (0 : ℚ) < v := by exact_mod_cast h
  have hcount : toDouble ((100 : ℤ) : ℚ) = (100 : ℤ) := roundTo_int (by norm_num) (by norm_num) (by norm_num)
  obtain ⟨h1, h2⟩ := roundTo_bounds hv
  have hq : 0 < toDouble (v : ℚ) / 100 := by linarith
  obtain ⟨h3, h4⟩ := roundTo_bounds hq
  unfold bucketWidth
  rw [hcount]
  push_cast
  generalize toDouble (toDouble (v : ℚ) / 100) = q at h3 h4
  have hle := Int.le_ceil q
  have hlt := Int.ceil_lt_add_one q
  generalize ⌈q⌉ = w at hle hlt
  refine ⟨?_, ?_, ?_⟩
  · have : (0 : ℚ) < w := by linarith
    exact_mod_cast this
  · have : (v : ℚ) ≤ 400 * w := by linarith
    exact_mod_cast this
  · have : 25 * (w : ℚ) < v + 25 := by linarith
    exact_mod_cast this

/-! ### The bucket of the greatest value -/

/-- **The greatest value has a bucket only if the buckets cover the range.** -/
theorem le_of_hasBucket {min max : ℤ} (hle : min ≤ max) (hrange : max - min + 1 < 2 ^ 63)
    (h : HasBucket max min (bucketWidth (max - min + 1) 100) 100) :
    max - min + 1 ≤ bucketWidth (max - min + 1) 100 * 100 := by
  obtain ⟨hpos, hlow, -⟩ := bucketWidth_bounds (show 0 < max - min + 1 by omega)
  obtain ⟨-, hlt⟩ := h
  unfold bucketNum at hlt
  generalize bucketWidth (max - min + 1) 100 = w at *
  rw [int64_eq (by omega) (by omega), Int.tdiv_eq_ediv_of_nonneg (by omega)] at hlt
  have hdiv : (max - min) / w ≤ 400 := by
    refine Int.le_of_lt_add_one (Int.ediv_lt_of_lt_mul hpos ?_)
    linarith
  have hnonneg : 0 ≤ (max - min) / w := Int.ediv_nonneg (by omega) (le_of_lt hpos)
  rw [Int.bmod_eq_of_le_mul_two (by omega) (by omega)] at hlt
  have := Int.lt_mul_of_ediv_lt hpos hlt
  linarith

theorem split_some {splitCount min max : ℤ} {entries : List (ℤ × ℕ)} {b : HistogramBucket}
    (h : split splitCount (.leaf min max entries) = some b) :
    ∃ buckets, fill min (splitSizes (valueRange min max) splitCount).2
      (splitSizes (valueRange min max) splitCount).1 entries = some buckets := by
  obtain ⟨buckets, hfill, -⟩ := Option.map_eq_some_iff.mp h
  exact ⟨buckets, hfill⟩

/-- A bucket is divided only if the smaller buckets cover it. -/
theorem covers_of_split {splitCount min max : ℤ} {entries : List (ℤ × ℕ)} {b : HistogramBucket}
    (hsplit : splitCount = 100) (hextremes : Extremes min max entries)
    (hrange : max - min + 1 < 2 ^ 63) (h : split splitCount (.leaf min max entries) = some b) :
    Covers splitCount min max := by
  obtain ⟨e, he, rfl⟩ := hextremes.greatest
  have hle := (hextremes.bounds e he).1
  obtain ⟨buckets, hfill⟩ := split_some h
  rw [valueRange_eq hle hrange] at hfill
  refine ⟨hrange, or_iff_not_imp_left.mpr fun hge => ?_⟩
  have hsizes : splitSizes (e.1 - min + 1) splitCount =
      (splitCount, bucketWidth (e.1 - min + 1) splitCount) := if_neg hge
  rw [hsizes] at hfill
  have hbucket := fill_some (by omega) hfill e he
  subst hsplit
  exact le_of_hasBucket hle hrange hbucket

theorem Extremes.unique {min max min' max' : ℤ} {entries : List (ℤ × ℕ)}
    (h : Extremes min max entries) (h' : Extremes min' max' entries) : min = min' ∧ max = max' := by
  obtain ⟨e, he, rfl⟩ := h.least
  obtain ⟨f, hf, rfl⟩ := h.greatest
  obtain ⟨e', he', rfl⟩ := h'.least
  obtain ⟨f', hf', rfl⟩ := h'.greatest
  exact ⟨le_antisymm (h.bounds e' he').1 (h'.bounds e he).1,
    le_antisymm (h'.bounds f hf).2 (h.bounds f' hf').2⟩

/-- **When a histogram is built.** -/
theorem build_iff {min max : ℤ} {entries : List (ℤ × ℕ)} (hint : Int64 entries)
    (hextremes : Extremes min max entries) :
    (max - min + 1 < 2 ^ 63 ∧ ∃ h, build 100 min max entries = some h) ↔
      Buildable 100 min max entries := by
  obtain ⟨e, he, hmax⟩ := hextremes.greatest
  have hle : min ≤ max := hmax ▸ (hextremes.bounds e he).1
  constructor
  · rintro ⟨hrange, h, hbuild⟩
    unfold build at hbuild
    dsimp only at hbuild
    rw [valueRange_eq hle hrange] at hbuild
    obtain ⟨buckets, hfill, hbuckets⟩ := Option.bind_eq_some_iff.mp hbuild
    obtain ⟨buckets', hdivided, -⟩ := Option.map_eq_some_iff.mp hbuckets
    have hcovers := le_of_hasBucket hle hrange (hmax ▸ fill_some (by omega) hfill e he)
    refine ⟨hrange, hcovers, fun i hi lo hi' hpart hexceeds => ?_⟩
    -- the bucket of the interval
    obtain ⟨hwidth, -, -⟩ := bucketWidth_bounds (show 0 < max - min + 1 by omega)
    generalize bucketWidth (max - min + 1) 100 = bucketSize at *
    have hwithin : ∀ e ∈ entries, Within min bucketSize (Int.toNat 100) e.1 := fun e he => by
      obtain ⟨h1, h2⟩ := hextremes.bounds e he
      exact ⟨h1, by omega, by rw [Int.toNat_of_nonneg (by omega)]; omega⟩
    obtain ⟨grid, hgridfill, hgrid, hlength, -⟩ := fill_grid hwidth (by omega) (by omega) hwithin
    obtain rfl := Option.some.inj (hfill.symm.trans hgridfill)
    have hi : i < buckets.length := by omega
    have hget : buckets[i]? = some buckets[i] := List.getElem?_eq_getElem hi
    have hmem := List.mem_of_getElem? hget
    have hparts := hgrid.parts i _ hget
    have hleaf := hgrid.leaf _ hmem
    have hends := hgrid.extremes hint _ hmem
    obtain ⟨hlength', hall⟩ := List.forall₂_iff_get.mp (forall₂_of_mapM hdivided)
    have hb' := hall i hi (by omega)
    generalize buckets'.get ⟨i, _⟩ = b' at hb'
    rw [List.get_eq_getElem] at hb'
    generalize buckets[i] = b at hparts hleaf hends hb'
    have hne : part min bucketSize i entries ≠ [] := by
      obtain ⟨e, he, -⟩ := hpart.least
      exact List.ne_nil_of_mem he
    cases b with
    | leaf lo' hi'' es =>
      obtain rfl : es = part min bucketSize i entries := hparts
      have hends' : Extremes lo' hi'' (part min bucketSize i entries) := hends.resolve_left
        fun heq => hne (HistogramBucket.leaf.inj heq).2.2
      obtain ⟨rfl, rfl⟩ := hends'.unique hpart
      rw [HistogramBucket.docCount, if_pos hexceeds] at hb'
      refine covers_of_split rfl hpart ?_ hb'
      obtain ⟨f, hf, rfl⟩ := hpart.least
      obtain ⟨g, hg, rfl⟩ := hpart.greatest
      have h1 := hextremes.bounds f (mem_part.mp hf).1
      have h2 := hextremes.bounds g (mem_part.mp hg).1
      omega
    | sub => cases hleaf
  · intro h
    obtain ⟨root, hroot, -⟩ := build_ordered (by omega) (by omega) (List.ne_nil_of_mem he) hint
      hextremes.bounds h
    exact ⟨h.range, _, hroot⟩

/-- Nothing is divided where there are no documents. -/
theorem build_nil_eq (splitCount min max : ℤ) : build splitCount min max [] =
    some ⟨.sub 0 min max (bucketWidth (valueRange min max) splitCount)
      (List.replicate splitCount.toNat .empty), splitCount, threshold 0 splitCount⟩ := by
  have hexceeds : ¬ exceeds (threshold 0 splitCount) HistogramBucket.empty.docCount = true := fun h =>
    ne_nil_of_exceeds (threshold_nonneg 0 splitCount)
      (show exceeds _ ([] : List (ℤ × ℕ)).length = true from h) rfl
  have hempty : ∀ l : List HistogramBucket, (∀ b ∈ l, b = .empty) → l.mapM (fun bucket =>
      if exceeds (threshold 0 splitCount) bucket.docCount = true then split splitCount bucket
      else some bucket) = some l := by
    intro l hl
    induction l with
    | nil => rfl
    | cons b l ih =>
      obtain ⟨hb, hrest⟩ := List.forall_mem_cons.mp hl
      rw [List.mapM_cons, ih hrest, hb, if_neg hexceeds]
      rfl
  unfold build
  dsimp only [fill, List.foldlM_nil, List.length_nil]
  rw [show (pure (List.replicate splitCount.toNat HistogramBucket.empty) : Option _) =
    some (List.replicate splitCount.toNat HistogramBucket.empty) from rfl, Option.bind_some,
    hempty _ fun b hb => List.eq_of_mem_replicate hb]
  rfl

theorem build_nil (splitCount min max : ℤ) : ∃ h, build splitCount min max [] = some h :=
  ⟨_, build_nil_eq splitCount min max⟩

/-- The histogram of no documents, where its buckets have a width. -/
theorem inv_build_nil {splitCount min max : ℤ} (hpos : 1 ≤ splitCount) (hcount : splitCount < 2 ^ 31)
    (hwidth : 0 < bucketWidth (valueRange min max) splitCount) :
    ∃ h, build splitCount min max [] = some h ∧ Inv splitCount [] h := by
  have hentries := entriesOf_replicate splitCount.toNat
  refine ⟨_, build_nil_eq splitCount min max, rfl, threshold_nonneg 0 splitCount, ?_, ?_⟩
  · have hnone : ∀ e, e ∉ entriesOf (List.replicate splitCount.toNat HistogramBucket.empty) := by
      rw [hentries]
      exact fun e => List.not_mem_nil
    refine .sub (by rw [hentries]; rfl) hwidth ?_ (fun e he => absurd he (hnone e)) ?_ ?_
    · rw [List.length_replicate]
      omega
    · intro i b hb e he
      exact absurd (mem_entriesOf.mpr ⟨b, List.mem_of_getElem? hb, he⟩) (hnone e)
    · intro b hb
      rw [List.eq_of_mem_replicate hb]
      exact .empty
  · show (entriesOf _).Perm []
    rw [hentries]

end Joda.Index.Histogram
