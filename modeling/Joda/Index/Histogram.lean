import Joda.Lib.Fuel
import Joda.Lib.Rounding
import Joda.Index.Query

/-! # Histograms

`AdaptiveHistogram` keeps the integers of the documents in buckets of equal width, and divides a bucket
again the first time a search looks into it and it is too full. A search looks into one bucket on each
level and takes the buckets before or after it as a whole. -/

namespace Joda.Index.Histogram

open Joda.Lib.Fuel Joda.Lib.Rounding Joda.Index.Query

/-! ### Numbers -/

/-- A `double` -/
def toDouble (q : ℚ) : ℚ := roundTo 53 q

def int64 (z : ℤ) : ℤ := z.bmod (2 ^ 64)

/-- `valueRange`, which wraps around. -/
def valueRange (min max : ℤ) : ℤ := int64 ((int64 (max - min)).natAbs + 1)

/-- The width of `count` buckets: `std::ceil(valueRange / (double)count)`. -/
def bucketWidth (valueRange count : ℤ) : ℤ := ⌈toDouble (toDouble valueRange / toDouble count)⌉

/-- `bucketNum`, an `int` -/
def bucketNum (value min bucketSize : ℤ) : ℤ :=
  ((int64 (value - min)).tdiv bucketSize).bmod (2 ^ 32)

/-! ### Buckets -/

/-- **`HistogramBucket`**, with its values and their documents, or with smaller buckets. -/
inductive HistogramBucket where
  | leaf (min max : ℤ) (entries : List (ℤ × ℕ))
  | sub (docCount : ℕ) (min max bucketSize : ℤ) (buckets : List HistogramBucket)

namespace HistogramBucket

/-- The bucket of the constructor. -/
def empty : HistogramBucket := leaf (2 ^ 63 - 1) (-2 ^ 63) []

def docCount : HistogramBucket → ℕ
  | leaf _ _ entries => entries.length
  | sub docCount .. => docCount

def min : HistogramBucket → ℤ
  | leaf min .. => min
  | sub _ min .. => min

def max : HistogramBucket → ℤ
  | leaf _ max _ => max
  | sub _ _ max .. => max

def hasSub : HistogramBucket → Bool
  | leaf .. => false
  | sub .. => true

/-- A document is put into a bucket. -/
def push (entry : ℤ × ℕ) : HistogramBucket → HistogramBucket
  | leaf min max entries =>
    leaf (if entry.1 < min then entry.1 else min) (if max < entry.1 then entry.1 else max)
      (entries ++ [entry])
  | bucket => bucket

end HistogramBucket

/-- `buckets->at`, `none` where it throws. -/
def bucketAt (buckets : List HistogramBucket) (bucketNum : ℤ) : Option HistogramBucket :=
  if 0 ≤ bucketNum then buckets[bucketNum.toNat]? else none

/-- A document is put into its bucket. -/
def place (min bucketSize : ℤ) (buckets : List HistogramBucket) (entry : ℤ × ℕ) :
    Option (List HistogramBucket) :=
  (bucketAt buckets (bucketNum entry.1 min bucketSize)).map fun bucket =>
    buckets.set (bucketNum entry.1 min bucketSize).toNat (bucket.push entry)

/-- The documents are put into `count` new buckets. -/
def fill (min bucketSize count : ℤ) (entries : List (ℤ × ℕ)) : Option (List HistogramBucket) :=
  entries.foldlM (place min bucketSize) (List.replicate count.toNat HistogramBucket.empty)

/-- The number of buckets a bucket is divided into, and their width. -/
def splitSizes (valueRange splitCount : ℤ) : ℤ × ℤ :=
  if valueRange < splitCount then (valueRange, 1)
  else (splitCount, bucketWidth valueRange splitCount)

/-- **`HistogramBucket::split`** -/
def split (splitCount : ℤ) : HistogramBucket → Option HistogramBucket
  | .leaf min max entries =>
    let (splitSize, bucketSize) := splitSizes (valueRange min max) splitCount
    (fill min bucketSize splitSize entries).map fun buckets =>
      .sub entries.length min max bucketSize buckets
  | bucket => some bucket

/-! ### The histogram -/

/-- **`AdaptiveHistogram`** -/
structure AdaptiveHistogram where
  root : HistogramBucket
  splitCount : ℤ
  bucketThreshold : ℚ

/-- `bucketThreshold`: 10% more than the documents of a bucket. -/
def threshold (docCount : ℕ) (bucketCount : ℤ) : ℚ :=
  toDouble (toDouble (docCount / bucketCount.toNat : ℕ) * toDouble (11 / 10))

/-- Whether a bucket is too full. -/
def exceeds (bucketThreshold : ℚ) (docCount : ℕ) : Bool := bucketThreshold < toDouble docCount

/-- The documents of the ranges. -/
def documents (relevantDocuments : List (ℕ × ℕ)) : List ℕ :=
  relevantDocuments.flatMap fun r => List.range' r.1 (r.2 + 1 - r.1)

/-- The documents in their buckets, of which those that are too full are divided. -/
def build (splitCount min max : ℤ) (entries : List (ℤ × ℕ)) : Option AdaptiveHistogram :=
  let bucketSize := bucketWidth (valueRange min max) splitCount
  let bucketThreshold := threshold entries.length splitCount
  (fill min bucketSize splitCount entries).bind fun buckets =>
    (buckets.mapM fun bucket =>
      if exceeds bucketThreshold bucket.docCount then split splitCount bucket else some bucket).map
      fun buckets =>
        ⟨.sub entries.length min max bucketSize buckets, splitCount, bucketThreshold⟩

/-- **`AdaptiveHistogram::initialSplit`**, where `getInt64` reads the values of the documents. -/
def initialSplit (getInt64 : ℕ → ℤ) (splitCount : ℤ) (relevantDocuments : List (ℕ × ℕ))
    (min max : ℤ) : Option AdaptiveHistogram :=
  build splitCount min max ((documents relevantDocuments).map fun k => (getInt64 k, k))

/-- **`AdaptiveHistogram::initialSplitWithValues`**, with the values in the order of the documents. -/
def initialSplitWithValues (values : List ℤ) (splitCount : ℤ) (relevantDocuments : List (ℕ × ℕ))
    (min max : ℤ) : Option AdaptiveHistogram :=
  build splitCount min max (values.zip (documents relevantDocuments))

/-! ### Searches -/

/-- The documents of a list. -/
def docsOf (entries : List (ℤ × ℕ)) : Finset ℕ := (entries.map Prod.snd).toFinset

mutual

/-- `setAll` -/
def setAll : HistogramBucket → Finset ℕ
  | .leaf _ _ entries => docsOf entries
  | .sub _ _ _ _ buckets => setAllOf buckets

def setAllOf : List HistogramBucket → Finset ℕ
  | [] => ∅
  | bucket :: buckets =>
    (if bucket.docCount = 0 then ∅ else setAll bucket) ∪ setAllOf buckets

end

/-- What the searches differ in. -/
structure Search where
  value : ℤ
  /-- The search returns at once. -/
  outside : HistogramBucket → Bool
  /-- The bucket of the value is looked into. -/
  checks : HistogramBucket → Bool
  /-- A value is what is searched for. -/
  selects : ℤ → Bool
  /-- With the value in the first bucket, the second one is taken as a whole. -/
  takes : ℕ → ℕ → Bool

/-- `findEqual` -/
def findEqual (value : ℤ) : Search where
  value := value
  outside bucket := value < bucket.min || bucket.max < value
  checks bucket := !(bucket.docCount == 0 || value < bucket.min || bucket.max < value)
  selects v := v == value
  takes _ _ := false

/-- `findLess` -/
def findLess (value : ℤ) (includes : Bool) : Search where
  value := value
  outside bucket := value < bucket.min
  checks bucket := bucket.min ≤ value
  selects v := if includes then v ≤ value else v < value
  takes bucketNum b := b < bucketNum

/-- `findMore` -/
def findMore (value : ℤ) (includes : Bool) : Search where
  value := value
  outside bucket := bucket.max < value
  checks bucket := value ≤ bucket.max
  selects v := if includes then value ≤ v else value < v
  takes bucketNum b := bucketNum < b

/-- The other buckets. -/
def others (takes : ℕ → Bool) : ℕ → List HistogramBucket → Finset ℕ
  | _, [] => ∅
  | b, bucket :: buckets =>
    (if takes b then setAll bucket else ∅) ∪ others takes (b + 1) buckets

/-- A bucket is divided before the search goes on in it. -/
def divides (bucketThreshold : ℚ) (splitted : Bool) (min max : ℤ) (entries : List (ℤ × ℕ)) : Bool :=
  exceeds bucketThreshold entries.length && !splitted && min != max

section Search

variable (s : Search) (splitCount : ℤ) (bucketThreshold : ℚ)

/-- The search in the bucket of the value, with the search in a divided bucket. -/
def look (go : HistogramBucket → Bool → Option (HistogramBucket × Finset ℕ × Bool))
    (bucket : HistogramBucket) (splitted : Bool) : Option (HistogramBucket × Finset ℕ × Bool) :=
  if s.checks bucket then
    match bucket with
    | .sub .. => go bucket splitted
    | .leaf min max entries =>
      if divides bucketThreshold splitted min max entries then
        (split splitCount bucket).bind fun bucket => go bucket true
      else some (bucket, docsOf (entries.filter fun e => s.selects e.1), splitted)
  else some (bucket, ∅, splitted)

/-- **A search** in a divided bucket: the bucket afterwards, the documents found and whether a bucket
has been divided for the context. It is `none` where `at` throws and when the fuel runs out. -/
def search : ℕ → HistogramBucket → Bool → Option (HistogramBucket × Finset ℕ × Bool)
  | 0, _, _ => none
  | _ + 1, .leaf .., _ => none
  | fuel + 1, .sub docCount min max bucketSize buckets, splitted =>
    if s.outside (.sub docCount min max bucketSize buckets) then
      some (.sub docCount min max bucketSize buckets, ∅, splitted)
    else
      let bucketNum := bucketNum s.value min bucketSize
      (bucketAt buckets bucketNum).bind fun bucket =>
        (look s splitCount bucketThreshold (search fuel) bucket splitted).map
          fun (bucket, result, splitted) =>
            (.sub docCount min max bucketSize (buckets.set bucketNum.toNat bucket),
              result ∪ others (s.takes bucketNum.toNat) 0 buckets, splitted)

end Search

/-! ### `NumberIndex` -/

/-- The search of a comparison. -/
def searchOf (value : ℤ) : CmpType → Option Search
  | .EQUALS => some (findEqual value)
  | .NOT_EQUALS => some (findEqual value)
  | .LT => some (findLess value false)
  | .LTE => some (findLess value true)
  | .GT => some (findMore value false)
  | .GTE => some (findMore value true)
  | .STARTS_WITH => none

/-- A call of `find`, with what the context says about divided buckets. -/
structure Call where
  value : ℤ
  comparisonType : CmpType
  splitted : Bool

/-- **`NumberIndex::find`** in a container of `size` documents. -/
def find (size : ℕ) (call : Call) (h : AdaptiveHistogram) (fuel : ℕ) :
    Option (Finset ℕ × AdaptiveHistogram) :=
  match searchOf call.value call.comparisonType with
  | none => some (∅, h)
  | some s =>
    (search s h.splitCount h.bucketThreshold fuel h.root call.splitted).map fun (root, result, _) =>
      (if call.comparisonType = .NOT_EQUALS then Finset.range size \ result else result,
        { h with root := root })

/-! ### The entries -/

mutual

/-- The values with their documents. -/
def HistogramBucket.entries : HistogramBucket → List (ℤ × ℕ)
  | .leaf _ _ entries => entries
  | .sub _ _ _ _ buckets => entriesOf buckets

def entriesOf : List HistogramBucket → List (ℤ × ℕ)
  | [] => []
  | bucket :: buckets => bucket.entries ++ entriesOf buckets

end

/-- **The invariant**: the values of a bucket lie between its extremes, and those of the smaller
buckets in intervals of equal width. -/
inductive Ordered : HistogramBucket → Prop
  | leaf {min max : ℤ} {entries : List (ℤ × ℕ)} (bounds : ∀ e ∈ entries, min ≤ e.1 ∧ e.1 ≤ max) :
      Ordered (.leaf min max entries)
  | sub {docCount : ℕ} {min max bucketSize : ℤ} {buckets : List HistogramBucket}
      (count : docCount = (entriesOf buckets).length) (size : 0 < bucketSize)
      (length : buckets.length < 2 ^ 31)
      (bounds : ∀ e ∈ entriesOf buckets, min ≤ e.1 ∧ e.1 ≤ max)
      (intervals : ∀ (i : ℕ) b, buckets[i]? = some b → ∀ e ∈ b.entries,
        min + i * bucketSize ≤ e.1 ∧ e.1 < min + (i + 1) * bucketSize)
      (ordered : ∀ b ∈ buckets, Ordered b) : Ordered (.sub docCount min max bucketSize buckets)

theorem mem_entriesOf {e : ℤ × ℕ} : ∀ {buckets : List HistogramBucket},
    e ∈ entriesOf buckets ↔ ∃ b ∈ buckets, e ∈ b.entries
  | [] => by simp [entriesOf]
  | b :: buckets => by
    rw [entriesOf, List.mem_append, mem_entriesOf, List.exists_mem_cons_iff]

/-- A bucket that gains entries, among the others. -/
theorem entriesOf_set {b b' : HistogramBucket} {more : List (ℤ × ℕ)}
    (h : b'.entries.Perm (b.entries ++ more)) : ∀ {buckets : List HistogramBucket} {i : ℕ},
    buckets[i]? = some b → (entriesOf (buckets.set i b')).Perm (entriesOf buckets ++ more)
  | [], _, hi => by simp at hi
  | c :: buckets, 0, hi => by
    rw [List.getElem?_cons_zero] at hi
    obtain rfl := Option.some.inj hi
    rw [List.set_cons_zero, entriesOf, entriesOf]
    refine (h.append_right _).trans ?_
    rw [List.append_assoc, List.append_assoc]
    exact List.Perm.append_left _ List.perm_append_comm
  | c :: buckets, i + 1, hi => by
    rw [List.getElem?_cons_succ] at hi
    rw [List.set_cons_succ, entriesOf, entriesOf, List.append_assoc]
    exact (entriesOf_set h hi).append_left _

theorem entriesOf_replicate (n : ℕ) :
    entriesOf (List.replicate n HistogramBucket.empty) = [] := by
  induction n with
  | zero => rfl
  | succ n ih =>
    rw [List.replicate_succ, entriesOf, ih]
    rfl

theorem Ordered.docCount_eq {b : HistogramBucket} (h : Ordered b) :
    b.docCount = b.entries.length := by
  cases h with
  | leaf bounds => rfl
  | sub count size length bounds intervals ordered => exact count

theorem Ordered.bounds {b : HistogramBucket} (h : Ordered b) :
    ∀ e ∈ b.entries, b.min ≤ e.1 ∧ e.1 ≤ b.max := by
  cases h with
  | leaf bounds => exact bounds
  | sub count size length bounds intervals ordered => exact bounds

/-! ### Numbers in range -/

theorem int64_eq {z : ℤ} (hlo : -2 ^ 63 ≤ z) (hhi : z < 2 ^ 63) : int64 z = z := by
  unfold int64
  exact Int.bmod_eq_of_le_mul_two (by omega) (by omega)

theorem valueRange_eq {min max : ℤ} (hle : min ≤ max) (h : max - min + 1 < 2 ^ 63) :
    valueRange min max = max - min + 1 := by
  have hdiff : int64 (max - min) = max - min := int64_eq (by omega) (by omega)
  unfold valueRange
  rw [hdiff]
  have habs : ((max - min).natAbs : ℤ) = max - min := by omega
  rw [habs]
  exact int64_eq (by omega) (by omega)

/-- The value's place is that of a bucket, as an integer. -/
structure Fits (value min bucketSize : ℤ) (i : ℕ) : Prop where
  lower : -2 ^ 63 ≤ value - min
  upper : value - min < 2 ^ 63
  place : (value - min).tdiv bucketSize = i

theorem Fits.bucketNum_eq {value min bucketSize : ℤ} {i : ℕ} (h : Fits value min bucketSize i)
    (hi : i < 2 ^ 31) : bucketNum value min bucketSize = i := by
  unfold bucketNum
  rw [int64_eq h.lower h.upper, h.place]
  exact Int.bmod_eq_of_le_mul_two (by omega) (by omega)

/-- The value is not beyond its bucket, and not before it unless this is the first one. -/
theorem Fits.interval {value min bucketSize : ℤ} {i : ℕ} (h : Fits value min bucketSize i)
    (hsize : 0 < bucketSize) : value < min + (i + 1) * bucketSize ∧
      (0 < i → min + i * bucketSize ≤ value) := by
  have hplace := h.place
  have hdiv := Int.tmod_add_mul_tdiv (value - min) bucketSize
  rw [hplace] at hdiv
  have hlt : (value - min).tmod bucketSize < bucketSize := Int.tmod_lt_of_pos _ hsize
  constructor
  · linarith [mul_comm bucketSize (i : ℤ)]
  · intro hi
    have hnonneg : 0 ≤ value - min := by
      by_contra hneg
      have hneg' : (value - min).tdiv bucketSize = -((min - value).tdiv bucketSize) := by
        rw [← Int.neg_tdiv, neg_sub]
      have := Int.tdiv_nonneg (show 0 ≤ min - value by omega) (le_of_lt hsize)
      omega
    have := Int.tmod_nonneg bucketSize hnonneg
    linarith [mul_comm bucketSize (i : ℤ)]

/-- A value from the minimum on has a place. -/
theorem fits_of_le {value min bucketSize : ℤ} (hle : min ≤ value) (h : value - min < 2 ^ 63)
    (hsize : 0 < bucketSize) : Fits value min bucketSize ((value - min) / bucketSize).toNat := by
  refine ⟨by omega, h, ?_⟩
  rw [Int.tdiv_eq_ediv_of_nonneg (by omega)]
  have := Int.ediv_nonneg (show 0 ≤ value - min by omega) (le_of_lt hsize)
  omega

end Joda.Index.Histogram
