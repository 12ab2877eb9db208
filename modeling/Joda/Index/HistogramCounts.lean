import Joda.Index.HistogramRuns

/-! # The counters of a histogram

Whatever the values and the extremes, a histogram that is built has the documents it is built for, and
searches keep them (`run_counted`): buckets that are divided count what they had. -/

namespace Joda.Index.Histogram

open Joda.Lib.Fuel Joda.Lib.Runs

variable {splitCount min bucketSize : ℤ} {bucketThreshold : ℚ}

/-! ### Counters -/

/-- **The counters are right**, whatever the values and the extremes. -/
inductive Counted : HistogramBucket → Prop
  | leaf {min max : ℤ} {entries : List (ℤ × ℕ)} : Counted (.leaf min max entries)
  | sub {docCount : ℕ} {min max bucketSize : ℤ} {buckets : List HistogramBucket}
      (count : docCount = (entriesOf buckets).length) (below : ∀ b ∈ buckets, Counted b) :
      Counted (.sub docCount min max bucketSize buckets)

/-- A bucket in the place of another, with its entries and right counters. -/
def Keeps (b b' : HistogramBucket) : Prop := Counted b' ∧ b'.entries.Perm b.entries

theorem Counted.docCount_eq {b : HistogramBucket} (h : Counted b) : b.docCount = b.entries.length := by
  cases h with
  | leaf => rfl
  | sub count below => exact count

theorem counted_of_leaf {b : HistogramBucket} (h : b.hasSub = false) : Counted b := by
  cases b with
  | leaf => exact .leaf
  | sub => cases h

/-- A bucket of smaller buckets, each in the place of another. -/
theorem counted_sub {docCount : ℕ} {min max bucketSize : ℤ} {entries : List (ℤ × ℕ)}
    {buckets : List HistogramBucket} (hcount : docCount = entries.length)
    (hperm : (entriesOf buckets).Perm entries) (hbelow : ∀ b ∈ buckets, Counted b) :
    Counted (.sub docCount min max bucketSize buckets) ∧
      (HistogramBucket.sub docCount min max bucketSize buckets).entries.Perm entries :=
  ⟨.sub (by rw [hcount, hperm.length_eq]) hbelow, hperm⟩

/-! ### Filling and dividing -/

theorem push_entries {b : HistogramBucket} (h : b.hasSub = false) (e : ℤ × ℕ) :
    (b.push e).hasSub = false ∧ (b.push e).entries = b.entries ++ [e] := by
  cases b with
  | leaf => exact ⟨rfl, rfl⟩
  | sub => cases h

theorem bucketAt_some {buckets : List HistogramBucket} {bucketNum : ℤ} {b : HistogramBucket}
    (h : bucketAt buckets bucketNum = some b) : buckets[bucketNum.toNat]? = some b := by
  unfold bucketAt at h
  split_ifs at h
  exact h

theorem place_entries {buckets buckets' : List HistogramBucket} {e : ℤ × ℕ}
    (hleaf : ∀ b ∈ buckets, b.hasSub = false) (h : place min bucketSize buckets e = some buckets') :
    (∀ b ∈ buckets', b.hasSub = false) ∧ (entriesOf buckets').Perm (entriesOf buckets ++ [e]) := by
  obtain ⟨b, hb, rfl⟩ := Option.map_eq_some_iff.mp h
  have hget := bucketAt_some hb
  obtain ⟨h1, h2⟩ := push_entries (hleaf b (List.mem_of_getElem? hget)) e
  refine ⟨fun c hc => ?_, entriesOf_set (by rw [h2]) hget⟩
  rcases List.mem_or_eq_of_mem_set hc with hc | rfl
  · exact hleaf c hc
  · exact h1

theorem foldlM_place_entries : ∀ {entries : List (ℤ × ℕ)} {buckets buckets' : List HistogramBucket},
    (∀ b ∈ buckets, b.hasSub = false) →
    entries.foldlM (place min bucketSize) buckets = some buckets' →
    (∀ b ∈ buckets', b.hasSub = false) ∧ (entriesOf buckets').Perm (entriesOf buckets ++ entries)
  | [], buckets, buckets', hleaf, h => by
    obtain rfl := Option.some.inj h
    rw [List.append_nil]
    exact ⟨hleaf, List.Perm.refl _⟩
  | e :: entries, buckets, buckets', hleaf, h => by
    rw [List.foldlM_cons] at h
    obtain ⟨buckets₁, hplace, hrest⟩ := Option.bind_eq_some_iff.mp h
    obtain ⟨hleaf₁, hperm₁⟩ := place_entries hleaf hplace
    obtain ⟨hleaf', hperm'⟩ := foldlM_place_entries hleaf₁ hrest
    refine ⟨hleaf', hperm'.trans ?_⟩
    have happend := hperm₁.append_right entries
    rwa [List.append_assoc, List.singleton_append] at happend

/-- **New buckets** have the entries that are put into them. -/
theorem fill_entries {count : ℤ} {entries : List (ℤ × ℕ)} {buckets : List HistogramBucket}
    (h : fill min bucketSize count entries = some buckets) :
    (∀ b ∈ buckets, b.hasSub = false) ∧ (entriesOf buckets).Perm entries := by
  obtain ⟨hleaf, hperm⟩ := foldlM_place_entries
    (fun b hb => by rw [List.eq_of_mem_replicate hb]; rfl) h
  rw [entriesOf_replicate, List.nil_append] at hperm
  exact ⟨hleaf, hperm⟩

theorem split_keeps {b b' : HistogramBucket} (hb : Counted b) (h : split splitCount b = some b') :
    Keeps b b' := by
  cases b with
  | leaf min max entries =>
    obtain ⟨buckets, hfill, rfl⟩ := Option.map_eq_some_iff.mp h
    obtain ⟨hleaf, hperm⟩ := fill_entries hfill
    exact counted_sub rfl hperm fun b hb => counted_of_leaf (hleaf b hb)
  | sub =>
    obtain rfl := Option.some.inj h
    exact ⟨hb, List.Perm.refl _⟩

/-- **A histogram that is built** has the entries. -/
theorem build_counted {max : ℤ} {entries : List (ℤ × ℕ)} {h : AdaptiveHistogram}
    (hbuild : build splitCount min max entries = some h) :
    Counted h.root ∧ h.root.entries.Perm entries := by
  obtain ⟨buckets, hfill, hdivide⟩ := Option.bind_eq_some_iff.mp hbuild
  obtain ⟨buckets', hdivided, rfl⟩ := Option.map_eq_some_iff.mp hdivide
  obtain ⟨hleaf, hperm⟩ := fill_entries hfill
  have hkeeps : List.Forall₂ Keeps buckets buckets' :=
    ((List.forall₂_and_left _ _).mpr ⟨hleaf, forall₂_of_mapM hdivided⟩).imp fun b b' hb => by
      obtain ⟨hb, hb'⟩ := hb
      split_ifs at hb' with hexceeds
      · exact split_keeps (counted_of_leaf hb) hb'
      · obtain rfl := Option.some.inj hb'
        exact ⟨counted_of_leaf hb, List.Perm.refl _⟩
  have hflip : List.Forall₂ (fun b' b => Counted b' ∧ b'.entries.Perm b.entries) buckets' buckets :=
    List.Forall₂.flip hkeeps
  have hbelow := ((List.forall₂_and_left _ _).mp hflip).1
  exact counted_sub rfl ((entriesOf_perm (hkeeps.imp fun _ _ h => h.2)).trans hperm) hbelow

/-! ### Searches -/

/-- The bucket that is looked into. -/
theorem look_keeps {s : Search} {b b' : HistogramBucket} {splitted splitted' : Bool}
    {result : Finset ℕ} {go : HistogramBucket → Bool → Option (HistogramBucket × Finset ℕ × Bool)}
    (hgo : ∀ {b b' : HistogramBucket} {splitted splitted' : Bool} {result : Finset ℕ}, Counted b →
      go b splitted = some (b', result, splitted') → Keeps b b') (hb : Counted b)
    (h : look s splitCount bucketThreshold go b splitted = some (b', result, splitted')) :
    Keeps b b' := by
  unfold look at h
  split_ifs at h with hchecks
  · cases b with
    | leaf min max entries =>
      dsimp only at h
      split_ifs at h with hdivides
      · obtain ⟨c, hc, h⟩ := Option.bind_eq_some_iff.mp h
        obtain ⟨hcounted, hperm⟩ := split_keeps hb hc
        obtain ⟨hcounted', hperm'⟩ := hgo hcounted h
        exact ⟨hcounted', hperm'.trans hperm⟩
      · obtain ⟨rfl, -⟩ := Prod.mk.inj (Option.some.inj h)
        exact ⟨hb, List.Perm.refl _⟩
    | sub => exact hgo hb h
  · obtain ⟨rfl, -⟩ := Prod.mk.inj (Option.some.inj h)
    exact ⟨hb, List.Perm.refl _⟩

/-- **A search** keeps the entries and the counters right. -/
theorem search_keeps (s : Search) (fuel : ℕ) : ∀ {b b' : HistogramBucket} {splitted splitted' : Bool}
    {result : Finset ℕ}, Counted b →
    search s splitCount bucketThreshold fuel b splitted = some (b', result, splitted') →
    Keeps b b' := by
  induction fuel with
  | zero => exact fun _ h => by cases h
  | succ fuel ih =>
    intro b b' splitted splitted' result hb h
    cases hb with
    | leaf => cases h
    | @sub docCount min max bucketSize buckets count below =>
      unfold search at h
      split_ifs at h with houtside
      · obtain ⟨rfl, -⟩ := Prod.mk.inj (Option.some.inj h)
        exact ⟨.sub count below, List.Perm.refl _⟩
      · obtain ⟨c, hc, h⟩ := Option.bind_eq_some_iff.mp h
        obtain ⟨⟨c', result', splitted'⟩, hlook, h⟩ := Option.map_eq_some_iff.mp h
        obtain ⟨rfl, -⟩ := Prod.mk.inj h
        have hget := bucketAt_some hc
        obtain ⟨hcounted, hperm⟩ := look_keeps ih (below c (List.mem_of_getElem? hget)) hlook
        have hset : (entriesOf (buckets.set _ c')).Perm (entriesOf buckets ++ []) :=
          entriesOf_set (by rw [List.append_nil]; exact hperm) hget
        rw [List.append_nil] at hset
        refine counted_sub count hset fun d hd => ?_
        rcases List.mem_or_eq_of_mem_set hd with hd | rfl
        · exact below d hd
        · exact hcounted

/-- **After any queries** the histogram still has the entries. -/
theorem run_counted {size : ℕ} {max : ℤ} {entries : List (ℤ × ℕ)} {start h : AdaptiveHistogram}
    {past : List (AdaptiveHistogram × Call)}
    (hbuild : build splitCount min max entries = some start)
    (hrun : Run (· = start) (Step size) past h) :
    Counted h.root ∧ h.root.entries.Perm entries := by
  have hinv := hrun.invariant (fun h => Counted h.root ∧ h.root.entries.Perm entries)
    (fun _ _ => True) (fun h' hh => by rw [show h' = start from hh]; exact build_counted hbuild)
    (fun call h h' hh _ hst => ?_) fun _ _ => trivial
  · exact hinv.1
  · obtain ⟨result, N, hN⟩ := hst
    have hfind := hN N le_rfl
    unfold find at hfind
    split at hfind
    · obtain ⟨-, rfl⟩ := Prod.mk.inj (Option.some.inj hfind)
      exact hh
    · obtain ⟨⟨root, result', splitted⟩, hsearch, hfind⟩ := Option.map_eq_some_iff.mp hfind
      obtain ⟨-, rfl⟩ := Prod.mk.inj hfind
      obtain ⟨hcounted, hperm⟩ := search_keeps _ _ hh.1 hsearch
      exact ⟨hcounted, hperm.trans hh.2⟩

end Joda.Index.Histogram
