import Joda.Index.FirstVisit

/-! # The ranges of the first visit

A document is filed under the type of what the visit sees in it; an array does not end the open range,
and is filed under the type of the document before it (`filed`). The ranges are always valid, and have
the documents as they are filed (`recordRanges_spec`); so they are exact if and only if every document is
filed under the type of its value. -/

namespace Joda.Index.FirstVisit

open Joda.Values.Value Joda.Values.Pointer Joda.Values.PointerSet
open Joda.Index.Query Joda.Index.Trie Joda.Index.Histogram Joda.Lib.Ranges

variable {F : Type}

/-! ### One document -/

namespace TypeRanges

/-- The recorder's invariant for the ranges of a helper. -/
abbrev Records (r : TypeRanges) (current : Option RangeType) (next : ℕ)
    (recorded : RangeType → ℕ → Prop) : Prop :=
  Recording r.isWithinValid r.documents current next recorded

variable {r : TypeRanges} {current : Option RangeType} {next : ℕ} {recorded : RangeType → ℕ → Prop}

/-- The open range is the one `resetRange` finds. -/
theorem find_open (h : r.Records current next recorded) :
    [RangeType.string, .number, .object, .true, .false, .null].find? r.isWithinValid = current := by
  have hiff := h.within_iff
  cases current with
  | none =>
    rw [List.find?_eq_none]
    intro t _ ht
    have := (hiff t).mp ht
    cases this
  | some s =>
    have hs : r.isWithinValid s = true := (hiff s).mpr rfl
    have hne : ∀ t, t ≠ s → r.isWithinValid t = false := fun t ht => by
      rw [← Bool.not_eq_true, hiff t]
      exact fun heq => ht (Option.some.inj heq).symm
    cases s <;> simp [List.find?, hs, hne]

theorem resetRange_spec (h : r.Records current next recorded) :
    (r.resetRange (next - 1)).Records none next recorded := by
  unfold resetRange
  rw [find_open h]
  cases current with
  | none => exact h
  | some t => exact Recording.finish h

/-- The six checks are one. -/
theorem enter_eq (t : RangeType) (k : ℕ) (r : TypeRanges) :
    r.enter t k = if r.isWithinValid t then r else r.check t k := by
  unfold enter
  split_ifs
  · rfl
  · cases t <;> rfl

/-- **A document whose value has the type.** -/
theorem enter_spec (t : RangeType) (h : r.Records current next recorded) :
    (r.enter t next).Records (some t) (next + 1) fun s j => recorded s j ∨ s = t ∧ j = next := by
  rw [enter_eq]
  split_ifs with hwithin
  · obtain rfl := (h.within_iff t).mp hwithin
    exact h.extend
  · have hfind := find_open h
    have hne : current ≠ some t := fun heq => hwithin ((h.within_iff t).mpr heq)
    unfold check resetRange
    dsimp only
    rw [hfind]
    cases current with
    | none => exact Recording.start t h
    | some s =>
      have hst : s ≠ t := fun heq => hne (by rw [heq])
      have hstart := Recording.start t (Recording.finish h)
      dsimp only
      rw [Function.update_of_ne hst] at *
      rw [Function.update_of_ne hst.symm] at hstart
      rwa [Function.update_comm hst.symm]

/-- The type a document is filed under: an array leaves it as it was. -/
def fileAs (val : Option (RJValue F)) (current : Option RangeType) : Option RangeType :=
  match val with
  | some (.array _) => current
  | val => val.bind rangeType

/-- **What one document does to the ranges.** -/
theorem record_spec (val : Option (RJValue F)) (h : r.Records current next recorded) :
    (r.record val next).Records (fileAs val current) (next + 1) fun t j =>
      recorded t j ∨ fileAs val current = some t ∧ j = next := by
  have hnone : ∀ {r' : TypeRanges}, r'.Records none next recorded →
      r'.Records none (next + 1) fun t j => recorded t j ∨ (none : Option RangeType) = some t ∧ j = next :=
    fun h' => (Recording.skip h' (Nat.le_succ next)).congr fun t j => by simp
  cases val with
  | none => exact hnone (resetRange_spec h)
  | some v =>
    have henter : ∀ t, (r.enter t next).Records (some t) (next + 1) fun s j =>
        recorded s j ∨ some t = some s ∧ j = next := fun t =>
      (enter_spec t h).congr fun s j => by rw [Option.some_inj, eq_comm]
    cases v with
    | array vs =>
      cases current with
      | none => exact hnone h
      | some t =>
        exact (Recording.extend h).congr fun s j => by
          rw [fileAs, Option.some_inj, eq_comm]
    | _ => exact henter _

end TypeRanges

/-! ### All documents -/

open TypeRanges

/-- **The type a document is filed under**, in a range that starts at `lo`. -/
def filed (a : ℕ → Option (RJValue F)) (lo : ℕ) : ℕ → Option RangeType
  | 0 => fileAs (a 0) none
  | k + 1 => fileAs (a (k + 1)) (if lo ≤ k then filed a lo k else none)

/-- The ranges are filled with these documents. -/
def recordRange (a : ℕ → Option (RJValue F)) (lo hi : ℕ) (r : TypeRanges) : TypeRanges :=
  ((List.range' lo (hi + 1 - lo)).foldl (fun r k => r.record (a k) k) r).resetRange hi

def recordRanges (a : ℕ → Option (RJValue F)) : List ℕ → TypeRanges → TypeRanges
  | lo :: hi :: rest, r => recordRanges a rest (recordRange a lo hi r)
  | _, r => r

def isArray : Option (RJValue F) → Bool
  | some (.array _) => true
  | _ => false

/-- **A document that is filed under a type**: its value has the type, or it is an array, and of the
documents before it in its range the last one that is none has the type. -/
def FiledIn (a : ℕ → Option (RJValue F)) (R : List ℕ) (t : RangeType) (k : ℕ) : Prop :=
  ∃ p ∈ pairs R, ∃ j, p.1 ≤ j ∧ j ≤ k ∧ k ≤ p.2 ∧ (a j).bind rangeType = some t ∧
    ∀ i, j < i → i ≤ k → isArray (a i) = true

section Record

variable {a : ℕ → Option (RJValue F)} {r : TypeRanges} {lo hi : ℕ} {recorded : RangeType → ℕ → Prop}

theorem filed_self : filed a lo lo = fileAs (a lo) none := by
  cases lo with
  | zero => rfl
  | succ k => rw [filed, if_neg (by omega)]

theorem filed_succ {k : ℕ} (h : lo ≤ k) : filed a lo (k + 1) = fileAs (a (k + 1)) (filed a lo k) := by
  rw [filed, if_pos h]

/-- The documents of a range, as far as the visit is. -/
theorem foldl_record_spec (h : r.Records none lo recorded) (n : ℕ) :
    ((List.range' lo (n + 1)).foldl (fun r k => r.record (a k) k) r).Records (filed a lo (lo + n))
      (lo + n + 1) fun t j => recorded t j ∨ lo ≤ j ∧ j ≤ lo + n ∧ filed a lo j = some t := by
  induction n with
  | zero =>
    have hstep := record_spec (a lo) h
    rw [← filed_self] at hstep
    refine hstep.congr fun t j => or_congr Iff.rfl ?_
    constructor
    · rintro ⟨hf, rfl⟩
      exact ⟨le_refl _, le_refl _, hf⟩
    · rintro ⟨h1, h2, hf⟩
      obtain rfl : j = lo := by omega
      exact ⟨hf, rfl⟩
  | succ n ih =>
    rw [List.range'_concat, List.foldl_append]
    have hstep := record_spec (a (lo + n + 1)) ih
    rw [← filed_succ (by omega : lo ≤ lo + n)] at hstep
    rw [one_mul]
    refine hstep.congr fun t j => ?_
    rw [or_assoc]
    refine or_congr Iff.rfl ?_
    constructor
    · rintro (⟨h1, h2, hf⟩ | ⟨hf, rfl⟩)
      · exact ⟨h1, by omega, hf⟩
      · exact ⟨by omega, by omega, hf⟩
    · rintro ⟨h1, h2, hf⟩
      rcases Nat.lt_or_ge (lo + n) j with hlt | hle
      · obtain rfl : j = lo + n + 1 := by omega
        exact .inr ⟨hf, rfl⟩
      · exact .inl ⟨h1, hle, hf⟩

theorem recordRange_spec (hle : lo ≤ hi) (h : r.Records none lo recorded) :
    (recordRange a lo hi r).Records none (hi + 1) fun t j =>
      recorded t j ∨ lo ≤ j ∧ j ≤ hi ∧ filed a lo j = some t := by
  have hfold := foldl_record_spec (a := a) h (hi - lo)
  rw [show hi - lo + 1 = hi + 1 - lo by omega, show lo + (hi - lo) = hi by omega] at hfold
  exact resetRange_spec hfold

theorem recordRanges_spec {R : List ℕ} (hR : Valid R) {next : ℕ} (hnext : ∀ x ∈ R, next ≤ x)
    (h : r.Records none next recorded) :
    ∃ next', (recordRanges a R r).Records none next' fun t j =>
      recorded t j ∨ ∃ p ∈ pairs R, p.1 ≤ j ∧ j ≤ p.2 ∧ filed a p.1 j = some t := by
  induction hR generalizing r next recorded with
  | nil => exact ⟨next, h.congr fun t j => by simp [pairs]⟩
  | @cons lo hi rest le lt tail ih =>
    have hlo : next ≤ lo := hnext lo List.mem_cons_self
    obtain ⟨next', hrest⟩ := ih (fun x hx => lt x hx) (recordRange_spec (a := a) le (h.skip hlo))
    refine ⟨next', hrest.congr fun t j => ?_⟩
    simp only [pairs, List.exists_mem_cons_iff, or_assoc]

/-- A document that is no array is filed under its own type. -/
theorem fileAs_eq {val : Option (RJValue F)} (h : isArray val = false) (current : Option RangeType) :
    fileAs val current = val.bind rangeType := by
  rcases val with - | v
  · rfl
  · cases v <;> first | rfl | cases h

/-- An array is filed under the type of the document before it. -/
theorem fileAs_array {val : Option (RJValue F)} (h : isArray val = true) (current : Option RangeType) :
    fileAs val current = current ∧ val.bind rangeType = none := by
  rcases val with - | v
  · cases h
  · cases v <;> first | exact ⟨rfl, rfl⟩ | cases h

theorem filed_eq_some {k : ℕ} {t : RangeType} (h : lo ≤ k) :
    filed a lo k = some t ↔ ∃ j, lo ≤ j ∧ j ≤ k ∧ (a j).bind rangeType = some t ∧
      ∀ i, j < i → i ≤ k → isArray (a i) = true := by
  induction k, h using Nat.le_induction with
  | base =>
    rw [filed_self]
    have hself : (∃ j, lo ≤ j ∧ j ≤ lo ∧ (a j).bind rangeType = some t ∧
        ∀ i, j < i → i ≤ lo → isArray (a i) = true) ↔ (a lo).bind rangeType = some t := by
      constructor
      · rintro ⟨j, h1, h2, hj, -⟩
        rwa [Nat.le_antisymm h2 h1] at hj
      · exact fun hj => ⟨lo, le_refl _, le_refl _, hj, fun i h1 h2 => by omega⟩
    rw [hself]
    rcases harray : isArray (a lo)
    · rw [fileAs_eq harray]
    · rw [(fileAs_array harray none).1, (fileAs_array harray none).2]
  | succ k hk ih =>
    rw [filed_succ hk]
    rcases harray : isArray (a (k + 1))
    · rw [fileAs_eq harray]
      constructor
      · exact fun hj => ⟨k + 1, by omega, le_refl _, hj, fun i h1 h2 => by omega⟩
      · rintro ⟨j, h1, h2, hj, hall⟩
        rcases Nat.lt_or_ge j (k + 1) with hlt | hge
        · rw [hall (k + 1) hlt (le_refl _)] at harray
          cases harray
        · rwa [Nat.le_antisymm h2 hge] at hj
    · rw [(fileAs_array harray _).1, ih]
      constructor
      · rintro ⟨j, h1, h2, hj, hall⟩
        refine ⟨j, h1, by omega, hj, fun i hi hik => ?_⟩
        rcases Nat.lt_or_ge k i with hlt | hge
        · rwa [Nat.le_antisymm hik hlt]
        · exact hall i hi hge
      · rintro ⟨j, h1, h2, hj, hall⟩
        rcases Nat.lt_or_ge j (k + 1) with hlt | hge
        · exact ⟨j, h1, by omega, hj, fun i hi hik => hall i hi (by omega)⟩
        · rw [Nat.le_antisymm h2 hge, (fileAs_array harray none).2] at hj
          cases hj

/-- **The ranges have the documents as they are filed.** -/
theorem recordRanges_empty {R : List ℕ} (hR : Valid R) (t : RangeType) :
    Valid ((recordRanges a R .empty).documents t) ∧
      ∀ k, k ∈ elements ((recordRanges a R .empty).documents t) ↔ FiledIn a R t k := by
  have hempty : TypeRanges.empty.Records none 0 fun _ _ => False := Recording.empty
  obtain ⟨next', h⟩ := recordRanges_spec (a := a) hR (fun x _ => Nat.zero_le x) hempty
  obtain ⟨hvalid, -, hmem⟩ := h.closed t (by simp)
  refine ⟨hvalid, fun k => (hmem k).trans ?_⟩
  rw [false_or]
  refine exists_congr fun p => and_congr_right fun _ => ?_
  constructor
  · rintro ⟨h1, h2, hf⟩
    obtain ⟨j, hj⟩ := (filed_eq_some h1).mp hf
    exact ⟨j, hj.1, hj.2.1, h2, hj.2.2⟩
  · rintro ⟨j, h1, h2, h3, hj⟩
    exact ⟨by omega, h3, (filed_eq_some (by omega)).mpr ⟨j, h1, h2, hj⟩⟩

end Record

/-! ### What a visit adds -/

/-- What the visit sees of the numbers. -/
def addSeen (add : Number F → NumberStats → NumberStats) (val : Option (RJValue F)) (s : NumberStats) :
    NumberStats :=
  match val with
  | some (.number n) => add n s
  | _ => s

variable {docs : List (RJValue F)} {direct : Bool} {query : AdaptiveIndexQuery}
  {parentPath : Str}

/-- What is seen in a document of the container. -/
def seenAt (docs : List (RJValue F)) (direct : Bool) (query : AdaptiveIndexQuery) (parentPath : Str)
    (k : ℕ) : Option (RJValue F) :=
  (docs[k]?).bind (seen direct query parentPath)

/-- The value at a path in a document of the container. -/
def pathAt (docs : List (RJValue F)) (path : Str) (k : ℕ) : Option (RJValue F) :=
  (docs[k]?).bind (valueAt path)

/-- **What a visit of documents adds** to the numbers and the counter. -/
structure Visited (docs : List (RJValue F)) (direct : Bool) (query : AdaptiveIndexQuery)
    (parentPath : Str) (l : List ℕ) (pass pass' : Pass) : Prop where
  lt : ∀ k ∈ l, k < docs.length
  numbers : pass'.node.numbers = l.foldl (fun s k =>
    addSeen NumberStats.addNumber (seenAt docs direct query parentPath k) s) pass.node.numbers
  totalDocs : pass'.node.totalDocs =
    pass.node.totalDocs + l.countP fun k => (seenAt docs direct query parentPath k).isSome
  parentNumbers : direct = false → pass'.parent.numbers = l.foldl (fun s k =>
    addSeen NumberStats.addParentNumber (pathAt docs parentPath k) s) pass.parent.numbers

theorem Visited.nil {pass : Pass} : Visited docs direct query parentPath [] pass pass :=
  ⟨by simp, rfl, rfl, fun _ => rfl⟩

theorem Visited.append {l l' : List ℕ} {pass pass' pass'' : Pass}
    (h : Visited docs direct query parentPath l pass pass')
    (h' : Visited docs direct query parentPath l' pass' pass'') :
    Visited docs direct query parentPath (l ++ l') pass pass'' := by
  refine ⟨fun k hk => ?_, ?_, ?_, fun hdirect => ?_⟩
  · rcases List.mem_append.mp hk with hk | hk
    · exact h.lt k hk
    · exact h'.lt k hk
  · rw [List.foldl_append, ← h.numbers, h'.numbers]
  · rw [List.countP_append, h'.totalDocs, h.totalDocs, Nat.add_assoc]
  · rw [List.foldl_append, ← h.parentNumbers hdirect, h'.parentNumbers hdirect]

/-! ### Exact ranges -/

/-- The value of a document has the type. -/
def HasType (a : ℕ → Option (RJValue F)) (t : RangeType) (k : ℕ) : Prop :=
  (a k).bind rangeType = some t

/-- **Exact ranges**: valid, and with the documents whose value at the path has the type. -/
def Exact (docs : List (RJValue F)) (path : Str) (documents : RangeType → List ℕ) : Prop :=
  ∀ t, Valid (documents t) ∧ ∀ k, k ∈ elements (documents t) ↔ HasType (pathAt docs path) t k

/-- The documents that have a type lie in the ranges, and none of them is followed by an array there. -/
structure Uninterrupted (a : ℕ → Option (RJValue F)) (R : List ℕ) : Prop where
  covered : ∀ t k, HasType a t k → k ∈ elements R
  followed : ∀ p ∈ pairs R, ∀ t k, p.1 ≤ k → k < p.2 → HasType a t k → isArray (a (k + 1)) = false

theorem mem_elements {R : List ℕ} (hR : Valid R) {k : ℕ} :
    k ∈ elements R ↔ ∃ p ∈ pairs R, p.1 ≤ k ∧ k ≤ p.2 := by
  induction hR with
  | nil => simp [elements, pairs]
  | cons le lt tail ih =>
    rw [elements, List.mem_append, mem_range', ih]
    simp [pairs]

/-- A document that is followed by an array files it under its type. -/
theorem followed_of_filedIn {a : ℕ → Option (RJValue F)} {R : List ℕ} {t : RangeType}
    (h : ∀ k, FiledIn a R t k → HasType a t k) :
    ∀ p ∈ pairs R, ∀ k, p.1 ≤ k → k < p.2 → HasType a t k → isArray (a (k + 1)) = false := by
  intro p hp k h1 h2 hk
  by_contra hne
  rw [Bool.not_eq_false] at hne
  have hhas := h (k + 1) ⟨p, hp, k, h1, by omega, h2, hk, fun i hi hik => by
    rwa [show i = k + 1 by omega]⟩
  rw [HasType, (fileAs_array hne none).2] at hhas
  cases hhas

/-- **Documents are filed under their own type** if none that has it is followed by an array. -/
theorem filedIn_of_followed {a : ℕ → Option (RJValue F)} {R : List ℕ} (hR : Valid R) {t : RangeType}
    (h : ∀ p ∈ pairs R, ∀ k, p.1 ≤ k → k < p.2 → HasType a t k → isArray (a (k + 1)) = false) (k : ℕ) :
    FiledIn a R t k ↔ k ∈ elements R ∧ HasType a t k := by
  constructor
  · rintro ⟨p, hp, j, h1, h2, h3, hj, hall⟩
    rcases Nat.lt_or_ge j k with hlt | hge
    · have hnot := h p hp j h1 (by omega) hj
      rw [hall (j + 1) (by omega) hlt] at hnot
      cases hnot
    · obtain rfl := Nat.le_antisymm h2 hge
      exact ⟨(mem_elements hR).mpr ⟨p, hp, h1, h3⟩, hj⟩
  · rintro ⟨hk, htype⟩
    obtain ⟨p, hp, h1, h2⟩ := (mem_elements hR).mp hk
    exact ⟨p, hp, k, h1, le_refl _, h2, htype, fun i hi hik => by omega⟩

/-- **Documents are filed under their own types** unless they are interrupted. -/
theorem filedIn_iff_hasType {a : ℕ → Option (RJValue F)} {R : List ℕ} (hR : Valid R) :
    (∀ t k, FiledIn a R t k ↔ HasType a t k) ↔ Uninterrupted a R := by
  constructor
  · intro h
    refine ⟨fun t k hk => ?_, fun p hp t k h1 h2 hk =>
      followed_of_filedIn (fun k hk => (h t k).mp hk) p hp k h1 h2 hk⟩
    obtain ⟨p, hp, j, h1, h2, h3, -⟩ := (h t k).mpr hk
    exact (mem_elements hR).mpr ⟨p, hp, by omega, h3⟩
  · rintro ⟨hcovered, hfollowed⟩ t k
    rw [filedIn_of_followed hR fun p hp k h1 h2 hk => hfollowed p hp t k h1 h2 hk]
    exact ⟨fun hk => hk.2, fun hk => ⟨hcovered t k hk, hk⟩⟩

/-! ### The visit of the documents -/

variable [Double F]

theorem process_spec {val : Option (RJValue F)} {k : ℕ} {pass pass' : Pass}
    (h : process query val k pass = some pass') :
    pass'.parent = pass.parent ∧ pass'.node.ranges = pass.node.ranges.record val k ∧
      pass'.node.numbers = addSeen NumberStats.addNumber val pass.node.numbers ∧
      pass'.node.totalDocs = pass.node.totalDocs + [k].countP fun _ => val.isSome := by
  cases val with
  | none =>
    obtain rfl := Option.some.inj h
    exact ⟨rfl, rfl, rfl, rfl⟩
  | some v =>
    obtain ⟨trie, -, rfl⟩ := Option.map_eq_some_iff.mp h
    refine ⟨rfl, rfl, ?_, rfl⟩
    cases v <;> rfl

/-- **One document.** -/
theorem visitDocument_spec {k : ℕ} {doc : RJValue F} {pass pass' : Pass} (hdoc : docs[k]? = some doc)
    (h : visitDocument direct query parentPath doc k pass = some pass') :
    Visited docs direct query parentPath [k] pass pass' ∧
      pass'.node.ranges = pass.node.ranges.record (seenAt docs direct query parentPath k) k ∧
      (direct = false →
        pass'.parent.ranges = pass.parent.ranges.record (pathAt docs parentPath k) k) := by
  have hlt : k < docs.length := (List.getElem?_eq_some_iff.mp hdoc).1
  have hseen : seenAt docs direct query parentPath k = seen direct query parentPath doc := by
    rw [seenAt, hdoc]; rfl
  have hpath : pathAt docs parentPath k = valueAt parentPath doc := by rw [pathAt, hdoc]; rfl
  obtain ⟨hparent, hranges, hnumbers, htotal⟩ := process_spec h
  cases direct with
  | true =>
    exact ⟨⟨by simpa using hlt, by rw [hnumbers, ← hseen]; rfl, by simp [htotal, hseen], by simp⟩,
      by rw [hranges, ← hseen]; rfl, by simp⟩
  | false =>
    refine ⟨⟨by simpa using hlt, by rw [hnumbers, ← hseen]; rfl, by simp [htotal, hseen],
      fun _ => ?_⟩, by rw [hranges, ← hseen]; rfl, fun _ => ?_⟩
    · rw [hparent, List.foldl_cons, List.foldl_nil, hpath]
      unfold handleValue addSeen
      rfl
    · rw [hparent, hpath]
      rfl

/-- **The documents of one range.** -/
theorem foldlM_spec {l : List ℕ} {pass pass' : Pass}
    (h : l.foldlM (fun pass k => (docs[k]?).bind fun doc =>
      visitDocument direct query parentPath doc k pass) pass = some pass') :
    Visited docs direct query parentPath l pass pass' ∧
      pass'.node.ranges =
        l.foldl (fun r k => r.record (seenAt docs direct query parentPath k) k) pass.node.ranges ∧
      (direct = false → pass'.parent.ranges =
        l.foldl (fun r k => r.record (pathAt docs parentPath k) k) pass.parent.ranges) := by
  induction l generalizing pass with
  | nil =>
    obtain rfl := Option.some.inj h
    exact ⟨.nil, rfl, fun _ => rfl⟩
  | cons k l ih =>
    rw [List.foldlM_cons] at h
    obtain ⟨pass₁, hstep, hrest⟩ := Option.bind_eq_some_iff.mp h
    obtain ⟨doc, hdoc, hstep⟩ := Option.bind_eq_some_iff.mp hstep
    obtain ⟨hvisited, hranges, hparent⟩ := visitDocument_spec hdoc hstep
    obtain ⟨hvisited', hranges', hparent'⟩ := ih hrest
    refine ⟨hvisited.append hvisited', ?_, fun hdirect => ?_⟩
    · rw [List.foldl_cons, ← hranges, hranges']
    · rw [List.foldl_cons, ← hparent hdirect, hparent' hdirect]

/-- **All ranges.** -/
theorem visitRanges_spec {R : List ℕ} (hR : Valid R) {pass pass' : Pass}
    (h : visitRanges docs direct query parentPath R pass = some pass') :
    Visited docs direct query parentPath (elements R) pass pass' ∧
      pass'.node.ranges =
        recordRanges (seenAt docs direct query parentPath) R pass.node.ranges ∧
      (direct = false →
        pass'.parent.ranges = recordRanges (pathAt docs parentPath) R pass.parent.ranges) := by
  induction hR generalizing pass with
  | nil =>
    obtain rfl := Option.some.inj h
    exact ⟨.nil, rfl, fun _ => rfl⟩
  | @cons lo hi rest le lt tail ih =>
    obtain ⟨pass₁, hrange, hrest⟩ := Option.bind_eq_some_iff.mp h
    obtain ⟨hvisited, hranges, hparent⟩ := foldlM_spec hrange
    obtain ⟨hvisited', hranges', hparent'⟩ := ih hrest
    have hend : Visited docs direct query parentPath (List.range' lo (hi + 1 - lo)) pass
        (endRange hi pass₁) := ⟨hvisited.lt, hvisited.numbers, hvisited.totalDocs,
      hvisited.parentNumbers⟩
    refine ⟨hend.append hvisited', ?_, fun hdirect => ?_⟩
    · rw [hranges', recordRanges, recordRange, ← hranges]
      rfl
    · rw [hparent' hdirect, recordRanges, recordRange, ← hparent hdirect]
      rfl

/-- **When the visit is right**: what it files under a type has it at the path, it sees a value in as many
documents as have one there, and the parent's documents are not interrupted. -/
structure VisitRight (docs : List (RJValue F)) (direct : Bool) (query : AdaptiveIndexQuery)
    (parentPath : Str) (R : List ℕ) : Prop where
  filed : ∀ t k, FiledIn (seenAt docs direct query parentPath) R t k ↔
    HasType (pathAt docs query.propertyPath) t k
  count : (elements R).countP (fun k => (seenAt docs direct query parentPath k).isSome) =
    docs.countP fun doc => (valueAt query.propertyPath doc).isSome
  parent : direct = false → Uninterrupted (pathAt docs parentPath) R

/-- What the first visit leaves. -/
theorem getDocumentsFirst_spec {node parentNode parentDocRangeNode node' parentNode' : UnionTreeNode}
    {result : Finset ℕ} (hR : Valid (parentDocRangeNode.documents .object))
    (h : getDocumentsFirst docs query node parentNode parentDocRangeNode =
      some (result, node', parentNode')) :
    let direct := parentNode.jsonPath == parentDocRangeNode.jsonPath
    let R := parentDocRangeNode.documents .object
    node'.jsonPath = node.jsonPath ∧
      node'.documents = (recordRanges (seenAt docs direct query parentNode.jsonPath) R .empty).documents ∧
      node'.totalDocs = (elements R).countP (fun k =>
        (seenAt docs direct query parentNode.jsonPath k).isSome) ∧
      parentNode'.jsonPath = parentNode.jsonPath ∧
      (direct = false → parentNode'.documents =
        (recordRanges (pathAt docs parentNode.jsonPath) R .empty).documents) := by
  intro direct R
  obtain ⟨pass, hpass, hnode⟩ := Option.bind_eq_some_iff.mp h
  obtain ⟨hvisited, hranges, hparent⟩ := visitRanges_spec hR hpass
  obtain ⟨filled, hfill, hres⟩ := Option.map_eq_some_iff.mp hnode
  obtain ⟨-, hres⟩ := Prod.mk.inj hres
  obtain ⟨rfl, rfl⟩ := Prod.mk.inj hres
  obtain ⟨index, -, rfl⟩ := Option.map_eq_some_iff.mp hfill
  refine ⟨rfl, ?_, ?_, ?_, fun hdirect => ?_⟩
  · rw [hranges]
  · rw [hvisited.totalDocs, Nat.zero_add]
  · split_ifs <;> rfl
  · have hfalse : ¬ (parentNode.jsonPath == parentDocRangeNode.jsonPath) = true := by
      rw [show (parentNode.jsonPath == parentDocRangeNode.jsonPath) = false from hdirect]
      exact Bool.false_ne_true
    rw [if_neg hfalse, fillParent, hparent hdirect]

/-- The ranges of the first visit are exact if and only if the visit is right. -/
theorem ranges_exact {node parentNode parentDocRangeNode node' parentNode' : UnionTreeNode}
    {result : Finset ℕ} (hpath : node.jsonPath = query.propertyPath)
    (hR : Valid (parentDocRangeNode.documents .object))
    (h : getDocumentsFirst docs query node parentNode parentDocRangeNode =
      some (result, node', parentNode')) :
    (Exact docs node'.jsonPath node'.documents ∧
      node'.totalDocs = docs.countP (fun doc => (valueAt node'.jsonPath doc).isSome) ∧
      ((parentNode.jsonPath == parentDocRangeNode.jsonPath) = false →
        Exact docs parentNode'.jsonPath parentNode'.documents)) ↔
      VisitRight docs (parentNode.jsonPath == parentDocRangeNode.jsonPath) query parentNode.jsonPath
        (parentDocRangeNode.documents .object) := by
  obtain ⟨hnode, hdocuments, htotal, hparent, hparentDocuments⟩ := getDocumentsFirst_spec hR h
  have hexact : ∀ {a : ℕ → Option (RJValue F)} {path : Str},
      Exact docs path (recordRanges a (parentDocRangeNode.documents .object) .empty).documents ↔
        ∀ t k, FiledIn a (parentDocRangeNode.documents .object) t k ↔
          HasType (pathAt docs path) t k := by
    intro a path
    refine forall_congr' fun t => ?_
    obtain ⟨hvalid, hmem⟩ := recordRanges_empty (a := a) hR t
    rw [and_iff_right hvalid]
    exact forall_congr' fun k => by rw [hmem k]
  rw [hdocuments, htotal, hnode, hpath, hparent, hexact]
  constructor
  · rintro ⟨hfiled, hcount, hpar⟩
    refine ⟨hfiled, hcount, fun hdirect => ?_⟩
    have hp := hpar hdirect
    rw [hparentDocuments hdirect, hexact] at hp
    exact (filedIn_iff_hasType hR).mp hp
  · rintro ⟨hfiled, hcount, hpar⟩
    refine ⟨hfiled, hcount, fun hdirect => ?_⟩
    rw [hparentDocuments hdirect, hexact]
    exact (filedIn_iff_hasType hR).mpr (hpar hdirect)

/-! ### Runs -/

/-- A node that was not visited. -/
def UnionTreeNode.unvisited (jsonPath : Str) : UnionTreeNode := ⟨jsonPath, 0, false, fun _ => [], none, none⟩

/-- The root of a container of two documents. -/
def rootOfTwo : UnionTreeNode := setRootDocuments 2 (.unvisited (ascii "/"))

theorem valid_rootOfTwo : Valid (rootOfTwo.documents .object) :=
  .cons (by decide) (by simp) .nil

/-- `{"a":1}` and `{"a":[]}` -/
def arrayDocs : List (RJValue Float) :=
  [.object [(ascii "a", .number (.int 1))], .object [(ascii "a", .array [])]]

/-- The array is filed as a number. -/
theorem not_ranges_exact : ¬ ∀ (docs : List (RJValue Float)) (query : AdaptiveIndexQuery)
    (node parentNode parentDocRangeNode node' parentNode' : UnionTreeNode) (result : Finset ℕ),
    node.jsonPath = query.propertyPath → Valid (parentDocRangeNode.documents .object) →
    getDocumentsFirst docs query node parentNode parentDocRangeNode =
      some (result, node', parentNode') →
    Exact docs node'.jsonPath node'.documents ∧
      node'.totalDocs = docs.countP (fun doc => (valueAt node'.jsonPath doc).isSome) ∧
      ((parentNode.jsonPath == parentDocRangeNode.jsonPath) = false →
        Exact docs parentNode'.jsonPath parentNode'.documents) := by
  intro hall
  have hvisit : ∃ result node' parentNode', getDocumentsFirst arrayDocs
      ⟨ascii "/a", .NONE, .EQUALS, .EXISTS⟩ (.unvisited (ascii "/a")) rootOfTwo
        rootOfTwo = some (result, node', parentNode') ∧ node'.jsonPath = ascii "/a" ∧
          node'.documents .number = [0, 1] := ⟨_, _, _, rfl, rfl, rfl⟩
  obtain ⟨result, node', parentNode', h, hnode, hnumber⟩ := hvisit
  obtain ⟨hexact, -, -⟩ := hall _ _ _ _ _ _ _ _ rfl valid_rootOfTwo h
  have hmem : 1 ∈ elements (node'.documents .number) := by rw [hnumber]; decide
  have htype := ((hexact .number).2 1).mp hmem
  rw [hnode] at htype
  cases htype

end Joda.Index.FirstVisit
