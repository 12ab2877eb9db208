import Joda.Index.IndexManagerRuns

/-! # When the ranges of the first visit are exact

Where the parent is visited in the same pass, the value that is filed for the path is the parent's member
by the raw last token, or the parent's value itself if that is no object. The ranges are exact if the
documents are not interrupted by arrays, the parents' values are objects, or arrays that have no typed
value at the path, and the member is what the path leads to (`ExactVisit`). For paths whose text is
the name, nothing less will do. -/

namespace Joda.Index.FirstVisit

open Joda.Values.Value Joda.Values.Pointer Joda.Values.PointerSet
open Joda.Index.Query Joda.Lib.Ranges
open Joda.Index.IndexManager (joined joined_append valueAt_append valueAt_single parentPath_concat
  pathAt_append lt_of_pathAt filter_eq_of_sorted countP_places)

variable {F : Type} {docs : List (RJValue F)} {path parentPath : Str} {R : List ℕ} {direct : Bool}
  {query : AdaptiveIndexQuery}

/-! ### The condition -/

/-- The parent's value has the value at the path as the member of the raw last token, or it is an array
that has no typed value there. -/
def Fits (path : Str) (parent val : Option (RJValue F)) : Prop :=
  match parent with
  | none => True
  | some (.object ms) => ms.lookup (memberName path) = val
  | some (.array _) => val.bind rangeType = none
  | some _ => False

/-- A document that is counted though it has no value at the path: its parent's value is an array. -/
def countedAlone (direct : Bool) (parent val : Option (RJValue F)) : Bool :=
  !direct && isArray parent && val.isNone

/-- **The condition on the documents**: those that have a type at the path, and at the parent's path if it
is visited as well, lie in the ranges and are not followed there by an array; the parents' values fit; and
as many documents have a value at the path outside of the ranges as are counted without one. -/
structure ExactVisit (docs : List (RJValue F)) (direct : Bool) (path parentPath : Str) (R : List ℕ) :
    Prop where
  node : Uninterrupted (pathAt docs path) R
  parent : direct = false → Uninterrupted (pathAt docs parentPath) R
  fits : direct = false → ∀ k ∈ elements R, Fits path (pathAt docs parentPath k) (pathAt docs path k)
  count : (elements R).countP (fun k => countedAlone direct (pathAt docs parentPath k) (pathAt docs path k)) =
    (List.range docs.length).countP fun k => decide (k ∉ elements R) && (pathAt docs path k).isSome

/-! ### Paths and what is above them -/

/-- What has a value at a path has one above it. -/
theorem pathAt_above {us : List Str} {token : Str} (htokens : ∀ name ∈ us ++ [token], (47 : UInt8) ∉ name)
    {k : ℕ} (h : pathAt docs (joined us) k = none) : pathAt docs (joined (us ++ [token])) k = none := by
  have hjoined : joined (us ++ [token]) = joined us ++ 47 :: token := by
    rw [joined_append]
    simp [joined]
  -- a zero byte ends the pointer
  have hcut : ∀ {p q : Str}, cString p = cString q → pathAt docs p k = pathAt docs q k := by
    intro p q hpq
    unfold pathAt valueAt parsePointer
    rw [hpq]
  by_cases hzero : (0 : UInt8) ∈ joined us
  · obtain ⟨u, w, hu, hnot⟩ := List.eq_append_cons_of_mem hzero
    rw [← h]
    refine hcut ?_
    rw [hjoined, hu, List.append_assoc, cString_append hnot, cString_append hnot]
    simp [cString]
  · have htoken : cString (47 :: token) = 47 :: cString token := by simp [cString]
    have hclean : joined (us ++ [cString token]) = joined us ++ 47 :: cString token := by
      rw [joined_append]
      simp [joined]
    have hsame : pathAt docs (joined (us ++ [token])) k = pathAt docs (joined (us ++ [cString token])) k := by
      refine hcut ?_
      rw [hjoined, hclean, cString_append hzero, cString_append hzero, htoken, ← htoken, cString_cString]
    have hslash : ∀ name ∈ us ++ [cString token], (47 : UInt8) ∉ name := by
      obtain ⟨hus, hlast⟩ := List.forall_mem_append.mp htokens
      refine List.forall_mem_append.mpr ⟨hus, List.forall_mem_singleton.mpr fun hmem => ?_⟩
      exact List.forall_mem_singleton.mp hlast ((cString_initial token).mem hmem)
    have hno : (0 : UInt8) ∉ joined (us ++ [cString token]) := by
      rw [hclean, List.mem_append, List.mem_cons]
      rintro (hmem | hmem | hmem)
      · exact hzero hmem
      · cases hmem
      · exact zero_not_mem_cString token hmem
    rw [hsame, pathAt_append hslash hno, h]
    rfl

/-- Where the last token stands for itself, what is at the path is the child of the parent's value. -/
theorem pathAt_child {us : List Str} {token : Str} (htokens : ∀ name ∈ us ++ [token], (47 : UInt8) ∉ name)
    (hzero : (0 : UInt8) ∉ joined (us ++ [token])) (htilde : (126 : UInt8) ∉ token) {k : ℕ} {v : RJValue F}
    (h : pathAt docs (joined us) k = some v) : pathAt docs (joined (us ++ [token])) k = child v token := by
  have hlast : (0 : UInt8) ∉ token := fun hmem => hzero (by
    rw [joined_append, List.mem_append]
    exact .inr (by simp [joined, hmem]))
  rw [pathAt_append htokens hzero, h, Option.bind_some,
    valueAt_single (htokens token (by simp)) hlast htilde]

/-! ### What is seen -/

theorem seenAt_direct : seenAt docs true query parentPath = pathAt docs query.propertyPath := rfl

/-- What is taken for the value at the path, from the parent's value. -/
theorem seenAt_parent (k : ℕ) : seenAt docs false query parentPath k =
    match pathAt docs parentPath k with
    | some (.object ms) => ms.lookup (memberName query.propertyPath)
    | val => val := by
  unfold seenAt pathAt
  cases docs[k]? with
  | none => rfl
  | some doc => rfl

/-- Where the parent's value fits, an object shows what is at the path, and an array shows itself. -/
theorem Fits.seenAt {k : ℕ}
    (habove : pathAt docs parentPath k = none → pathAt docs query.propertyPath k = none)
    (h : Fits query.propertyPath (pathAt docs parentPath k) (pathAt docs query.propertyPath k)) :
    seenAt docs false query parentPath k = pathAt docs query.propertyPath k ∨
      isArray (pathAt docs parentPath k) = true ∧
        seenAt docs false query parentPath k = pathAt docs parentPath k ∧
        (pathAt docs query.propertyPath k).bind rangeType = none := by
  rw [seenAt_parent]
  revert h habove
  rcases pathAt docs parentPath k with - | v
  · intro habove _
    exact .inl (habove rfl).symm
  · intro _ h
    cases v with
    | object ms => exact .inl h
    | array vs => exact .inr ⟨rfl, rfl, h⟩
    | _ => exact h.elim

/-! ### The condition is enough -/

/-- An array that is seen behind a typed value would interrupt the documents. -/
theorem ExactVisit.seen_followed (h : ExactVisit docs false query.propertyPath parentPath R) (hR : Valid R)
    (habove : ∀ k, pathAt docs parentPath k = none → pathAt docs query.propertyPath k = none)
    {p : ℕ × ℕ} (hp : p ∈ pairs R) {t : RangeType} {j : ℕ} (h1 : p.1 ≤ j) (h2 : j < p.2)
    (hj : HasType (seenAt docs false query parentPath) t j) :
    isArray (seenAt docs false query parentPath (j + 1)) = false := by
  have hmem : ∀ i, p.1 ≤ i → i ≤ p.2 → i ∈ elements R := fun i hi hi' =>
    (mem_elements hR).mpr ⟨p, hp, hi, hi'⟩
  have hfits := h.fits rfl
  have hval : HasType (pathAt docs query.propertyPath) t j := by
    rcases (hfits j (hmem j h1 h2.le)).seenAt (habove j) with hsame | ⟨harray, hsame, -⟩
    · rwa [HasType, ← hsame]
    · rw [HasType, hsame, (fileAs_array harray none).2] at hj
      cases hj
  rcases (hfits (j + 1) (hmem _ (by omega) h2)).seenAt (habove _) with hsame | ⟨harray, -, -⟩
  · rw [hsame]
    exact h.node.followed p hp t j h1 h2 hval
  · -- the parent's value is an object before, and no array follows
    have hparent : ∃ t', HasType (pathAt docs parentPath) t' j := by
      have hfit := hfits j (hmem j h1 h2.le)
      have hsome := habove j
      unfold HasType at hval ⊢
      revert hfit hsome
      rcases pathAt docs parentPath j with - | v
      · intro _ hnone
        rw [hnone rfl] at hval
        cases hval
      · intro hfit _
        cases v with
        | array vs =>
          rw [show (pathAt docs query.propertyPath j).bind rangeType = none from hfit] at hval
          cases hval
        | _ => exact ⟨_, rfl⟩
    obtain ⟨t', ht'⟩ := hparent
    rw [(h.parent rfl).followed p hp t' j h1 h2 ht'] at harray
    cases harray

section Suffices

variable (habove : direct = false →
  ∀ k, pathAt docs parentPath k = none → pathAt docs query.propertyPath k = none)
include habove

/-- **What is filed under a type has it at the path.** -/
theorem ExactVisit.filed (h : ExactVisit docs direct query.propertyPath parentPath R) (hR : Valid R)
    (t : RangeType) (k : ℕ) :
    FiledIn (seenAt docs direct query parentPath) R t k ↔ HasType (pathAt docs query.propertyPath) t k := by
  cases direct with
  | true => exact (filedIn_iff_hasType hR).mpr h.node t k
  | false =>
    rw [filedIn_of_followed hR fun p hp j h1 h2 hj => h.seen_followed hR (habove rfl) hp h1 h2 hj]
    constructor
    · rintro ⟨hk, htype⟩
      rcases (h.fits rfl k hk).seenAt (habove rfl k) with hsame | ⟨harray, hsame, -⟩
      · rwa [HasType, ← hsame]
      · rw [HasType, hsame, (fileAs_array harray none).2] at htype
        cases htype
    · intro htype
      have hk := h.node.covered t k htype
      refine ⟨hk, ?_⟩
      rcases (h.fits rfl k hk).seenAt (habove rfl k) with hsame | ⟨-, -, hnone⟩
      · rwa [HasType, hsame]
      · rw [HasType, hnone] at htype
        cases htype

/-- What is counted has a value at the path or is counted alone. -/
theorem isSome_seenAt (hfits : direct = false →
      ∀ k ∈ elements R, Fits query.propertyPath (pathAt docs parentPath k) (pathAt docs query.propertyPath k))
    {k : ℕ} (hk : k ∈ elements R) : (seenAt docs direct query parentPath k).isSome =
      ((pathAt docs query.propertyPath k).isSome ||
        countedAlone direct (pathAt docs parentPath k) (pathAt docs query.propertyPath k)) := by
  cases direct with
  | true =>
    rw [seenAt_direct, countedAlone]
    simp
  | false =>
    rcases (hfits rfl k hk).seenAt (habove rfl k) with hsame | ⟨harray, hsame, -⟩
    · rw [hsame, countedAlone]
      have hfit := hfits rfl k hk
      have hsome := hsame
      cases hval : pathAt docs query.propertyPath k with
      | some v => rfl
      | none =>
        -- an array would have been seen
        rw [hval, seenAt_parent] at hsome
        cases hparent : pathAt docs parentPath k with
        | none => rfl
        | some v =>
          rw [hparent] at hsome
          cases v with
          | array vs => cases hsome
          | _ => rfl
    · rw [hsame, countedAlone, harray]
      cases hparent : pathAt docs parentPath k with
      | none =>
        rw [hparent] at harray
        cases harray
      | some v => cases pathAt docs query.propertyPath k <;> rfl

/-! ### What is counted -/

omit habove in
theorem countP_or {α : Type*} {p q : α → Bool} (hpq : ∀ a, p a = true → q a = false) : ∀ l : List α,
    l.countP (fun a => p a || q a) = l.countP p + l.countP q
  | [] => rfl
  | a :: l => by
    have ih := countP_or hpq l
    rw [List.countP_cons, List.countP_cons, List.countP_cons, ih]
    cases hp : p a with
    | true =>
      rw [hpq a hp]
      simp only [Bool.or_false, if_true, Bool.false_eq_true, if_false]
      omega
    | false =>
      rw [Bool.false_or]
      simp only [Bool.false_eq_true, if_false]
      omega

omit habove in
/-- The documents with a value at the path, in the ranges and outside. -/
theorem countP_valueAt (hR : Valid R) (hlt : ∀ k ∈ elements R, k < docs.length) :
    docs.countP (fun doc => (valueAt path doc).isSome) =
      (elements R).countP (fun k => (pathAt docs path k).isSome) +
        (List.range docs.length).countP fun k => decide (k ∉ elements R) && (pathAt docs path k).isSome := by
  have hplace : ∀ k, (docs[k]?.any fun doc => (valueAt path doc).isSome) = (pathAt docs path k).isSome := by
    intro k
    unfold pathAt
    cases docs[k]? <;> rfl
  have hinside : (elements R).countP (fun k => (pathAt docs path k).isSome) =
      (List.range docs.length).countP fun k => decide (k ∈ elements R) && (pathAt docs path k).isSome := by
    have hall : (elements R).countP (fun k => (pathAt docs path k).isSome) =
        (elements R).countP fun k => decide (k ∈ elements R) && (pathAt docs path k).isSome := by
      refine List.countP_congr fun k hk => ?_
      rw [decide_eq_true hk, Bool.true_and]
    rw [hall, List.countP_eq_length_filter, List.countP_eq_length_filter,
      filter_eq_of_sorted (elements_sorted hR) List.pairwise_lt_range fun k hk => ?_]
    have hmem := of_decide_eq_true (Bool.and_eq_true_iff.mp hk).1
    exact iff_of_true hmem (List.mem_range.mpr (hlt k hmem))
  rw [countP_places _ docs, hinside, ← countP_or fun k hk => ?_]
  · refine List.countP_congr fun k _ => ?_
    rw [hplace]
    by_cases hk : k ∈ elements R <;> simp [hk]
  · have hmem := of_decide_eq_true (Bool.and_eq_true_iff.mp hk).1
    rw [decide_eq_false (not_not_intro hmem), Bool.false_and]

/-- **The counts**, where the parents' values fit. -/
theorem count_iff (hR : Valid R) (hlt : ∀ k ∈ elements R, k < docs.length) (hfits : direct = false →
      ∀ k ∈ elements R, Fits query.propertyPath (pathAt docs parentPath k) (pathAt docs query.propertyPath k)) :
    (elements R).countP (fun k => (seenAt docs direct query parentPath k).isSome) =
        docs.countP (fun doc => (valueAt query.propertyPath doc).isSome) ↔
      (elements R).countP (fun k =>
          countedAlone direct (pathAt docs parentPath k) (pathAt docs query.propertyPath k)) =
        (List.range docs.length).countP fun k =>
          decide (k ∉ elements R) && (pathAt docs query.propertyPath k).isSome := by
  have hseen : (elements R).countP (fun k => (seenAt docs direct query parentPath k).isSome) =
      (elements R).countP (fun k => (pathAt docs query.propertyPath k).isSome) +
        (elements R).countP fun k =>
          countedAlone direct (pathAt docs parentPath k) (pathAt docs query.propertyPath k) := by
    rw [← countP_or fun k hk => ?_]
    · exact List.countP_congr fun k hk => by rw [isSome_seenAt habove hfits hk]
    · obtain ⟨v, hv⟩ := Option.isSome_iff_exists.mp hk
      rw [countedAlone, hv]
      simp
  rw [hseen, countP_valueAt hR hlt]
  omega

/-- **The visit is right** where the condition holds. -/
theorem ExactVisit.visitRight (h : ExactVisit docs direct query.propertyPath parentPath R) (hR : Valid R)
    (hlt : ∀ k ∈ elements R, k < docs.length) : VisitRight docs direct query parentPath R :=
  ⟨h.filed habove hR, (count_iff habove hR hlt h.fits).mpr h.count, h.parent⟩

end Suffices

/-! ### Nothing less will do -/

section Necessary

variable {us : List Str} {token : Str}

/-- Behind a parent's object, no array is the parent's value. -/
theorem VisitRight.objects (h : VisitRight docs false query parentPath R) {p : ℕ × ℕ} (hp : p ∈ pairs R)
    (hparents : ∀ k ∈ elements R, ∀ v, pathAt docs parentPath k = some v →
      isArray (some v) = false → ∃ ms, v = .object ms) (hR : Valid R) {j k : ℕ} (h1 : p.1 ≤ j)
    (hjk : j ≤ k) (h2 : k ≤ p.2) {ms : List (Str × RJValue F)}
    (hj : pathAt docs parentPath j = some (.object ms))
    (hseen : ∀ i, j < i → i ≤ k → isArray (seenAt docs false query parentPath i) = true) :
    ∃ ms, pathAt docs parentPath k = some (.object ms) := by
  induction k, hjk using Nat.le_induction with
  | base => exact ⟨ms, hj⟩
  | succ k hk ih =>
    obtain ⟨ms', hobject⟩ := ih (by omega) fun i hi hik => hseen i hi (by omega)
    have hnot := (h.parent rfl).followed p hp .object k (by omega) (by omega) (by rw [HasType, hobject]; rfl)
    have harray := hseen (k + 1) (by omega) (le_refl _)
    rw [seenAt_parent] at harray
    cases hval : pathAt docs parentPath (k + 1) with
    | none =>
      rw [hval] at harray
      cases harray
    | some v =>
      rw [hval] at hnot
      obtain ⟨ms', rfl⟩ := hparents (k + 1) ((mem_elements hR).mpr ⟨p, hp, by omega, h2⟩) v hval hnot
      exact ⟨ms', rfl⟩

variable (hpath : query.propertyPath = joined (us ++ [token]))
  (htokens : ∀ name ∈ us ++ [token], (47 : UInt8) ∉ name) (hzero : (0 : UInt8) ∉ query.propertyPath)
  (htilde : (126 : UInt8) ∉ token)
include hpath htokens hzero htilde

/-- The parents' values are objects or arrays. -/
theorem VisitRight.parents (h : VisitRight docs false query (joined us) R) (hR : Valid R) :
    ∀ k ∈ elements R, ∀ v, pathAt docs (joined us) k = some v → isArray (some v) = false →
      ∃ ms, v = .object ms := by
  intro k hk v hv harray
  have hchild := pathAt_child htokens (hpath ▸ hzero) htilde hv
  obtain ⟨p, hp, h1, h2⟩ := (mem_elements hR).mp hk
  have hfiled : ∀ t, rangeType v = some t → seenAt docs false query (joined us) k = some v →
      HasType (pathAt docs query.propertyPath) t k := fun t ht hs =>
    (h.filed t k).mp ⟨p, hp, k, h1, le_refl _, h2, by rw [hs]; exact ht, fun i hi hik => by omega⟩
  rw [seenAt_parent, hv] at hfiled
  cases v with
  | object ms => exact ⟨ms, rfl⟩
  | array vs => cases harray
  | _ =>
    have htype := hfiled _ rfl rfl
    rw [HasType, hpath, hchild] at htype
    cases htype

/-- The parents' values fit. -/
theorem VisitRight.fits (h : VisitRight docs false query (joined us) R) (hR : Valid R) :
    ∀ k ∈ elements R, Fits query.propertyPath (pathAt docs (joined us) k)
      (pathAt docs query.propertyPath k) := by
  intro k hk
  have hparents := h.parents hpath htokens hzero htilde hR
  cases hv : pathAt docs (joined us) k with
  | none => exact trivial
  | some v =>
    cases harray : isArray (some v) with
    | false =>
      obtain ⟨ms, rfl⟩ := hparents k hk v hv harray
      have hname : memberName query.propertyPath = token := by
        rw [hpath]
        exact (parentPath_concat (htokens token (by simp))).2
      show ms.lookup (memberName query.propertyPath) = _
      rw [hpath, pathAt_child htokens (hpath ▸ hzero) htilde hv, ← hpath, hname]
      rfl
    | true =>
      obtain ⟨vs, rfl⟩ : ∃ vs, v = .array vs := by
        cases v with
        | array vs => exact ⟨vs, rfl⟩
        | _ => cases harray
      show (pathAt docs query.propertyPath k).bind rangeType = none
      by_contra hne
      obtain ⟨t, ht⟩ := Option.ne_none_iff_exists'.mp hne
      -- it would have been filed behind an object
      obtain ⟨p, hp, j, h1, hjk, h2, hj, hbetween⟩ := (h.filed t k).mpr ht
      have hjmem : j ∈ elements R := (mem_elements hR).mpr ⟨p, hp, h1, by omega⟩
      have hobject : ∃ ms, pathAt docs (joined us) j = some (.object ms) := by
        rw [seenAt_parent] at hj
        cases hw : pathAt docs (joined us) j with
        | none =>
          rw [hw] at hj
          cases hj
        | some w =>
          cases hwarray : isArray (some w) with
          | false =>
            obtain ⟨ms, rfl⟩ := hparents j hjmem w hw hwarray
            exact ⟨ms, rfl⟩
          | true =>
            rw [hw] at hj
            cases w with
            | array vs => cases hj
            | _ => cases hwarray
      obtain ⟨ms, hobject⟩ := hobject
      obtain ⟨ms', hlast⟩ := h.objects hp hparents hR h1 hjk h2 hobject hbetween
      rw [hv] at hlast
      cases hlast

/-- The documents are not interrupted at the path. -/
theorem VisitRight.uninterrupted (h : VisitRight docs false query (joined us) R) (hR : Valid R) :
    Uninterrupted (pathAt docs query.propertyPath) R := by
  have hfits := h.fits hpath htokens hzero htilde hR
  have habove : ∀ k, pathAt docs (joined us) k = none → pathAt docs query.propertyPath k = none := by
    intro k hk
    rw [hpath]
    exact pathAt_above htokens hk
  refine ⟨fun t k hk => ?_, fun p hp t k h1 h2 hk => ?_⟩
  · obtain ⟨p, hp, j, h1, hjk, h2, -⟩ := (h.filed t k).mpr hk
    exact (mem_elements hR).mpr ⟨p, hp, by omega, h2⟩
  · by_contra hne
    rw [Bool.not_eq_false] at hne
    have hmem : ∀ i, p.1 ≤ i → i ≤ p.2 → i ∈ elements R := fun i hi hi' =>
      (mem_elements hR).mpr ⟨p, hp, hi, hi'⟩
    -- both documents show what is at the path
    have hseen : ∀ i, p.1 ≤ i → i ≤ p.2 → isArray (pathAt docs (joined us) i) = false →
        seenAt docs false query (joined us) i = pathAt docs query.propertyPath i := by
      intro i hi hi' hno
      rcases (hfits i (hmem i hi hi')).seenAt (habove i) with hsame | ⟨harray, -⟩
      · exact hsame
      · rw [hno] at harray
        cases harray
    have hfirst : isArray (pathAt docs (joined us) k) = false := by
      by_contra harray
      rw [Bool.not_eq_false] at harray
      have hfit := hfits k (hmem k h1 h2.le)
      cases hv : pathAt docs (joined us) k with
      | none =>
        rw [hv] at harray
        cases harray
      | some v =>
        rw [hv] at hfit harray
        cases v with
        | array vs =>
          rw [HasType, show (pathAt docs query.propertyPath k).bind rangeType = none from hfit] at hk
          cases hk
        | _ => cases harray
    have hparentType : ∃ t', HasType (pathAt docs (joined us)) t' k := by
      cases hv : pathAt docs (joined us) k with
      | none =>
        rw [HasType, habove k hv] at hk
        cases hk
      | some v =>
        rw [hv] at hfirst
        rcases hrange : rangeType v with - | t'
        · cases v with
          | array vs => cases hfirst
          | bool b => cases hrange
          | _ => cases hrange
        · exact ⟨t', by rw [HasType, hv]; exact hrange⟩
    obtain ⟨t', ht'⟩ := hparentType
    have hsecond := (h.parent rfl).followed p hp t' k h1 h2 ht'
    have hfiled : HasType (pathAt docs query.propertyPath) t (k + 1) := by
      refine (h.filed t (k + 1)).mp ⟨p, hp, k, h1, by omega, h2, ?_, fun i hi hik => ?_⟩
      · rw [hseen k h1 h2.le hfirst]
        exact hk
      · obtain rfl : i = k + 1 := by omega
        rw [hseen (k + 1) (by omega) h2 hsecond]
        exact hne
    rw [HasType, (fileAs_array hne none).2] at hfiled
    cases hfiled

/-- The condition is met where the visit is right. -/
theorem VisitRight.exactVisit (h : VisitRight docs false query (joined us) R) (hR : Valid R)
    (hlt : ∀ k ∈ elements R, k < docs.length) :
    ExactVisit docs false query.propertyPath (joined us) R := by
  have hfits := h.fits hpath htokens hzero htilde hR
  have habove : ∀ k, pathAt docs (joined us) k = none → pathAt docs query.propertyPath k = none := by
    intro k hk
    rw [hpath]
    exact pathAt_above htokens hk
  exact ⟨h.uninterrupted hpath htokens hzero htilde hR, h.parent, fun _ => hfits,
    (count_iff (fun _ => habove) hR hlt fun _ => hfits).mp h.count⟩

end Necessary

/-- With a known parent, the condition is met where the visit is right, at every path. -/
theorem VisitRight.exactVisit_direct (h : VisitRight docs true query parentPath R) (hR : Valid R)
    (hlt : ∀ k ∈ elements R, k < docs.length) :
    ExactVisit docs true query.propertyPath parentPath R := by
  have hno : ∀ {b : Bool}, b = true → b = false → False := fun h1 h2 => by
    rw [h1] at h2
    cases h2
  refine ⟨(filedIn_iff_hasType hR).mp h.filed, h.parent, fun hd => (hno rfl hd).elim, ?_⟩
  have hcount := h.count
  rw [countP_valueAt hR hlt, seenAt_direct] at hcount
  rw [← Nat.add_left_cancel_iff, ← hcount]
  simp [countedAlone]

/-! ### Exact ranges -/

variable [Double F] {node parentNode parentDocRangeNode node' parentNode' : UnionTreeNode}
  {result : Finset ℕ}

/-- **What the visit is to leave**: exact ranges at the node, the number of documents that have a value at
its path, and exact ranges at the parent if it was filled in the same pass. -/
structure LeavesExact (docs : List (RJValue F)) (direct : Bool) (node parentNode : UnionTreeNode) : Prop where
  ranges : Exact docs node.jsonPath node.documents
  totalDocs : node.totalDocs = docs.countP fun doc => (valueAt node.jsonPath doc).isSome
  parent : direct = false → Exact docs parentNode.jsonPath parentNode.documents

/-- **The ranges of the first visit are exact** where the condition holds. With a known parent, and for every
path without a zero byte whose last token has no tilde, they are exact nowhere else. -/
theorem visit_exact_iff (hpath : node.jsonPath = query.propertyPath)
    (hslash : query.propertyPath.head? = some 47)
    (hparent : parentNode.jsonPath ≠ parentDocRangeNode.jsonPath →
      parentNode.jsonPath = IndexManager.parentPath query.propertyPath)
    (hR : Valid (parentDocRangeNode.documents .object))
    (h : getDocumentsFirst docs query node parentNode parentDocRangeNode =
      some (result, node', parentNode')) :
    let direct := parentNode.jsonPath == parentDocRangeNode.jsonPath
    let met := ExactVisit docs direct query.propertyPath parentNode.jsonPath
      (parentDocRangeNode.documents .object)
    (met → LeavesExact docs direct node' parentNode') ∧
      ((direct = false → (0 : UInt8) ∉ query.propertyPath ∧ (126 : UInt8) ∉ memberName query.propertyPath) →
        (LeavesExact docs direct node' parentNode' ↔ met)) := by
  intro direct met
  obtain ⟨pass, hpass, -⟩ := Option.bind_eq_some_iff.mp h
  have hlt := (visitRanges_spec hR hpass).1.lt
  have hright : LeavesExact docs direct node' parentNode' ↔
      VisitRight docs direct query parentNode.jsonPath (parentDocRangeNode.documents .object) := by
    rw [← ranges_exact hpath hR h]
    exact ⟨fun hl => ⟨hl.ranges, hl.totalDocs, hl.parent⟩, fun hl => ⟨hl.1, hl.2.1, hl.2.2⟩⟩
  obtain ⟨tokens, htext, -, hne, htokens⟩ := IndexManager.exists_tokens hslash
  obtain ⟨us, token, rfl⟩ := List.eq_nil_or_concat tokens |>.resolve_left hne
  rw [List.concat_eq_append] at htext htokens
  obtain ⟨hparentText, hname⟩ : IndexManager.parentPath (joined (us ++ [token])) = joined us ∧
      memberName (joined (us ++ [token])) = token := parentPath_concat (htokens token (by simp))
  rw [← htext] at hparentText hname
  have hbelow : direct = false → parentNode.jsonPath = joined us := fun hd =>
    (hparent (ne_of_beq_false hd)).trans hparentText
  have habove : direct = false → ∀ k, pathAt docs parentNode.jsonPath k = none →
      pathAt docs query.propertyPath k = none := by
    intro hd k hk
    rw [htext]
    exact pathAt_above htokens (hbelow hd ▸ hk)
  have hmet : met → LeavesExact docs direct node' parentNode' := fun hmet =>
    hright.mpr (hmet.visitRight habove hR hlt)
  refine ⟨hmet, fun hclean => ⟨fun hl => ?_, hmet⟩⟩
  have hvisit := hright.mp hl
  revert hbelow hclean hvisit
  show (direct = false → _) → _ → _ → ExactVisit docs direct query.propertyPath parentNode.jsonPath
    (parentDocRangeNode.documents .object)
  generalize direct = d
  intro hbelow hclean hvisit
  cases d with
  | true => exact hvisit.exactVisit_direct hR hlt
  | false =>
    obtain ⟨hzero, htilde⟩ := hclean rfl
    rw [hbelow rfl] at hvisit ⊢
    exact hvisit.exactVisit htext htokens hzero (hname ▸ htilde) hR hlt

/-! ### Two nested documents -/

/-- `{"a":{"b":1}}` and `{"a":{}}` -/
def nestedDocs : List (RJValue Float) :=
  [.object [(ascii "a", .object [(ascii "b", .number (.int 1))])], .object [(ascii "a", .object [])]]

theorem exactVisit_nested : ExactVisit nestedDocs false (ascii "/a/b") (ascii "/a") [0, 1] := by
  have hcovered : ∀ path t k, HasType (pathAt nestedDocs path) t k → k ∈ elements [0, 1] := by
    intro path t k h
    obtain ⟨v, hv, -⟩ := Option.bind_eq_some_iff.mp h
    have hk : k < 2 := lt_of_pathAt hv
    rw [elements_pair, mem_range']
    omega
  have hfollowed : ∀ path, isArray (pathAt nestedDocs path 1) = false →
      Uninterrupted (pathAt nestedDocs path) [0, 1] := by
    refine fun path hlast => ⟨hcovered path, List.forall_mem_singleton.mpr fun t k _ h2 _ => ?_⟩
    obtain rfl : k = 0 := Nat.lt_one_iff.mp h2
    exact hlast
  refine ⟨hfollowed _ rfl, fun _ => hfollowed _ rfl, fun _ => ?_, rfl⟩
  exact List.forall_mem_cons.mpr ⟨rfl, List.forall_mem_singleton.mpr rfl⟩

/-- The first visit of `/a/b`, which fills the node of `/a` in the same pass. -/
theorem visit_exact_nested : ∃ result node' parentNode',
    getDocumentsFirst nestedDocs ⟨ascii "/a/b", .NONE, .EQUALS, .EXISTS⟩ (.unvisited (ascii "/a/b"))
      (.unvisited (ascii "/a")) rootOfTwo = some (result, node', parentNode') ∧
      LeavesExact nestedDocs false node' parentNode' := by
  have hvisit : ∃ result node' parentNode',
      getDocumentsFirst nestedDocs ⟨ascii "/a/b", .NONE, .EQUALS, .EXISTS⟩
        (.unvisited (ascii "/a/b")) (.unvisited (ascii "/a")) rootOfTwo =
          some (result, node', parentNode') := ⟨_, _, _, rfl⟩
  obtain ⟨result, node', parentNode', h⟩ := hvisit
  have hexact := visit_exact_iff rfl rfl (fun _ => by decide) valid_rootOfTwo h
  exact ⟨result, node', parentNode', h, hexact.1 exactVisit_nested⟩

end Joda.Index.FirstVisit
