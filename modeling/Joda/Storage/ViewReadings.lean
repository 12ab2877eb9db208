import Joda.Lib.Lookup
import Joda.Storage.View
import Joda.Values.PointerSet
import Mathlib.Data.List.Infix

/-! # What a view shows

A view stands for the base document overlaid with the deltas: `overlaid` says what this document has at
a pointer. `Get`, `Accept` after `setPrefix` and the value of the whole `Accept` read it; they do
wherever their comparisons of texts agree with the pointers (`GetDecided`, `Good`). The virtual objects
that are kept from earlier readings are right if no two pointers have one text (`OneText`). -/

namespace Joda.Storage.ViewReadings

open Joda.Values.Value Joda.Values.Pointer Joda.Storage.View
open Joda.Values.PointerSet (stringify_injective)
open Joda.Lib.Fuel Joda.Lib.Lookup

variable {F : Type} {base : RJValue F} {layer : ViewLayer F} {layers below : List (ViewLayer F)}
  {ptr q : RJPointer} {curr : Str}

/-! ### The overlaid document -/

def docKind (layer : ViewLayer F) (ptr : RJPointer) : Option (Kind F) := kindAt (some layer.doc) ptr

/-- The delta stands in for what is below at its view paths, at its arrays, which are whole, and at its
objects where there is no object below. -/
def decides (layer : ViewLayer F) (below : RJPointer → Option (Kind F)) (ptr : RJPointer) : Bool :=
  layer.viewPaths.contains ptr || Kind.isArray (docKind layer ptr) ||
    (Kind.isObject (docKind layer ptr) && !Kind.isObject (below ptr))

def decided (layer : ViewLayer F) (below : RJPointer → Option (Kind F)) (ptr : RJPointer) : Bool :=
  ptr.inits.any (decides layer below)

/-- **The base document overlaid with the deltas**, by what is found at a pointer. -/
def overlaid (base : RJValue F) : List (ViewLayer F) → RJPointer → Option (Kind F)
  | [], ptr => kindAt (some base) ptr
  | layer :: below, ptr =>
    if decided layer (overlaid base below) ptr then docKind layer ptr else overlaid base below ptr

/-- What `createViewFromContainer` writes to a delta: the values at the view paths, and the objects on
the way there; an array on the way is copied whole. -/
structure Written (layer : ViewLayer F) : Prop where
  lines : ∀ ptr v, get layer.doc ptr = some v →
    (∃ p ∈ layer.viewPaths, p <+: ptr) ∨
    (∃ q, q <+: ptr ∧ Kind.isArray (docKind layer q) = true ∧ ∃ p ∈ layer.viewPaths, q <+: p) ∨
    (kind v = .object ∧ ∃ p ∈ layer.viewPaths, ptr <+: p) ∨
    (ptr = [] ∧ kind v = .null)

theorem decides_iff {f : RJPointer → Option (Kind F)} : decides layer f ptr = true ↔
    ptr ∈ layer.viewPaths ∨ Kind.isArray (docKind layer ptr) = true ∨
      Kind.isObject (docKind layer ptr) = true ∧ Kind.isObject (f ptr) = false := by
  unfold decides
  simp only [Bool.or_eq_true, Bool.and_eq_true, List.contains_iff_mem, Bool.not_eq_true', or_assoc]

theorem decided_iff {f : RJPointer → Option (Kind F)} : decided layer f ptr = true ↔
    ∃ p, p <+: ptr ∧ decides layer f p = true := by
  unfold decided
  simp only [List.any_eq_true, List.mem_inits]

theorem decided_append {f : RJPointer → Option (Kind F)} (h : decided layer f ptr = true)
    (rest : RJPointer) : decided layer f (ptr ++ rest) = true := by
  obtain ⟨p, hp, hd⟩ := decided_iff.mp h
  exact decided_iff.mpr ⟨p, hp.trans (List.prefix_append ptr rest), hd⟩

theorem overlaid_decided (h : decided layer (overlaid base below) ptr = true) :
    overlaid base (layer :: below) ptr = docKind layer ptr := by
  rw [overlaid, if_pos h]

theorem overlaid_below (h : decided layer (overlaid base below) ptr = false) :
    overlaid base (layer :: below) ptr = overlaid base below ptr := by
  rw [overlaid, if_neg (by simp [h])]

/-- Below a pointer where the delta does not decide, it decides first at a longer one. -/
theorem not_decided_append {f : RJPointer → Option (Kind F)} (h : decided layer f ptr = false)
    {rest : RJPointer} (hr : ∀ s, s <+: rest → s ≠ [] → decides layer f (ptr ++ s) = false) :
    decided layer f (ptr ++ rest) = false := by
  by_contra hc
  obtain ⟨p, hp, hd⟩ := decided_iff.mp (by simpa using hc)
  rcases List.prefix_or_prefix_of_prefix hp (List.prefix_append ptr rest) with hle | hle
  · rw [decided_iff.mpr ⟨p, hle, hd⟩] at h
    cases h
  · obtain ⟨s, rfl⟩ := hle
    have hs : s <+: rest := (List.prefix_append_right_inj ptr).mp hp
    by_cases hnil : s = []
    · subst hnil
      rw [decided_iff.mpr ⟨ptr, List.prefix_refl ptr, by rwa [List.append_nil] at hd⟩] at h
      cases h
    · rw [hr s hs hnil] at hd
      cases hd

/-! ### The members of a shared object -/

theorem lookup_setMember (name k : Str) (val : Option (RJValue F)) :
    ∀ ms : List (ViewObjectMember F), (setMember name val ms).lookup k =
      if k = name ∧ ms.lookup k ≠ none then some val else ms.lookup k
  | [] => by simp [setMember]
  | (a, b) :: ms => by
    have ih := lookup_setMember name k val ms
    rw [setMember]
    by_cases ha : a = name
    · subst ha
      rw [if_pos rfl, lookup_pair, lookup_pair]
      by_cases hk : k = a
      · simp [hk]
      · simp [hk]
    · rw [if_neg ha, lookup_pair, lookup_pair, ih]
      by_cases hk : k = a
      · have hne : ¬ k = name := fun h => ha (hk.symm.trans h)
        simp [hk, ha]
      · simp only [hk, if_false]

theorem lookup_putMember (viewPaths : List RJPointer) (ms : List (ViewObjectMember F))
    (m : Str × RJValue F) (k : Str) : (putMember viewPaths curr ms m).lookup k =
      if k = m.1 then
        some (if isViewPath viewPaths (attPath curr k) = true ∨ ms.lookup k = none then some m.2
          else none)
      else ms.lookup k := by
  unfold putMember
  by_cases hk : k = m.1
  · rw [← hk, if_pos rfl]
    cases hl : ms.lookup k with
    | none => simp [List.lookup_append, hl]
    | some val =>
      rw [if_neg (by simp), lookup_setMember, if_pos ⟨rfl, by simp [hl]⟩]
      simp
  · rw [if_neg hk]
    by_cases hl : (ms.lookup m.1).isNone = true
    · rw [if_pos hl, List.lookup_append, lookup_pair, if_neg hk]
      simp
    · rw [if_neg hl, lookup_setMember, if_neg (fun h => hk h.1)]

theorem lookup_foldl_putMember (viewPaths : List RJPointer) (k : Str) :
    ∀ (val : List (Str × RJValue F)) (ms : List (ViewObjectMember F)), (val.map Prod.fst).Nodup →
      (val.foldl (putMember viewPaths curr) ms).lookup k =
        match val.lookup k with
        | some v => some (if isViewPath viewPaths (attPath curr k) = true ∨ ms.lookup k = none
            then some v else none)
        | none => ms.lookup k
  | [], ms, _ => rfl
  | (a, v) :: val, ms, hn => by
    rw [List.map_cons, List.nodup_cons] at hn
    rw [List.foldl_cons, lookup_foldl_putMember viewPaths k val _ hn.2, lookup_putMember, lookup_pair]
    by_cases hk : k = a
    · subst hk
      rw [lookup_of_not_mem hn.1]
      simp
    · simp only [hk, if_false]

/-- What the members are after a delta has been put in. -/
theorem lookup_mergeMembers (viewPaths : List RJPointer) (curr : Str)
    {val : List (Str × RJValue F)} (hn : (val.map Prod.fst).Nodup) (ms : List (ViewObjectMember F))
    (k : Str) :
    (mergeMembers viewPaths curr val ms).lookup k =
      match val.lookup k with
      | some v => some (if isViewPath viewPaths (attPath curr k) = true ∨ ms.lookup k = none
          then some v else none)
      | none => if isViewPath viewPaths (attPath curr k) = true then none else ms.lookup k := by
  unfold mergeMembers
  have hfilter := lookup_filter (fun name => !(isViewPath viewPaths (attPath curr name) &&
    (val.lookup name).isNone)) k ms
  rw [lookup_foldl_putMember viewPaths k val _ hn]
  cases hl : val.lookup k with
  | none =>
    rw [hl] at hfilter
    show List.lookup k _ = _
    rw [hfilter]
    cases isViewPath viewPaths (attPath curr k) <;> rfl
  | some v =>
    rw [hl, Option.isNone_some, Bool.and_false, Bool.not_false, if_pos rfl] at hfilter
    simp only [hfilter]

/-- **A value is what the overlaid document has at the pointer.** -/
def Shows (base : RJValue F) (layers : List (ViewLayer F)) (ptr : RJPointer)
    (v : Option (RJValue F)) : Prop :=
  ∀ rest, kindAt v rest = overlaid base layers (ptr ++ rest)

/-- The view paths under `q` that the delta does not lead to are not there below either. -/
def Traced (base : RJValue F) (layer : ViewLayer F) (below : List (ViewLayer F)) (q : RJPointer) :
    Prop :=
  ∀ name rest, q ++ name :: rest ∈ layer.viewPaths → docKind layer (q ++ [name]) = none →
    (rest = [] → Kind.isObject (docKind layer q) = false) →
    ∀ s, overlaid base below (q ++ name :: rest ++ s) = none

/-- A delta is put together with the members below: none of its view paths hides the object, and
the texts of the members are compared as their pointers would be. -/
structure PutTogether (base : RJValue F) (layer : ViewLayer F) (below : List (ViewLayer F))
    (q : RJPointer) (curr : Str) : Prop where
  notHidden : ∀ p ∈ layer.viewPaths, ¬ p <+: q
  notArray : Kind.isArray (docKind layer q) = false
  distinct : ∀ v, get layer.doc q = some v → ((members v).map Prod.fst).Nodup
  alone : decided layer (overlaid base below) q = true → Kind.isObject (overlaid base below q) = false
  names : ∀ name, (overlaid base below (q ++ [name])).isSome = true →
    (isViewPath layer.viewPaths (attPath curr name) = true ↔ q ++ [name] ∈ layer.viewPaths)
  traced : Traced base layer below q

/-- The layers a shared object is put together from: the last one is the base of the pointer. -/
def Joint (base : RJValue F) : List (ViewLayer F) → RJPointer → Str → Prop
  | [], _, _ => False
  | layer :: below, q, curr =>
    getVal layer q = get layer.doc q ∧
      if isBase (layer :: below) curr = true then
        decided layer (overlaid base below) q = true ∨
          Kind.isObject (docKind layer q) = false ∧
            ∀ name, overlaid base below (q ++ [name]) = none
      else PutTogether base layer below q curr ∧ Joint base below q curr

/-- What the members of a shared object say about the overlaid document. -/
structure MembersShow (base : RJValue F) (layers : List (ViewLayer F)) (q : RJPointer)
    (ms : List (ViewObjectMember F)) : Prop where
  object : ∀ name val, ms.lookup name = some val → Kind.isObject (overlaid base layers q) = true
  absent : ∀ name, ms.lookup name = none → Kind.isArray (overlaid base layers q) = false →
    overlaid base layers (q ++ [name]) = none
  value : ∀ name v, ms.lookup name = some (some v) → Shows base layers (q ++ [name]) (some v)
  joint : ∀ name, ms.lookup name = some none → (overlaid base layers (q ++ [name])).isSome = true

/-- A member that is put together: a delta has it and is not written there, and so have the layers
below. -/
def JointMember (base : RJValue F) : List (ViewLayer F) → RJPointer → Str → Str → Prop
  | [], _, _, _ => False
  | layer :: below, q, curr, name =>
    isBase (layer :: below) curr = false ∧ isViewPath layer.viewPaths (attPath curr name) = false ∧
      ((docKind layer (q ++ [name])).isSome = true ∧ (overlaid base below (q ++ [name])).isSome = true ∨
        JointMember base below q curr name)

theorem docKind_append (layer : ViewLayer F) (q rest : RJPointer) :
    docKind layer (q ++ rest) = kindAt (get layer.doc q) rest := kindAt_append _ _ _

theorem docKind_eq (layer : ViewLayer F) (q : RJPointer) :
    docKind layer q = (get layer.doc q).map kind := rfl

/-- A member of a document, found under its object. -/
theorem docKind_member {v : RJValue F} (hv : get layer.doc q = some v) (ho : kind v = .object)
    (name : Str) (rest : RJPointer) :
    docKind layer (q ++ name :: rest) = kindAt ((members v).lookup name) rest := by
  rw [docKind_append, hv, kindAt_cons, child_object ho]

theorem overlaid_root : ∀ layers : List (ViewLayer F), overlaid base layers [] ≠ none
  | [] => by simp [overlaid]
  | layer :: below => by
    rw [overlaid]
    split_ifs
    · simp [docKind]
    · exact overlaid_root below

/-- Where there is no object and no array, there is nothing further down. -/
theorem docKind_under (ho : Kind.isObject (docKind layer q) = false)
    (ha : Kind.isArray (docKind layer q) = false) (name : Str) (rest : RJPointer) :
    docKind layer (q ++ name :: rest) = none := by
  rw [docKind_append]
  cases hv : get layer.doc q with
  | none => rfl
  | some v =>
    rw [docKind_eq, hv, Option.map_some] at ho ha
    rw [kindAt_cons, child_scalar, kindAt_none]
    · intro h
      rw [h] at ho
      cases ho
    · intro h
      rw [h] at ha
      cases ha

/-- Nothing is found below a pointer where there is nothing. -/
theorem overlaid_none_append : ∀ {layers : List (ViewLayer F)}, overlaid base layers q = none →
    ∀ rest, overlaid base layers (q ++ rest) = none
  | [], h, rest => by
    rw [overlaid] at h ⊢
    rw [kindAt_append]
    cases hv : (some base).bind fun w => get w q with
    | none => rfl
    | some v =>
      rw [kindAt, hv] at h
      cases h
  | layer :: below, h, rest => by
    by_cases hd : decided layer (overlaid base below) q = true
    · rw [overlaid_decided hd] at h
      rw [overlaid_decided (decided_append hd rest), docKind_append]
      cases hv : get layer.doc q with
      | none => rfl
      | some v =>
        rw [docKind_eq, hv] at h
        cases h
    · have hnd : decided layer (overlaid base below) q = false := by simpa using hd
      rw [overlaid_below hnd] at h
      have ih := overlaid_none_append h rest
      by_cases hdr : decided layer (overlaid base below) (q ++ rest) = true
      · rw [overlaid_decided hdr]
        cases rest with
        | nil =>
          rw [List.append_nil] at hdr
          exact absurd hdr hd
        | cons name rest =>
          refine docKind_under ?_ ?_ name rest
          · by_contra hc
            exact hd (decided_iff.mpr ⟨q, List.prefix_refl q,
              decides_iff.mpr (Or.inr (Or.inr ⟨by simpa using hc, by rw [h]; rfl⟩))⟩)
          · by_contra hc
            exact hd (decided_iff.mpr ⟨q, List.prefix_refl q,
              decides_iff.mpr (Or.inr (Or.inl (by simpa using hc)))⟩)
      · rw [overlaid_below (by simpa using hdr)]
        exact ih

theorem members_scalar {v : RJValue F} (h : kind v ≠ .object) : members v = [] := by
  cases v with
  | object ms => exact absurd rfl h
  | _ => rfl

theorem membersShow_nil (h : ∀ name, Kind.isArray (overlaid base layers q) = false →
    overlaid base layers (q ++ [name]) = none) : MembersShow base layers q [] where
  object := by simp
  absent name _ ha := h name ha
  value := by simp
  joint := by simp

/-- The members of the base of a pointer. -/
theorem membersShow_base (hdec : decided layer (overlaid base below) q = true ∨
      Kind.isObject (docKind layer q) = false ∧ ∀ name, overlaid base below (q ++ [name]) = none) :
    MembersShow base (layer :: below) q
      (((get layer.doc q).elim [] members).map fun m => (m.1, some m.2)) := by
  by_cases hd : decided layer (overlaid base below) q = true
  · have hov : ∀ rest, overlaid base (layer :: below) (q ++ rest) = docKind layer (q ++ rest) :=
      fun rest => overlaid_decided (decided_append hd rest)
    have hq : overlaid base (layer :: below) q = docKind layer q := overlaid_decided hd
    cases hv : get layer.doc q with
    | none =>
      refine membersShow_nil fun name _ => ?_
      rw [hov, docKind_append, hv, kindAt_none]
    | some v =>
      have hkind : docKind layer q = some (kind v) := by rw [docKind_eq, hv, Option.map_some]
      by_cases ho : kind v = .object
      · have hlook : ∀ name, List.lookup name ((members v).map fun m => (m.1, some m.2)) =
            ((members v).lookup name).map some := fun name => lookup_map some name _
        refine ⟨fun name val h => ?_, fun name h _ => ?_, fun name w h rest => ?_, fun name h => ?_⟩
        · rw [hq, hkind, ho]
          rfl
        · have hn : (members v).lookup name = none := by
            rw [Option.elim_some, hlook] at h
            simpa using h
          rw [hov, docKind_member hv ho, hn, kindAt_none]
        · have hw : (members v).lookup name = some w := by
            rw [Option.elim_some, hlook] at h
            simpa using h
          rw [List.append_assoc, List.singleton_append, hov, docKind_member hv ho, hw]
        · rw [Option.elim_some, hlook] at h
          simp at h
      · rw [Option.elim_some, members_scalar ho]
        refine membersShow_nil fun name ha => ?_
        rw [hov]
        refine docKind_under ?_ (by rwa [hq] at ha) name []
        rw [hkind]
        cases hk : kind v with
        | object => exact absurd hk ho
        | _ => rfl
  · obtain ⟨hobj, hnone⟩ := hdec.resolve_left hd
    have harr : Kind.isArray (docKind layer q) = false := by
      by_contra ha
      exact hd (decided_iff.mpr ⟨q, List.prefix_refl q,
        decides_iff.mpr (Or.inr (Or.inl (by simpa using ha)))⟩)
    have hnil : (get layer.doc q).elim [] members = ([] : List (Str × RJValue F)) := by
      cases hv : get layer.doc q with
      | none => rfl
      | some v =>
        refine members_scalar fun hk => ?_
        rw [docKind_eq, hv, Option.map_some, hk] at hobj
        cases hobj
    rw [hnil]
    refine membersShow_nil fun name _ => ?_
    by_cases hdn : decided layer (overlaid base below) (q ++ [name]) = true
    · rw [overlaid_decided hdn]
      exact docKind_under hobj harr name []
    · rw [overlaid_below (by simpa using hdn)]
      exact hnone name

/-- A member that the delta does not have is what it is below. -/
theorem overlaid_kept (hnd : decided layer (overlaid base below) q = false)
    (htr : Traced base layer below q) {name : Str} (hdoc : docKind layer (q ++ [name]) = none)
    (hv : q ++ [name] ∈ layer.viewPaths → Kind.isObject (docKind layer q) = false)
    (rest : RJPointer) : overlaid base (layer :: below) (q ++ name :: rest) =
      overlaid base below (q ++ name :: rest) := by
  have hunder : ∀ s, docKind layer (q ++ name :: s) = none := by
    intro s
    have hget : get layer.doc (q ++ [name]) = none := by
      rw [docKind_eq] at hdoc
      simpa using hdoc
    rw [← List.singleton_append, ← List.append_assoc, docKind_append, hget, kindAt_none]
  by_cases hd : decided layer (overlaid base below) (q ++ name :: rest) = true
  · rw [overlaid_decided hd, hunder rest]
    obtain ⟨p, hp, hdp⟩ := decided_iff.mp hd
    rcases List.prefix_or_prefix_of_prefix hp (List.prefix_append q (name :: rest)) with hle | hle
    · rw [decided_iff.mpr ⟨p, hle, hdp⟩] at hnd
      cases hnd
    · obtain ⟨s, rfl⟩ := hle
      have hs : s <+: name :: rest := (List.prefix_append_right_inj q).mp hp
      cases s with
      | nil =>
        rw [List.append_nil] at hdp
        rw [decided_iff.mpr ⟨q, List.prefix_refl q, hdp⟩] at hnd
        cases hnd
      | cons a t =>
        obtain ⟨rfl, ht⟩ := List.cons_prefix_cons.mp hs
        obtain ⟨u, rfl⟩ := ht
        have hmem : q ++ a :: t ∈ layer.viewPaths := by
          rcases decides_iff.mp hdp with h | h | ⟨h, _⟩
          · exact h
          · rw [hunder t] at h
            cases h
          · rw [hunder t] at h
            cases h
        have hnone := htr a t hmem hdoc (fun ht => hv (by rwa [ht] at hmem)) u
        rw [List.append_assoc, List.cons_append] at hnone
        exact hnone.symm
  · exact overlaid_below (by simpa using hd)

/-- A member is in the overlaid document. -/
theorem MembersShow.isSome {ms : List (ViewObjectMember F)} (h : MembersShow base layers q ms)
    {name : Str} {val : Option (RJValue F)} (hl : ms.lookup name = some val) :
    (overlaid base layers (q ++ [name])).isSome = true := by
  cases val with
  | none => exact h.joint name hl
  | some v =>
    have hv := h.value name v hl []
    rw [List.append_nil, kindAt_nil] at hv
    rw [← hv]
    rfl

theorem not_decided_below {f : RJPointer → Option (Kind F)} (h : decided layer f q = false)
    {p : RJPointer} (hp : p <+: q) : decides layer f p = false := by
  by_contra hc
  rw [decided_iff.mpr ⟨p, hp, by simpa using hc⟩] at h
  cases h

/-- Where the delta decides, there are no members below. -/
theorem no_members_below (hp : PutTogether base layer below q curr)
    (hd : decided layer (overlaid base below) q = true) {ms : List (ViewObjectMember F)}
    (hb : MembersShow base below q ms) (name : Str) : ms.lookup name = none := by
  by_contra hc
  obtain ⟨val, hval⟩ := Option.ne_none_iff_exists'.mp hc
  have hobj := hb.object name val hval
  rw [hp.alone hd] at hobj
  cases hobj

/-- Where the delta has no object, the members are those below. -/
theorem membersShow_skip (hp : PutTogether base layer below q curr)
    (hobj : Kind.isObject (docKind layer q) = false) {ms : List (ViewObjectMember F)}
    (hb : MembersShow base below q ms) : MembersShow base (layer :: below) q ms := by
  by_cases hd : decided layer (overlaid base below) q = true
  · have hnone := no_members_below hp hd hb
    refine ⟨fun name val h => ?_, fun name _ _ => ?_, fun name v h => ?_, fun name h => ?_⟩
    · rw [hnone] at h
      cases h
    · rw [overlaid_decided (decided_append hd [name])]
      exact docKind_under hobj hp.notArray name []
    · rw [hnone] at h
      cases h
    · rw [hnone] at h
      cases h
  · have hnd : decided layer (overlaid base below) q = false := by simpa using hd
    have hkept : ∀ name rest, overlaid base (layer :: below) (q ++ name :: rest) =
        overlaid base below (q ++ name :: rest) := fun name rest =>
      overlaid_kept hnd hp.traced (docKind_under hobj hp.notArray name []) (fun _ => hobj) rest
    refine ⟨fun name val h => ?_, fun name h ha => ?_, fun name v h rest => ?_, fun name h => ?_⟩
    · rw [overlaid_below hnd]
      exact hb.object name val h
    · rw [overlaid_below hnd] at ha
      rw [hkept]
      exact hb.absent name h ha
    · have hv := hb.value name v h rest
      rw [List.append_assoc, List.singleton_append] at hv ⊢
      rw [hkept, hv]
    · rw [hkept]
      exact hb.joint name h

/-- A member of a delta is at a view path, is an array, or is an object on the way to one. -/
theorem member_lines (hw : Written layer) (hp : PutTogether base layer below q curr)
    (hnd : decided layer (overlaid base below) q = false) {name : Str} {v : RJValue F}
    (hv : get layer.doc (q ++ [name]) = some v) :
    decided layer (overlaid base below) (q ++ [name]) = true ∨
      kind v = .object ∧ Kind.isObject (overlaid base below (q ++ [name])) = true := by
  have hself : decides layer (overlaid base below) (q ++ [name]) = true →
      decided layer (overlaid base below) (q ++ [name]) = true := fun h =>
    decided_iff.mpr ⟨_, List.prefix_refl _, h⟩
  rcases hw.lines _ v hv with ⟨p, hmem, hpq⟩ | ⟨p, hpq, harr, _⟩ | ⟨hk, _⟩ | ⟨hnil, _⟩
  · rcases List.prefix_concat_iff.mp hpq with rfl | hle
    · exact Or.inl (hself (decides_iff.mpr (Or.inl hmem)))
    · exact absurd hle (hp.notHidden p hmem)
  · rcases List.prefix_concat_iff.mp hpq with rfl | hle
    · exact Or.inl (hself (decides_iff.mpr (Or.inr (Or.inl harr))))
    · have hc := not_decided_below hnd hle
      rw [decides_iff.mpr (Or.inr (Or.inl harr))] at hc
      cases hc
  · by_cases ho : Kind.isObject (overlaid base below (q ++ [name])) = true
    · exact Or.inr ⟨hk, ho⟩
    · refine Or.inl (hself (decides_iff.mpr (Or.inr (Or.inr ⟨?_, by simpa using ho⟩))))
      rw [docKind_eq, hv, Option.map_some, hk]
      rfl
  · exact absurd hnil (by simp)

/-- The members of a delta, put in among those below. -/
theorem membersShow_merge (hw : Written layer) (hp : PutTogether base layer below q curr)
    {v : RJValue F} (hv : get layer.doc q = some v) (ho : kind v = .object)
    (hb : MembersShow base below q (getMembers below q curr)) :
    MembersShow base (layer :: below) q
      (mergeMembers layer.viewPaths curr (members v) (getMembers below q curr)) := by
  have hkind : docKind layer q = some .object := by rw [docKind_eq, hv, Option.map_some, ho]
  have hlook := lookup_mergeMembers layer.viewPaths curr (hp.distinct v hv)
    (getMembers below q curr)
  have hmem : ∀ name rest, docKind layer (q ++ name :: rest) =
      kindAt ((members v).lookup name) rest := docKind_member hv ho
  by_cases hd : decided layer (overlaid base below) q = true
  · have hnone := no_members_below hp hd hb
    have hov : ∀ rest, overlaid base (layer :: below) (q ++ rest) = docKind layer (q ++ rest) :=
      fun rest => overlaid_decided (decided_append hd rest)
    have hlook' : ∀ name, (mergeMembers layer.viewPaths curr (members v)
        (getMembers below q curr)).lookup name = ((members v).lookup name).map some := by
      intro name
      rw [hlook, hnone]
      cases (members v).lookup name <;> simp
    refine ⟨fun name val _ => ?_, fun name h _ => ?_, fun name w h rest => ?_, fun name h => ?_⟩
    · rw [overlaid_decided hd, hkind]
      rfl
    · rw [hlook'] at h
      rw [hov, hmem, Option.map_eq_none_iff.mp h, kindAt_none]
    · rw [hlook'] at h
      have hw' : (members v).lookup name = some w := by simpa using h
      rw [List.append_assoc, List.singleton_append, hov, hmem, hw']
    · rw [hlook'] at h
      simp at h
  · have hnd : decided layer (overlaid base below) q = false := by simpa using hd
    have hself : ∀ p, decides layer (overlaid base below) p = true →
        decided layer (overlaid base below) p = true := fun p h =>
      decided_iff.mpr ⟨p, List.prefix_refl p, h⟩
    have hBo : Kind.isObject (overlaid base below q) = true := by
      by_contra hc
      have hcd := not_decided_below hnd (List.prefix_refl q)
      rw [decides_iff.mpr (Or.inr (Or.inr ⟨by rw [hkind]; rfl, by simpa using hc⟩))] at hcd
      cases hcd
    have hBa : Kind.isArray (overlaid base below q) = false := by rw [isObject_iff.mp hBo]; rfl
    have hchild : ∀ name w, (members v).lookup name = some w →
        get layer.doc (q ++ [name]) = some w := by
      intro name w hl
      rw [get_concat, hv, Option.bind_some, child_object ho, hl]
    have hkept : ∀ name, (members v).lookup name = none → q ++ [name] ∉ layer.viewPaths → ∀ rest,
        overlaid base (layer :: below) (q ++ name :: rest) =
          overlaid base below (q ++ name :: rest) := fun name hl hv rest =>
      overlaid_kept hnd hp.traced (by rw [hmem, hl, kindAt_none]) (fun h => absurd h hv) rest
    refine ⟨fun name val _ => ?_, fun name h _ => ?_, fun name w h rest => ?_, fun name h => ?_⟩
    · rw [overlaid_below hnd]
      exact hBo
    · -- the member is deleted, or it is not below
      rw [hlook] at h
      cases hl : (members v).lookup name with
      | some w => simp [hl] at h
      | none =>
        simp only [hl] at h
        by_cases hvp : q ++ [name] ∈ layer.viewPaths
        · rw [overlaid_decided (hself _ (decides_iff.mpr (Or.inl hvp))), hmem, hl, kindAt_none]
        · rw [hkept name hl hvp]
          refine hb.absent name ?_ hBa
          by_contra hc
          obtain ⟨val, hval⟩ := Option.ne_none_iff_exists'.mp hc
          have htest := hp.names name (hb.isSome hval)
          rw [if_neg (fun ht => hvp (htest.mp ht)), hval] at h
          cases h
    · rw [hlook] at h
      rw [List.append_assoc, List.singleton_append]
      cases hl : (members v).lookup name with
      | some x =>
        simp only [hl, Option.some.injEq] at h
        have hor : isViewPath layer.viewPaths (attPath curr name) = true ∨
            (getMembers below q curr).lookup name = none := by
          by_contra hc
          rw [if_neg hc] at h
          cases h
        rw [if_pos hor] at h
        obtain rfl := Option.some.inj h
        have hdn : decided layer (overlaid base below) (q ++ [name]) = true := by
          by_cases hnone : (getMembers below q curr).lookup name = none
          · rcases member_lines hw hp hnd (hchild name x hl) with hdn | ⟨-, hob⟩
            · exact hdn
            · rw [hb.absent name hnone hBa] at hob
              cases hob
          · obtain ⟨val, hval⟩ := Option.ne_none_iff_exists'.mp hnone
            have hvp := (hp.names name (hb.isSome hval)).mp (hor.resolve_right hnone)
            exact hself _ (decides_iff.mpr (Or.inl hvp))
        have hdr := decided_append hdn rest
        rw [List.append_assoc, List.singleton_append] at hdr
        rw [overlaid_decided hdr, hmem, hl]
      | none =>
        simp only [hl] at h
        have hvp : ¬ isViewPath layer.viewPaths (attPath curr name) = true := by
          intro hc
          rw [if_pos hc] at h
          cases h
        rw [if_neg hvp] at h
        have htest := hp.names name (hb.isSome h)
        have hv := hb.value name w h rest
        rw [List.append_assoc, List.singleton_append] at hv
        rw [hkept name hl (fun hm => hvp (htest.mpr hm)), hv]
    · rw [hlook] at h
      cases hl : (members v).lookup name with
      | some x =>
        rcases member_lines hw hp hnd (hchild name x hl) with hdn | ⟨-, hob⟩
        · rw [overlaid_decided hdn, hmem, hl, kindAt_nil]
          rfl
        · by_cases hdn : decided layer (overlaid base below) (q ++ [name]) = true
          · rw [overlaid_decided hdn, hmem, hl, kindAt_nil]
            rfl
          · rw [overlaid_below (by simpa using hdn), isObject_iff.mp hob]
            rfl
      | none =>
        simp only [hl] at h
        have hvp : ¬ isViewPath layer.viewPaths (attPath curr name) = true := by
          intro hc
          rw [if_pos hc] at h
          cases h
        rw [if_neg hvp] at h
        have htest := hp.names name (hb.isSome h)
        rw [hkept name hl (fun hm => hvp (htest.mpr hm))]
        exact hb.joint name h

theorem membersShow_joint : ∀ {layers : List (ViewLayer F)}, (∀ layer ∈ layers, Written layer) →
    Joint base layers q curr → MembersShow base layers q (getMembers layers q curr)
  | [], _, h => h.elim
  | layer :: below, hw, h => by
    obtain ⟨hval, h⟩ := h
    rw [getMembers, hval]
    by_cases hbase : isBase (layer :: below) curr = true
    · rw [if_pos hbase] at h ⊢
      exact membersShow_base h
    · rw [if_neg hbase] at h ⊢
      obtain ⟨hp, hj⟩ := h
      have hb := membersShow_joint (fun l hl => hw l (List.mem_cons_of_mem _ hl)) hj
      cases hv : get layer.doc q with
      | none =>
        refine membersShow_skip hp ?_ hb
        rw [docKind_eq, hv]
        rfl
      | some v =>
        by_cases ho : kind v = .object
        · have hm := membersShow_merge (hw layer List.mem_cons_self) hp hv ho hb
          cases v with
          | object ms => exact hm
          | _ => cases ho
        · have hskip : MembersShow base (layer :: below) q (getMembers below q curr) := by
            refine membersShow_skip hp ?_ hb
            rw [docKind_eq, hv, Option.map_some]
            cases hk : kind v with
            | object => exact absurd hk ho
            | _ => rfl
          cases v with
          | object ms => exact absurd rfl ho
          | _ => exact hskip

/-- Of several members of a name, only the first one is put together. -/
def FirstJoint (ms : List (ViewObjectMember F)) : Prop :=
  ms.Pairwise fun m m' => m'.1 = m.1 → m'.2 ≠ none

theorem firstJoint_setMember (name : Str) (val : Option (RJValue F)) :
    ∀ {ms : List (ViewObjectMember F)}, FirstJoint ms → FirstJoint (setMember name val ms) := by
  intro ms
  have hmem : ∀ {ms : List (ViewObjectMember F)} {m' : ViewObjectMember F},
      m' ∈ setMember name val ms → m'.1 = name ∨ m' ∈ ms := by
    intro ms
    induction ms with
    | nil => exact fun h => Or.inr h
    | cons m ms ih =>
      intro m' h
      rw [setMember] at h
      split_ifs at h with hm
      · rcases List.mem_cons.mp h with rfl | h
        · exact Or.inl hm
        · exact Or.inr (List.mem_cons_of_mem _ h)
      · rcases List.mem_cons.mp h with rfl | h
        · exact Or.inr List.mem_cons_self
        · exact (ih h).imp_right (List.mem_cons_of_mem _)
  induction ms with
  | nil => exact id
  | cons m ms ih =>
    intro h
    obtain ⟨hm, hms⟩ := List.pairwise_cons.mp h
    rw [setMember]
    split_ifs with hname
    · exact List.pairwise_cons.mpr ⟨hm, hms⟩
    · refine List.pairwise_cons.mpr ⟨fun m' hm' heq => ?_, ih hms⟩
      rcases hmem hm' with hn | hm'
      · exact absurd (heq.symm.trans hn) hname
      · exact hm m' hm' heq

theorem firstJoint_mergeMembers (viewPaths : List RJPointer) (curr : Str)
    (val : List (Str × RJValue F)) {ms : List (ViewObjectMember F)} (h : FirstJoint ms) :
    FirstJoint (mergeMembers viewPaths curr val ms) := by
  unfold mergeMembers
  have hfilter : FirstJoint (ms.filter fun member =>
      !(isViewPath viewPaths (attPath curr member.1) && (val.lookup member.1).isNone)) :=
    List.Pairwise.filter _ h
  generalize (ms.filter _ : List (ViewObjectMember F)) = ms' at hfilter
  clear h
  generalize hval : val = val'
  clear hval
  induction val' generalizing ms' with
  | nil => exact hfilter
  | cons m val ih =>
    refine ih _ ?_
    by_cases hn : (ms'.lookup m.1).isNone = true
    · rw [putMember, if_pos hn]
      refine List.pairwise_append.mpr ⟨hfilter, List.pairwise_singleton _ _, fun a _ b hb _ => ?_⟩
      obtain rfl := List.mem_singleton.mp hb
      exact Option.some_ne_none _
    · rw [putMember, if_neg hn]
      exact firstJoint_setMember _ _ hfilter

theorem firstJoint_getMembers : ∀ (layers : List (ViewLayer F)) (followed : List Str) (curr : Str),
    FirstJoint (getMembers layers followed curr)
  | [], _, _ => List.Pairwise.nil
  | layer :: below, followed, curr => by
    have ih := firstJoint_getMembers below followed curr
    rw [getMembers]
    split_ifs
    · refine List.pairwise_map.mpr
        (List.Pairwise.imp (fun _ _ => ?_) (List.pairwise_of_forall fun _ _ => trivial))
      exact Option.some_ne_none _
    · split
      · exact firstJoint_mergeMembers _ _ _ ih
      · exact ih

theorem FirstJoint.lookup {ms : List (ViewObjectMember F)} (h : FirstJoint ms) {name : Str}
    (hm : (name, none) ∈ ms) : ms.lookup name = some none := by
  induction ms with
  | nil => cases hm
  | cons m ms ih =>
    obtain ⟨hfirst, hms⟩ := List.pairwise_cons.mp h
    obtain ⟨a, val⟩ := m
    rw [lookup_pair]
    rcases List.mem_cons.mp hm with heq | hm
    · obtain ⟨rfl, rfl⟩ := Prod.mk.inj heq
      rw [if_pos rfl]
    · split_ifs with hname
      · exact absurd rfl (hfirst _ hm hname)
      · exact ih hms hm

/-- A member of a merged object is put together if the delta has it as well, or if it was before. -/
theorem jointMember_merge (hbase : isBase (layer :: below) curr = false) {v : RJValue F}
    (hv : get layer.doc q = some v) (ho : kind v = .object)
    (hn : ((members v).map Prod.fst).Nodup) (hb : MembersShow base below q (getMembers below q curr))
    {name : Str} (ih : (getMembers below q curr).lookup name = some none →
      JointMember base below q curr name)
    (hl : (mergeMembers layer.viewPaths curr (members v) (getMembers below q curr)).lookup name =
      some none) : JointMember base (layer :: below) q curr name := by
  rw [lookup_mergeMembers layer.viewPaths curr hn] at hl
  cases hx : (members v).lookup name with
  | some x =>
    simp only [hx, Option.some.injEq] at hl
    have hnot : ¬ (isViewPath layer.viewPaths (attPath curr name) = true ∨
        (getMembers below q curr).lookup name = none) := by
      intro hc
      rw [if_pos hc] at hl
      cases hl
    obtain ⟨hpath, hlook⟩ := not_or.mp hnot
    obtain ⟨val, hval⟩ := Option.ne_none_iff_exists'.mp hlook
    refine ⟨hbase, by simpa using hpath, Or.inl ⟨?_, hb.isSome hval⟩⟩
    rw [docKind_member hv ho, hx, kindAt_nil]
    rfl
  | none =>
    simp only [hx] at hl
    have hpath : ¬ isViewPath layer.viewPaths (attPath curr name) = true := by
      intro hc
      rw [if_pos hc] at hl
      cases hl
    rw [if_neg hpath] at hl
    exact ⟨hbase, by simpa using hpath, Or.inr (ih hl)⟩

theorem jointMember_of_lookup : ∀ {layers : List (ViewLayer F)}, (∀ layer ∈ layers, Written layer) →
    Joint base layers q curr → ∀ {name : Str}, (getMembers layers q curr).lookup name = some none →
      JointMember base layers q curr name
  | [], _, h, _, _ => h.elim
  | layer :: below, hw, ⟨hval, h⟩, name, hl => by
    rw [getMembers, hval] at hl
    by_cases hbase : isBase (layer :: below) curr = true
    · rw [if_pos hbase, lookup_map] at hl
      simp at hl
    · rw [if_neg hbase] at h hl
      obtain ⟨hp, hj⟩ := h
      have hwb : ∀ layer ∈ below, Written layer := fun l h => hw l (List.mem_cons_of_mem _ h)
      have hb := membersShow_joint hwb hj
      have hskip : Kind.isObject (docKind layer q) = false →
          (getMembers below q curr).lookup name = some none →
            JointMember base (layer :: below) q curr name := fun hobj hl => by
        refine ⟨by simpa using hbase, ?_, Or.inr (jointMember_of_lookup hwb hj hl)⟩
        by_contra hc
        have hmem := (hp.names name (hb.isSome hl)).mp (by simpa using hc)
        have hnone := hp.traced name [] hmem (docKind_under hobj hp.notArray name []) (fun _ => hobj) []
        have hsome := hb.isSome hl
        rw [List.append_nil] at hnone
        rw [hnone] at hsome
        cases hsome
      cases hv : get layer.doc q with
      | none =>
        rw [hv] at hl
        exact hskip (by rw [docKind_eq, hv]; rfl) hl
      | some v =>
        rw [hv] at hl
        by_cases ho : kind v = .object
        · cases v with
          | object ms =>
            exact jointMember_merge (by simpa using hbase) hv ho (hp.distinct _ hv) hb
              (jointMember_of_lookup hwb hj) hl
          | _ => cases ho
        · have hobj : Kind.isObject (docKind layer q) = false := by
            rw [docKind_eq, hv, Option.map_some]
            cases hk : kind v with
            | object => exact absurd hk ho
            | _ => rfl
          cases v with
          | object ms => exact absurd rfl ho
          | _ => exact hskip hobj hl

/-! ### `Accept` -/

/-- Nothing, or the value that is written for nothing. -/
def NoneOrNull (k : Option (Kind F)) : Prop := k = none ∨ k = some .null

/-- **`Accept` follows the pointers**: at each pointer it comes to, its tests choose what the overlaid
document has there. -/
inductive Good (vo : Bool) (base : RJValue F) : List (ViewLayer F) → RJPointer → Str → Prop
  /-- A shared object is one, and its members are put together right. A virtual object of it has the
  virtual objects of those members. -/
  | shared {layers : List (ViewLayer F)} {q : RJPointer} {curr : Str}
      (hs : isShared layers curr = true) (ho : Kind.isObject (overlaid base layers q) = true)
      (hj : Joint base layers q curr)
      (hv : vo = true → ∀ name, JointMember base layers q curr name →
        isShared layers (attPath curr name) = true)
      (hm : ∀ name, JointMember base layers q curr name →
        Good vo base layers (q ++ [name]) (attPath curr name)) :
      Good vo base layers q curr
  /-- A value of the delta is written where the delta decides. -/
  | written {layer : ViewLayer F} {below : List (ViewLayer F)} {q : RJPointer} {curr : Str}
      {v : RJValue F} (hs : isShared (layer :: below) curr = false)
      (hv : getVal layer q = some v) (hg : get layer.doc q = some v)
      (hd : decided layer (overlaid base below) q = true) :
      Good vo base (layer :: below) q curr
  /-- The delta hides the pointer without a value, and there is none below. -/
  | deleted {layer : ViewLayer F} {below : List (ViewLayer F)} {q : RJPointer} {curr : Str}
      (hs : isShared (layer :: below) curr = false)
      (hv : getVal layer q = none) (hg : get layer.doc q = none)
      (hd : decided layer (overlaid base below) q = true) (hn : NoneOrNull (overlaid base below q))
      (hb : Good vo base below q curr) :
      Good vo base (layer :: below) q curr
  /-- The delta has nothing to do with the pointer. -/
  | passed {layer : ViewLayer F} {below : List (ViewLayer F)} {q : RJPointer} {curr : Str}
      (hs : isShared (layer :: below) curr = false)
      (hv : getVal layer q = none) (hg : get layer.doc q = none)
      (hd : decided layer (overlaid base below) q = false)
      (hp : ∀ p ∈ layer.viewPaths, ¬ q <+: p) (hb : Good vo base below q curr) :
      Good vo base (layer :: below) q curr
  /-- There is no layer below. -/
  | bottom {q : RJPointer} {curr : Str} (hn : NoneOrNull (overlaid base [] q)) : Good vo base [] q curr

/-- Where `Accept` comes to from a pointer and its text: a layer with those below it, and a pointer with
its text there. -/
inductive Comes (base : RJValue F) : List (ViewLayer F) → RJPointer → Str →
    List (ViewLayer F) → RJPointer → Str → Prop
  | here {layers : List (ViewLayer F)} {q : RJPointer} {curr : Str} : Comes base layers q curr layers q curr
  | member {layers layers' : List (ViewLayer F)} {q q' : RJPointer} {curr curr' name : Str}
      (hs : isShared layers curr = true) (hm : JointMember base layers q curr name)
      (h : Comes base layers (q ++ [name]) (attPath curr name) layers' q' curr') :
      Comes base layers q curr layers' q' curr'
  | under {layer : ViewLayer F} {below layers' : List (ViewLayer F)} {q q' : RJPointer}
      {curr curr' : Str} (hs : isShared (layer :: below) curr = false) (hv : getVal layer q = none)
      (h : Comes base below q curr layers' q' curr') : Comes base (layer :: below) q curr layers' q' curr'

/-- No two pointers of a layer have one text. -/
def OneText (At : List (ViewLayer F) → RJPointer → Str → Prop) : Prop :=
  ∀ layers q q' curr, At layers q curr → At layers q' curr → q = q'

/-- What `Accept` should emit: the value there, or `null` where there is none. -/
def Emitted (base : RJValue F) (layers : List (ViewLayer F)) (ptr : RJPointer) (v : RJValue F) :
    Prop :=
  Shows base layers ptr (some v) ∨ overlaid base layers ptr = none ∧ v = .null

theorem Emitted.null {v : RJValue F} (h : Emitted base layers q v)
    (hn : NoneOrNull (overlaid base layers q)) : v = .null := by
  rcases h with h | ⟨-, h⟩
  · have h0 := h []
    rw [List.append_nil, kindAt_nil] at h0
    rcases hn with hn | hn
    · rw [hn] at h0
      cases h0
    · rw [hn] at h0
      cases v with
      | null => rfl
      | _ => cases h0
  · exact h

/-- The members that are emitted. -/
theorem shows_object (hobj : Kind.isObject (overlaid base layers q) = true)
    (hms : MembersShow base layers q (getMembers layers q curr)) {es : List (Str × RJValue F)}
    (h : List.Forall₂ (fun (m : ViewObjectMember F) e => m.1 = e.1 ∧
      ((∀ x, m.2 = some x → e.2 = x) ∧ (m.2 = none → Emitted base layers (q ++ [m.1]) e.2)))
      (getMembers layers q curr) es) : Shows base layers q (some (.object es)) := by
  have hkind := isObject_iff.mp hobj
  intro rest
  cases rest with
  | nil =>
    rw [List.append_nil, hkind, kindAt_nil]
    rfl
  | cons name rest =>
    rw [kindAt_cons, show child (.object es) name = es.lookup name from rfl]
    have hlook := lookup_forall₂ (R := fun name val v => (∀ x, val = some x → v = x) ∧
      (val = none → Emitted base layers (q ++ [name]) v)) h name
    rcases hlook with ⟨hl, he⟩ | ⟨val, v, hl, he, hval, hnull⟩
    · rw [he, kindAt_none]
      have habs := hms.absent name hl (by rw [hkind]; rfl)
      have hnone := overlaid_none_append habs rest
      rw [List.append_assoc, List.singleton_append] at hnone
      exact hnone.symm
    · rw [he]
      cases val with
      | some x =>
        obtain rfl := hval x rfl
        have hx := hms.value name v hl rest
        rw [List.append_assoc, List.singleton_append] at hx
        exact hx
      | none =>
        rcases hnull rfl with hs | ⟨hnone, -⟩
        · have hx := hs rest
          rw [List.append_assoc, List.singleton_append] at hx
          exact hx
        · have hsome := hms.joint name hl
          rw [hnone] at hsome
          cases hsome

theorem shows_of_decided (hd : decided layer (overlaid base below) q = true) :
    Shows base (layer :: below) q (get layer.doc q) := by
  intro rest
  rw [overlaid_decided (decided_append hd rest), docKind_append]

theorem overlaid_passed (hd : decided layer (overlaid base below) q = false)
    (hg : get layer.doc q = none) (hp : ∀ p ∈ layer.viewPaths, ¬ q <+: p) (rest : RJPointer) :
    overlaid base (layer :: below) (q ++ rest) = overlaid base below (q ++ rest) := by
  refine overlaid_below (not_decided_append hd fun s _ hs => ?_)
  have hnone : docKind layer (q ++ s) = none := by rw [docKind_append, hg, kindAt_none]
  by_contra hc
  rcases decides_iff.mp (by simpa using hc) with h | h | ⟨h, _⟩
  · exact hp _ h (List.prefix_append q s)
  · rw [hnone] at h
    cases h
  · rw [hnone] at h
    cases h

/-! ### Virtual objects -/

/-- **What is kept is right**: a virtual object emits what the overlaid document has at a pointer of its
text that `Accept` comes to. -/
structure KeptRight (vo : Bool) (base : RJValue F) (all : List (ViewLayer F))
    (At : List (ViewLayer F) → RJPointer → Str → Prop) (objects : Objects F) : Prop where
  disabled : vo = false → ∀ n text, objects n text = none
  shows : ∀ layers, layers <:+ all → ∀ text obj, objects layers.length text = some obj →
    ∃ q v, At layers q text ∧ obj = some v ∧ Shows base layers q (some v)

variable {vo : Bool} {all : List (ViewLayer F)} {At : List (ViewLayer F) → RJPointer → Str → Prop}
  {objects : Objects F}

theorem keptRight_empty (vo : Bool) (base : RJValue F) (all : List (ViewLayer F))
    (At : List (ViewLayer F) → RJPointer → Str → Prop) : KeptRight vo base all At Objects.empty :=
  ⟨fun _ _ _ => rfl, fun _ _ _ _ h => nomatch h⟩

/-- A virtual object is that of the pointer. -/
theorem KeptRight.at (hk : KeptRight vo base all At objects) (hone : vo = true → OneText At)
    (hl : layers <:+ all) (hat : At layers q curr) {obj : VirtualObject F}
    (h : objects layers.length curr = some obj) :
    ∃ v, obj = some v ∧ Shows base layers q (some v) := by
  obtain ⟨q', v, hat', hobj, hv⟩ := hk.shows layers hl curr obj h
  cases hvo : vo with
  | false =>
    rw [hk.disabled hvo] at h
    cases h
  | true =>
    obtain rfl := hone hvo layers q q' curr hat hat'
    exact ⟨v, hobj, hv⟩

theorem KeptRight.put (hk : KeptRight true base all At objects) (hl : layers <:+ all)
    (hat : At layers q curr) {v : RJValue F} (hv : Shows base layers q (some v)) :
    KeptRight true base all At (objects.put layers.length curr (some v)) := by
  refine ⟨fun h => (nomatch h), fun layers' hl' text obj h => ?_⟩
  rw [Objects.put] at h
  split_ifs at h with hc
  · obtain rfl := Option.some.inj h
    have heq : layers' = layers :=
      (List.suffix_of_suffix_length_le hl' hl hc.1.le).eq_of_length hc.1
    rw [heq, hc.2]
    exact ⟨q, v, hat, rfl, hv⟩
  · exact hk.shows layers' hl' text obj h

theorem Objects.add_of_some {n : ℕ} {text : Str} {obj : VirtualObject F}
    (h : objects n text = some obj) : objects.add n text = objects := by
  rw [Objects.add, h]
  rfl

theorem Objects.put_self (objects : Objects F) (n : ℕ) (text : Str) (obj : VirtualObject F) :
    objects.put n text obj n text = some obj := if_pos ⟨rfl, rfl⟩

/-- What the loop of `AcceptShared` makes of a member. -/
def MemberOf (E : Str → RJValue F → Prop) (m : ViewObjectMember F) (e : Str × RJValue F) : Prop :=
  m.1 = e.1 ∧ (∀ x, m.2 = some x → e.2 = x) ∧ (m.2 = none → E m.1 e.2)

/-- **The rule of the loop**, for an invariant of the objects that are kept. -/
theorem acceptMembers_spec (vo : Bool) (n : ℕ) (curr : Str) (Inv : Objects F → Prop)
    (E : Str → RJValue F → Prop) (next : ℕ → Str → Objects F → Option (RJValue F × Objects F)) :
    ∀ {ms : List (ViewObjectMember F)} {objects : Objects F},
      (∀ name, (name, none) ∈ ms → ∀ objects, Inv objects → ∃ v objects',
        Returns (fun fuel => next fuel name objects) (v, objects') ∧ E name v ∧ Inv objects' ∧
          (vo = true → ∃ w, objects' n (attPath curr name) = some (some w) ∧ E name w)) →
      Inv objects → ∃ s, Returns (fun fuel => acceptMembers vo n curr (next fuel) ms objects) s ∧
        List.Forall₂ (MemberOf E) ms s.emitted ∧
        (vo = true → ∃ es, s.obj = some es ∧ List.Forall₂ (MemberOf E) ms es) ∧ Inv s.objects
  | [], objects, _, hinv =>
    ⟨⟨[], some [], objects⟩, Returns.pure _, .nil, fun _ => ⟨[], rfl, .nil⟩, hinv⟩
  | (name, some val) :: ms, objects, hnext, hinv => by
    obtain ⟨s, hs, hemitted, hobj, hinv'⟩ := acceptMembers_spec vo n curr Inv E next
      (fun name hm => hnext name (List.mem_cons_of_mem _ hm)) hinv
    have hm : MemberOf E (name, some val) (name, val) :=
      ⟨rfl, fun x hx => Option.some.inj hx, fun h => (nomatch h)⟩
    refine ⟨s.cons name val (some val), hs.map fun s : Shared F => s.cons name val (some val),
      .cons hm hemitted, fun hvo => ?_, hinv'⟩
    obtain ⟨es, hes, hrel⟩ := hobj hvo
    exact ⟨(name, val) :: es, by rw [Shared.cons, hes]; rfl, .cons hm hrel⟩
  | (name, none) :: ms, objects, hnext, hinv => by
    obtain ⟨v, objects', hret, hv, hinv', hkept⟩ := hnext name List.mem_cons_self objects hinv
    obtain ⟨s, hs, hemitted, hobj, hinv''⟩ := acceptMembers_spec vo n curr Inv E next
      (fun name hm => hnext name (List.mem_cons_of_mem _ hm)) hinv'
    have hadd : (if vo = true then objects'.add n (attPath curr name) else objects') = objects' := by
      split_ifs with hvo
      · obtain ⟨w, hw, -⟩ := hkept hvo
        exact Objects.add_of_some hw
      · rfl
    have hm : ∀ w, E name w → MemberOf E (name, none) (name, w) := fun w hw =>
      ⟨rfl, fun x hx => (nomatch hx), fun _ => hw⟩
    refine ⟨s.cons name v (objects' n (attPath curr name)).join, ?_, .cons (hm v hv) hemitted,
      fun hvo => ?_, hinv''⟩
    · refine hret.bind ?_
      simp only [hadd]
      exact hs.map _
    · obtain ⟨w, hw, he⟩ := hkept hvo
      obtain ⟨es, hes, hrel⟩ := hobj hvo
      exact ⟨(name, w) :: es, by rw [Shared.cons, hw, hes]; rfl, .cons (hm w he) hrel⟩

/-- Where a layer has a virtual object, it is emitted; a pointer that is not shared gets none. -/
theorem not_shared (hs : isShared (layer :: below) curr = false) (hl : layer :: below <:+ all)
    (hat : At (layer :: below) q curr) (hone : vo = true → OneText At)
    (hk : KeptRight vo base all At objects)
    (h : objects (below.length + 1) curr = none → ∃ v objects',
      Returns (fun fuel => accept vo fuel (layer :: below) q curr objects) (v, objects') ∧
        Emitted base (layer :: below) q v ∧ KeptRight vo base all At objects') :
    ∃ v objects', Returns (fun fuel => accept vo fuel (layer :: below) q curr objects) (v, objects') ∧
      Emitted base (layer :: below) q v ∧ KeptRight vo base all At objects' ∧
      (vo = true → isShared (layer :: below) curr = true → ∃ w,
        objects' (layer :: below).length curr = some (some w) ∧ Shows base (layer :: below) q (some w)) := by
  have hshared : ∀ {p : Prop}, isShared (layer :: below) curr = true → p := fun h => by
    rw [hs] at h
    cases h
  cases hobj : objects (below.length + 1) curr with
  | some obj =>
    obtain ⟨v, rfl, hshows⟩ := hk.at hone hl hat hobj
    refine ⟨v, objects, Returns.of_succ (g := fun _ => some (v, objects)) (fun n => ?_)
      (Returns.pure _), Or.inl hshows, hk, fun _ h => hshared h⟩
    rw [accept, hobj]
    rfl
  | none =>
    obtain ⟨v, objects', hret, he, hk'⟩ := h hobj
    exact ⟨v, objects', hret, he, hk', fun _ h => hshared h⟩

/-- **`Accept` returns what the overlaid document has**, where it follows the pointers and what is kept
is right; this stays so. -/
theorem accept_spec (hg : Good vo base layers q curr) : (∀ layer ∈ layers, Written layer) →
    layers <:+ all → (∀ layers' q' curr', Comes base layers q curr layers' q' curr' →
      At layers' q' curr') → (vo = true → OneText At) → ∀ objects, KeptRight vo base all At objects →
    ∃ v objects', Returns (fun fuel => accept vo fuel layers q curr objects) (v, objects') ∧
      Emitted base layers q v ∧ KeptRight vo base all At objects' ∧
      (vo = true → isShared layers curr = true →
        ∃ w, objects' layers.length curr = some (some w) ∧ Shows base layers q (some w)) := by
  induction hg with
  | @shared layers q curr hs ho hj hv hm ih =>
    intro hw hl hat hone objects hk
    rcases layers with _ | ⟨layer, below⟩
    · exact hj.elim
    have hq : At (layer :: below) q curr := hat _ _ _ .here
    cases hobj : objects (below.length + 1) curr with
    | some obj =>
      obtain ⟨v, rfl, hshows⟩ := hk.at hone hl hq hobj
      refine ⟨v, objects, Returns.of_succ (g := fun _ => some (v, objects)) (fun n => ?_)
        (Returns.pure _), Or.inl hshows, hk, fun _ _ => ⟨v, hobj, hshows⟩⟩
      rw [accept, hobj]
      rfl
    | none =>
      have hms := membersShow_joint hw hj
      have hjoint : ∀ name, (name, none) ∈ getMembers (layer :: below) q curr →
          JointMember base (layer :: below) q curr name := fun name hm =>
        jointMember_of_lookup hw hj ((firstJoint_getMembers _ _ _).lookup hm)
      obtain ⟨s, hret, hemitted, hvirtual, hk'⟩ := acceptMembers_spec vo (below.length + 1) curr
        (KeptRight vo base all At) (fun name v => Emitted base (layer :: below) (q ++ [name]) v)
        (fun fuel name => accept vo fuel (layer :: below) (q ++ [name]) (attPath curr name))
        (fun name hmem objects hk => by
          obtain ⟨v, objects', hret, he, hk', hkept⟩ := ih name (hjoint name hmem) hw hl
            (fun layers' q' curr' h => hat _ _ _ (.member hs (hjoint name hmem) h)) hone objects hk
          refine ⟨v, objects', hret, he, hk', fun hvo => ?_⟩
          obtain ⟨w, hw, hshows⟩ := hkept hvo (hv hvo name (hjoint name hmem))
          exact ⟨w, hw, Or.inl hshows⟩) hk
      have hshows := shows_object ho hms hemitted
      refine ⟨.object s.emitted, if vo = true then
        s.objects.put (below.length + 1) curr (s.obj.map .object) else s.objects, ?_, Or.inl hshows, ?_, ?_⟩
      · refine Returns.of_succ (fun n => ?_) (hret.map fun s : Shared F => (RJValue.object s.emitted,
          if vo = true then s.objects.put (below.length + 1) curr (s.obj.map .object) else s.objects))
        rw [accept]
        simp only [hobj, hs, if_true]
      · split_ifs with hvo
        · subst hvo
          obtain ⟨es, hes, hrel⟩ := hvirtual rfl
          rw [hes]
          exact hk'.put hl hq (shows_object ho hms hrel)
        · exact hk'
      · intro hvo _
        obtain ⟨es, hes, hrel⟩ := hvirtual hvo
        rw [if_pos hvo, hes]
        exact ⟨.object es, Objects.put_self _ _ _ _, shows_object ho hms hrel⟩
  | @written layer below q curr v hs hv hg hd =>
    intro hw hl hat hone objects hk
    refine not_shared hs hl (hat _ _ _ .here) hone hk fun hobj => ⟨v, objects, ?_, Or.inl ?_, hk⟩
    · refine Returns.of_succ (g := fun _ => some (v, objects)) (fun n => ?_) (Returns.pure _)
      rw [accept]
      simp only [hobj, hs, hv, Bool.false_eq_true, if_false]
    · rw [← hg]
      exact shows_of_decided hd
  | @deleted layer below q curr hs hv hg hd hn hb ih =>
    intro hw hl hat hone objects hk
    refine not_shared hs hl (hat _ _ _ .here) hone hk fun hobj => ?_
    obtain ⟨v, objects', hret, he, hk', -⟩ := ih (fun l hl => hw l (List.mem_cons_of_mem _ hl))
      ((List.suffix_cons layer below).trans hl) (fun _ _ _ h => hat _ _ _ (.under hs hv h)) hone objects hk
    refine ⟨v, objects', Returns.of_succ (fun n => ?_) hret, Or.inr ⟨?_, he.null hn⟩, hk'⟩
    · rw [accept]
      simp only [hobj, hs, hv, Bool.false_eq_true, if_false]
    · rw [overlaid_decided hd, docKind_eq, hg]
      rfl
  | @passed layer below q curr hs hv hg hd hp hb ih =>
    intro hw hl hat hone objects hk
    refine not_shared hs hl (hat _ _ _ .here) hone hk fun hobj => ?_
    obtain ⟨v, objects', hret, he, hk', -⟩ := ih (fun l hl => hw l (List.mem_cons_of_mem _ hl))
      ((List.suffix_cons layer below).trans hl) (fun _ _ _ h => hat _ _ _ (.under hs hv h)) hone objects hk
    have hov := overlaid_passed hd hg hp
    refine ⟨v, objects', Returns.of_succ (fun n => ?_) hret, ?_, hk'⟩
    · rw [accept]
      simp only [hobj, hs, hv, Bool.false_eq_true, if_false]
    · rcases he with he | ⟨hnone, hnull⟩
      · exact Or.inl fun rest => (he rest).trans (hov rest).symm
      · have h0 := hov []
        rw [List.append_nil] at h0
        exact Or.inr ⟨h0.trans hnone, hnull⟩
  | @bottom q curr hn =>
    intro hw hl hat hone objects hk
    refine ⟨.null, objects, Returns.of_succ (g := fun _ => some (.null, objects)) (fun n => rfl)
      (Returns.pure _), ?_, hk, fun _ h => (nomatch h)⟩
    rcases hn with hn | hn
    · exact Or.inr ⟨hn, rfl⟩
    · refine Or.inl fun rest => ?_
      rw [overlaid] at hn ⊢
      rw [kindAt_append]
      cases hv : (some base).bind fun w => get w q with
      | none =>
        rw [kindAt, hv] at hn
        cases hn
      | some v =>
        rw [kindAt, hv] at hn
        cases v with
        | null => rfl
        | _ => cases hn

/-! ### `Get` -/

/-- No view path is a longer pointer. -/
def NotAncestor (layers : List (ViewLayer F)) (ptr : RJPointer) : Prop :=
  ∀ layer ∈ layers, ∀ p ∈ layer.viewPaths, ptr <+: p → p = ptr

/-- **`Get` follows the pointers**: a view path starts the text of the pointer in the layer that
decides, and in no newer one. -/
def GetDecided (base : RJValue F) : List (ViewLayer F) → RJPointer → Str → Prop
  | [], ptr, _ => kindAt (some base) ptr = none
  | layer :: below, ptr, text =>
    if pathOverwritten layer text = true then decided layer (overlaid base below) ptr = true
    else decided layer (overlaid base below) ptr = false ∧ GetDecided base below ptr text

/-- A delta that does not decide at a pointer that is no ancestor of its view paths does not decide
anywhere below it. -/
theorem overlaid_not_ancestor (hw : Written layer)
    (hanc : ∀ p ∈ layer.viewPaths, ptr <+: p → p = ptr)
    (hd : decided layer (overlaid base below) ptr = false) (rest : RJPointer) :
    overlaid base (layer :: below) (ptr ++ rest) = overlaid base below (ptr ++ rest) := by
  refine overlaid_below (not_decided_append hd fun s _ hs => ?_)
  have hstop : ∀ p, p <+: ptr → ¬ decides layer (overlaid base below) p = true := by
    intro p hp hc
    rw [not_decided_below hd hp] at hc
    cases hc
  -- a value of the delta down there would be on the way to a view path
  have hnone : get layer.doc (ptr ++ s) = none := by
    by_contra hc
    obtain ⟨v, hv⟩ := Option.ne_none_iff_exists'.mp hc
    rcases hw.lines _ v hv with ⟨p, hmem, hp⟩ | ⟨p, hp, harr, p', hmem, hpp⟩ | ⟨-, p, hmem, hp⟩ |
      ⟨hnil, -⟩
    · have hle : p <+: ptr := by
        rcases List.prefix_or_prefix_of_prefix hp (List.prefix_append ptr s) with h | h
        · exact h
        · rw [hanc p hmem h]
      exact hstop p hle (decides_iff.mpr (Or.inl hmem))
    · have hle : p <+: ptr := by
        rcases List.prefix_or_prefix_of_prefix hp (List.prefix_append ptr s) with h | h
        · exact h
        · rw [hanc p' hmem (h.trans hpp)] at hpp
          exact hpp
      exact hstop p hle (decides_iff.mpr (Or.inr (Or.inl harr)))
    · have heq := hanc p hmem ((List.prefix_append ptr s).trans hp)
      rw [heq] at hp
      have hlen := hp.length_le
      rw [List.length_append] at hlen
      exact hs (List.length_eq_zero_iff.mp (by omega))
    · exact hs (List.append_eq_nil_iff.mp hnil).2
  have hkind : docKind layer (ptr ++ s) = none := by rw [docKind_eq, hnone]; rfl
  by_contra hc
  rcases decides_iff.mp (by simpa using hc) with h | h | ⟨h, _⟩
  · have heq := hanc _ h (List.prefix_append ptr s)
    exact hs (List.append_right_eq_self.mp heq)
  · rw [hkind] at h
    cases h
  · rw [hkind] at h
    cases h

/-- **`Get` returns what the overlaid document has**, where it follows the pointers. -/
theorem getFrom_spec {text : Str} : ∀ {layers : List (ViewLayer F)},
    (∀ layer ∈ layers, Written layer) → NotAncestor layers ptr → GetDecided base layers ptr text →
      Shows base layers ptr (getFrom layers ptr text)
  | [], _, _, hg => by
    have hnone : overlaid base [] ptr = none := hg
    exact fun rest => (overlaid_none_append hnone rest).symm
  | layer :: below, hw, hanc, hg => by
    rw [GetDecided] at hg
    rw [getFrom]
    by_cases ht : pathOverwritten layer text = true
    · rw [if_pos ht] at hg ⊢
      exact shows_of_decided hg
    · rw [if_neg ht] at hg ⊢
      obtain ⟨hd, hg⟩ := hg
      have hb := getFrom_spec (fun l hl => hw l (List.mem_cons_of_mem _ hl))
        (fun l hl => hanc l (List.mem_cons_of_mem _ hl)) hg
      intro rest
      rw [hb rest]
      exact (overlaid_not_ancestor (hw layer List.mem_cons_self) (hanc layer List.mem_cons_self) hd
        rest).symm

/-! ### The three readings -/

theorem overlaid_base (base : RJValue F) (ptr : RJPointer) :
    overlaid base [⟨base, [[]]⟩] ptr = kindAt (some base) ptr :=
  overlaid_decided (decided_iff.mpr ⟨[], List.nil_prefix, decides_iff.mpr (Or.inl (by simp))⟩)

/-- The layer of the base document itself changes nothing. -/
theorem overlaid_setViews (base : RJValue F) (deltas : List (ViewLayer F)) :
    overlaid base (setViews base deltas) = overlaid base deltas := by
  have hbase : overlaid base [⟨base, [[]]⟩] = overlaid base [] := funext (overlaid_base base)
  have happ : overlaid base (deltas ++ [⟨base, [[]]⟩]) = overlaid base deltas := by
    induction deltas with
    | nil => exact hbase
    | cons layer deltas ih =>
      funext ptr
      rw [List.cons_append, overlaid, overlaid, ih]
  unfold setViews
  cases kind base with
  | object => exact happ
  | array => exact happ
  | _ => rfl

theorem written_setViews {deltas : List (ViewLayer F)} (hw : ∀ layer ∈ deltas, Written layer) :
    ∀ layer ∈ setViews base deltas, Written layer := by
  have happ : ∀ layer ∈ deltas ++ [(⟨base, [[]]⟩ : ViewLayer F)], Written layer := by
    intro layer hl
    rcases List.mem_append.mp hl with hl | hl
    · exact hw layer hl
    · obtain rfl := List.mem_singleton.mp hl
      exact ⟨fun ptr v _ => Or.inl ⟨[], by simp, List.nil_prefix⟩⟩
  unfold setViews
  cases kind base with
  | object => exact happ
  | array => exact happ
  | _ => exact hw

theorem notAncestor_setViews {deltas : List (ViewLayer F)} (h : NotAncestor deltas ptr) :
    NotAncestor (setViews base deltas) ptr := by
  have happ : NotAncestor (deltas ++ [(⟨base, [[]]⟩ : ViewLayer F)]) ptr := by
    intro layer hl p hp hpre
    rcases List.mem_append.mp hl with hl | hl
    · exact h layer hl p hp hpre
    · obtain rfl := List.mem_singleton.mp hl
      obtain rfl := List.mem_singleton.mp hp
      exact (List.prefix_nil.mp hpre).symm
  unfold setViews
  cases kind base with
  | object => exact happ
  | array => exact happ
  | _ => exact h

/-- **The readings of a view agree** with the overlaid document at a pointer. -/
structure Consistent (vo : Bool) (base : RJValue F) (deltas : List (ViewLayer F)) (objects : Objects F)
    (ptr : RJPointer) : Prop where
  get : NotAncestor deltas ptr → Shows base deltas ptr (viewGet (setViews base deltas) ptr)
  prefixed : ∃ v objects', Returns (acceptAt vo (setViews base deltas) ptr objects) (v, objects') ∧
    Emitted base deltas ptr v
  whole : ∃ v objects', Returns (acceptAt vo (setViews base deltas) [] objects) (v, objects') ∧
    Shows base deltas ptr (Values.Pointer.get v ptr)

/-- A call of `Accept`: how many layers are above it, and the pointer with its text. A call of another
view on the same containers comes to a lower layer. -/
structure Reading where
  above : ℕ
  ptr : RJPointer
  text : Str

/-- `setPrefix` and `Accept` of the newest layer. -/
def Reading.of (ptr : RJPointer) : Reading := ⟨0, ptr, stringify ptr⟩

/-- What is kept after some readings. -/
def reads (vo : Bool) (layers : List (ViewLayer F)) : List Reading → ℕ → Objects F → Option (Objects F)
  | [], _, objects => some objects
  | r :: readings, fuel, objects =>
    (accept vo fuel (layers.drop r.above) r.ptr r.text objects).bind fun res =>
      reads vo layers readings fuel res.2

/-- Where the readings come to. -/
def ComesTo (base : RJValue F) (layers : List (ViewLayer F)) (readings : List Reading)
    (layers' : List (ViewLayer F)) (q : RJPointer) (curr : Str) : Prop :=
  ∃ r ∈ readings, Comes base (layers.drop r.above) r.ptr r.text layers' q curr

/-- All readings follow the pointers, the earlier ones as well. -/
structure TestsAgree (vo : Bool) (base : RJValue F) (deltas : List (ViewLayer F))
    (earlier : List Reading) (ptr : RJPointer) : Prop where
  noZero : ∀ token ∈ ptr, (0 : UInt8) ∉ token
  get : NotAncestor deltas ptr →
    GetDecided base (setViews base deltas) ptr (cString (stringify ptr))
  prefixed : Good vo base (setViews base deltas) ptr (stringify ptr)
  whole : Good vo base (setViews base deltas) [] []
  before : ∀ r ∈ earlier, Good vo base ((setViews base deltas).drop r.above) r.ptr r.text
  oneText : vo = true →
    OneText (ComesTo base (setViews base deltas) (.of ptr :: .of [] :: earlier))

theorem shows_setViews {deltas : List (ViewLayer F)} {v : Option (RJValue F)}
    (h : Shows base (setViews base deltas) ptr v) : Shows base deltas ptr v := fun rest => by
  rw [h rest, overlaid_setViews]

/-- **Readings keep what is right.** -/
theorem reads_spec (hw : ∀ layer ∈ all, Written layer) (hone : vo = true → OneText At) :
    ∀ {readings : List Reading}, (∀ r ∈ readings, Good vo base (all.drop r.above) r.ptr r.text) →
      (∀ layers q curr, ComesTo base all readings layers q curr → At layers q curr) →
      ∀ {objects : Objects F}, KeptRight vo base all At objects →
      ∃ objects', Returns (fun fuel => reads vo all readings fuel objects) objects' ∧
        KeptRight vo base all At objects'
  | [], _, _, objects, hk => ⟨objects, Returns.pure _, hk⟩
  | r :: readings, hgood, hat, objects, hk => by
    have hw' : ∀ layer ∈ all.drop r.above, Written layer := fun l h => hw l (List.mem_of_mem_drop h)
    obtain ⟨v, objects', hret, -, hk', -⟩ := accept_spec (hgood r List.mem_cons_self) hw'
      (List.drop_suffix _ _) (fun _ _ _ h => hat _ _ _ ⟨r, List.mem_cons_self, h⟩) hone objects hk
    obtain ⟨objects'', hrets, hk''⟩ := reads_spec hw hone
      (fun r h => hgood r (List.mem_cons_of_mem _ h))
      (fun _ _ _ ⟨r, hr, h⟩ => hat _ _ _ ⟨r, List.mem_cons_of_mem _ hr, h⟩) hk'
    exact ⟨objects'', hret.bind hrets, hk''⟩

/-- **View consistency**: where the comparisons of texts follow the pointers, the three readings of a
view are the base document overlaid with the deltas, after any readings that did so. -/
theorem readings_agree {deltas : List (ViewLayer F)} {earlier : List Reading}
    (hw : ∀ layer ∈ deltas, Written layer) (h : TestsAgree vo base deltas earlier ptr) :
    ∃ objects, Returns (fun fuel => reads vo (setViews base deltas) earlier fuel .empty) objects ∧
      Consistent vo base deltas objects ptr := by
  have hws : ∀ layer ∈ setViews base deltas, Written layer := written_setViews hw
  obtain ⟨objects, hret, hk⟩ := reads_spec hws h.oneText h.before
    (fun _ _ _ ⟨r, hr, hc⟩ => ⟨r, List.mem_cons_of_mem _ (List.mem_cons_of_mem _ hr), hc⟩)
    (keptRight_empty vo base _ _)
  have hspec : ∀ q, Reading.of q ∈ (Reading.of ptr :: Reading.of [] :: earlier) →
      Good vo base (setViews base deltas) q (stringify q) → ∃ v objects',
        Returns (fun fuel => accept vo fuel (setViews base deltas) q (stringify q) objects) (v, objects') ∧
          Emitted base (setViews base deltas) q v := fun q hq hgood => by
    obtain ⟨v, objects', hv, he, -⟩ := accept_spec hgood hws (List.suffix_refl _)
      (fun _ _ _ hc => ⟨.of q, hq, hc⟩) h.oneText objects hk
    exact ⟨v, objects', hv, he⟩
  refine ⟨objects, hret, fun hanc => ?_, ?_, ?_⟩
  · exact shows_setViews (getFrom_spec hws (notAncestor_setViews hanc) (h.get hanc))
  · have htokens : ptr.map cString = ptr := by
      rw [List.map_congr_left fun token ht => cString_eq_self.mpr (h.noZero token ht), List.map_id']
    obtain ⟨v, objects', hv, he⟩ := hspec ptr List.mem_cons_self h.prefixed
    refine ⟨v, objects', ?_, ?_⟩
    · unfold acceptAt
      rw [htokens]
      exact hv
    · rcases he with he | ⟨hnone, hnull⟩
      · exact Or.inl (shows_setViews he)
      · rw [overlaid_setViews] at hnone
        exact Or.inr ⟨hnone, hnull⟩
  · obtain ⟨v, objects', hv, he⟩ := hspec [] (List.mem_cons_of_mem _ List.mem_cons_self) h.whole
    refine ⟨v, objects', hv, ?_⟩
    rcases he with he | ⟨hnone, -⟩
    · intro rest
      have hshows := shows_setViews he (ptr ++ rest)
      rw [List.nil_append] at hshows
      rw [← hshows, kindAt_append]
      rfl
    · exact absurd hnone (overlaid_root _)

/-! ### Names without a slash and a tilde -/

/-- The text of a member is that of its pointer. -/
theorem attPath_stringify {name : Str} (h : ∀ c ∈ name, c ≠ 47 ∧ c ≠ 126) (q : RJPointer) :
    attPath (stringify q) name = stringify (q ++ [name]) := by
  have hname : escape name = name := by
    unfold escape
    rw [List.flatMap_congr fun c hc => by rw [if_neg (h c hc).2, if_neg (h c hc).1]]
    exact List.flatMap_singleton' name
  rw [attPath, stringify, stringify, List.flatMap_append, List.flatMap_cons, hname, List.flatMap_nil,
    List.append_nil]

/-- The names of the members that are put together have no slash and no tilde. -/
def PlainNames (base : RJValue F) (all : List (ViewLayer F)) : Prop :=
  ∀ layers, layers <:+ all → ∀ q curr name, JointMember base layers q curr name →
    ∀ c ∈ name, c ≠ 47 ∧ c ≠ 126

theorem comes_stringify {layers' : List (ViewLayer F)} {q' : RJPointer} {curr' : Str}
    (hnames : PlainNames base all) (h : Comes base layers q curr layers' q' curr') :
    layers <:+ all → curr = stringify q → curr' = stringify q' := by
  induction h with
  | here => exact fun _ => id
  | member hs hm _ ih =>
    rintro hl rfl
    exact ih hl (attPath_stringify (hnames _ hl _ _ _ hm) _)
  | under _ _ _ ih => exact fun hl => ih ((List.suffix_cons _ _).trans hl)

/-- **No two pointers have one text** there. -/
theorem oneText_of_plainNames {readings : List Reading} (hnames : PlainNames base all)
    (hreadings : ∀ r ∈ readings, r.text = stringify r.ptr) : OneText (ComesTo base all readings) := by
  rintro layers' q q' curr ⟨r, hr, h⟩ ⟨r', hr', h'⟩
  have htext := comes_stringify hnames h (List.drop_suffix _ _) (hreadings r hr)
  have htext' := comes_stringify hnames h' (List.drop_suffix _ _) (hreadings r' hr')
  exact stringify_injective (htext.symm.trans htext')

/-- The delta of one projection to a member of a member. -/
def memberDelta (name inner : Str) (v : RJValue F) : ViewLayer F :=
  ⟨.object [(name, .object [(inner, v)])], [[name, inner]]⟩

theorem get_single (name token : Str) (v : RJValue F) (rest : RJPointer) :
    get (.object [(name, v)]) (token :: rest) = if token = name then get v rest else none := by
  have hlook : child (.object [(name, v)]) token = if token = name then some v else none :=
    lookup_pair token name v []
  rw [get_cons, hlook]
  split_ifs <;> rfl

theorem written_memberDelta (name inner : Str) (v : RJValue F) : Written (memberDelta name inner v) := by
  constructor
  intro ptr w hw
  rcases ptr with _ | ⟨token, _ | ⟨token', rest⟩⟩
  · obtain rfl := Option.some.inj hw
    exact Or.inr (Or.inr (Or.inl ⟨rfl, [name, inner], by simp [memberDelta], List.nil_prefix⟩))
  · rw [memberDelta, get_single] at hw
    split_ifs at hw with ht
    obtain rfl := Option.some.inj hw
    subst ht
    exact Or.inr (Or.inr (Or.inl ⟨rfl, [token, inner], by simp [memberDelta],
      List.prefix_append [token] [inner]⟩))
  · rw [memberDelta, get_single] at hw
    split_ifs at hw with ht
    rw [get_single] at hw
    split_ifs at hw with ht'
    subst ht ht'
    exact Or.inl ⟨[token, token'], by simp [memberDelta], List.prefix_append [token, token'] rest⟩

/-! ### Examples -/

/-- `{"A":{"x":true,"y":true}}` -/
def twoMembers : RJValue Unit :=
  .object [(ascii "A", .object [(ascii "x", .bool true), (ascii "y", .bool true)])]

/-- `'/A/x':false` -/
def changed : ViewLayer Unit := memberDelta (ascii "A") (ascii "x") (.bool false)

/-- Only the object at `/A` is put together of members that are put together. -/
theorem jointMember_changed {q : RJPointer} {curr name : Str} {layers : List (ViewLayer Unit)}
    (hl : layers <:+ setViews twoMembers [changed]) (h : JointMember twoMembers layers q curr name) :
    layers = setViews twoMembers [changed] ∧
      (q = [] ∧ name = ascii "A" ∨ q = [ascii "A"] ∧ name = ascii "x") := by
  have hbase : ∀ below : List (ViewLayer Unit), below <:+ [⟨twoMembers, [[]]⟩] →
      ¬ JointMember twoMembers below q curr name := by
    intro below hb hj
    rcases List.suffix_cons_iff.mp hb with rfl | hb
    · exact Bool.noConfusion hj.1
    · rw [List.suffix_nil.mp hb] at hj
      exact hj
  rcases List.suffix_cons_iff.mp hl with rfl | hl
  · refine ⟨rfl, ?_⟩
    rcases h.2.2 with ⟨hsome, -⟩ | h
    · rw [docKind, kindAt, Option.bind_some] at hsome
      rcases q with _ | ⟨a, _ | ⟨b, q⟩⟩
      · rw [List.nil_append, changed, memberDelta, get_single] at hsome
        split_ifs at hsome with hn
        · exact Or.inl ⟨rfl, hn⟩
        · cases hsome
      · rw [List.singleton_append, changed, memberDelta, get_single] at hsome
        split_ifs at hsome with ha
        · rw [get_single] at hsome
          split_ifs at hsome with hx
          · exact Or.inr ⟨by rw [ha], hx⟩
          · cases hsome
        · cases hsome
      · rw [List.cons_append, List.cons_append, changed, memberDelta, get_single] at hsome
        split_ifs at hsome
        · rw [get_single] at hsome
          split_ifs at hsome
          · rcases q with _ | ⟨c, q⟩ <;> cases hsome
          · cases hsome
        · cases hsome
    · exact absurd h (hbase _ (List.suffix_refl _))
  · exact absurd h (hbase layers hl)

/-- The delta of one projection to a member. -/
theorem written_member (name : Str) (v : RJValue F) :
    Written (⟨.object [(name, v)], [[name]]⟩ : ViewLayer F) := by
  constructor
  intro ptr w hw
  cases ptr with
  | nil =>
    obtain rfl := Option.some.inj hw
    exact Or.inr (Or.inr (Or.inl ⟨rfl, [name], by simp, List.nil_prefix⟩))
  | cons token rest =>
    have hlook : child (.object [(name, v)]) token = if token = name then some v else none :=
      lookup_pair token name v []
    rw [get_cons, hlook] at hw
    by_cases ht : token = name
    · subst ht
      exact Or.inl ⟨[token], by simp, List.prefix_append [token] rest⟩
    · rw [if_neg ht] at hw
      cases hw

theorem good_changed_member :
    Good true twoMembers (setViews twoMembers [changed]) [ascii "A"] (stringify [ascii "A"]) := by
  refine .shared rfl rfl ⟨rfl, ?_⟩ (fun _ name hj => ?_) fun name hj => ?_
  · rw [if_neg (by decide)]
    refine ⟨⟨by decide, rfl, ?_, by decide, fun name hsome => ?_, ?_⟩, rfl, ?_⟩
    · intro v hv
      obtain rfl := Option.some.inj hv
      decide
    · have hname : name = ascii "x" ∨ name = ascii "y" := by
        change (overlaid twoMembers [⟨twoMembers, [[]]⟩] ([ascii "A"] ++ [name])).isSome = true at hsome
        rw [overlaid_base, kindAt, Option.bind_some, List.singleton_append, twoMembers, get_single,
          if_pos rfl, get_cons] at hsome
        by_contra hc
        obtain ⟨hx, hy⟩ := not_or.mp hc
        have hnone : child (.object [(ascii "x", .bool true), (ascii "y", .bool true)] : RJValue Unit) name =
            none := by
          show List.lookup name [(ascii "x", _), (ascii "y", _)] = none
          rw [lookup_pair, if_neg hx, lookup_pair, if_neg hy, List.lookup_nil]
        rw [hnone] at hsome
        cases hsome
      rcases hname with rfl | rfl <;> decide
    · intro name rest hmem hnone
      obtain ⟨rfl, rfl⟩ : name = ascii "x" ∧ rest = [] := by
        simpa [changed, memberDelta] using hmem
      cases hnone
    · rw [if_pos (by decide)]
      exact Or.inl rfl
  · obtain ⟨-, ⟨h, -⟩ | ⟨-, rfl⟩⟩ := jointMember_changed (List.suffix_refl _) hj
    · cases h
    · cases hj.2.1
  · obtain ⟨-, ⟨h, -⟩ | ⟨-, rfl⟩⟩ := jointMember_changed (List.suffix_refl _) hj
    · cases h
    · cases hj.2.1

theorem good_changed : Good true twoMembers (setViews twoMembers [changed]) [] [] := by
  refine .shared rfl rfl ⟨rfl, ?_⟩ (fun _ name hj => ?_) fun name hj => ?_
  · rw [if_neg (by decide)]
    refine ⟨⟨by decide, rfl, ?_, by decide, fun name hsome => ?_, ?_⟩, rfl, ?_⟩
    · intro v hv
      obtain rfl := Option.some.inj hv
      decide
    · change (overlaid twoMembers [⟨twoMembers, [[]]⟩] [name]).isSome = true at hsome
      rw [overlaid_base, kindAt, Option.bind_some, twoMembers, get_single] at hsome
      split_ifs at hsome with hname
      · subst hname
        decide
      · cases hsome
    · intro name rest hmem hnone
      obtain ⟨rfl, rfl⟩ : name = ascii "A" ∧ rest = [ascii "x"] := by
        simpa [changed, memberDelta] using hmem
      cases hnone
    · rw [if_pos (by decide)]
      exact Or.inl rfl
  · obtain ⟨-, ⟨-, rfl⟩ | ⟨h, -⟩⟩ := jointMember_changed (List.suffix_refl _) hj
    · rfl
    · cases h
  · obtain ⟨-, ⟨-, rfl⟩ | ⟨h, -⟩⟩ := jointMember_changed (List.suffix_refl _) hj
    · exact good_changed_member
    · cases h

/-- A member beside the one that is changed, after the whole document was read and its objects kept. -/
theorem readings_agree_kept :
    ∃ objects, Returns (fun fuel => reads true (setViews twoMembers [changed]) [.of []] fuel .empty)
        objects ∧
      Consistent true twoMembers [changed] objects [ascii "A", ascii "y"] := by
  have hw : Written changed := written_memberDelta (ascii "A") (ascii "x") (.bool false)
  refine readings_agree (by simpa using hw) ⟨by decide, fun _ => ?_, ?_, good_changed, ?_, fun _ => ?_⟩
  · show if _ then _ else _
    rw [if_neg (by decide)]
    refine ⟨rfl, ?_⟩
    show if _ then _ else _
    rw [if_pos (by decide)]
    rfl
  · exact .passed rfl rfl rfl rfl (by decide) (.written (v := .bool true) rfl rfl rfl rfl)
  · intro r hr
    obtain rfl := List.mem_singleton.mp hr
    exact good_changed
  · refine oneText_of_plainNames (fun layers hl q curr name hj c hc => ?_) ?_
    · obtain ⟨-, ⟨-, rfl⟩ | ⟨-, rfl⟩⟩ := jointMember_changed hl hj
      · obtain rfl := List.mem_singleton.mp hc
        decide
      · obtain rfl := List.mem_singleton.mp hc
        decide
    · intro r hr
      simp only [List.mem_cons, List.not_mem_nil, or_false] at hr
      rcases hr with rfl | rfl | rfl <;> rfl

/-- The text `/A` starts the text `/AB`: what is at `/AB` is not read. -/
theorem readings_differ : ∃ (base : RJValue Unit) (deltas : List (ViewLayer Unit)) (ptr : RJPointer),
    (∀ layer ∈ deltas, Written layer) ∧ ∀ vo, ¬ Consistent vo base deltas .empty ptr := by
  refine ⟨.object [(ascii "A", .bool true), (ascii "AB", .bool false)],
    [⟨.object [(ascii "A", .bool false)], [[ascii "A"]]⟩], [ascii "AB"], ?_, fun vo h => ?_⟩
  · simpa using written_member (F := Unit) (ascii "A") (.bool false)
  · have hread := h.get (by unfold NotAncestor; decide) []
    have hnone : viewGet (F := Unit) (setViews (.object [(ascii "A", .bool true), (ascii "AB", .bool false)])
        [⟨.object [(ascii "A", .bool false)], [[ascii "A"]]⟩]) [ascii "AB"] = none := rfl
    have hsome : overlaid (F := Unit) (.object [(ascii "A", .bool true), (ascii "AB", .bool false)])
        [⟨.object [(ascii "A", .bool false)], [[ascii "A"]]⟩] [ascii "AB"] = some (.bool false) := rfl
    rw [List.append_nil, hnone, hsome] at hread
    cases hread

end Joda.Storage.ViewReadings
