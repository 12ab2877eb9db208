import Joda.Storage.Reparse

/-! # What is restored

A container keeps its documents through any calls as long as each call meets its condition (`Meets`).
What is requested lies one document behind the other in the files; a range starts with the first
document and either something of it is missing or it reaches the last one; where views are enabled no
document of a base container is left out; the container below has what is needed; no container over it
only selects, and one that only selects itself is evicted only if its files have what it shows. -/

namespace Joda.Storage.ReparseRuns

open Joda.Values.Value Joda.Parser.StreamParser Joda.Execution.Container Joda.Storage.FileOrigin
open Joda.Storage.Reparse Joda.Lib.Runs

variable {V : Type}

/-! ### The documents of a container -/

/-- A container with all its documents. -/
structure Full (V : Type) where
  docs : List V
  baseIds : List ℕ
  attributes : List Str

def fullLayers : List (Full V) → ℕ → Option (List (List Str × V))
  | [], _ => none
  | [full], i => full.docs[i]?.map fun v => [([[]], v)]
  | full :: base :: below, i => full.docs[i]?.bind fun v => full.baseIds[i]?.bind fun baseId =>
    (fullLayers (base :: below) baseId).map fun layers => (full.attributes, v) :: layers

def fullAt (shown : List (List Str × V) → V) : List (Full V) → ℕ → Option V
  | [full], i => full.docs[i]?
  | fulls, i => (fullLayers fulls i).map shown

/-- A view that only selects. -/
def IsMere (cont : Container V) (below : List (Container V)) : Prop :=
  cont.materializedAttributes = [] ∧ below ≠ []

/-- A document is there or in a file. The files of a view that only selects have other documents. -/
structure Keeps (json : Json V) (files : ℕ → Str) (nextFile : ℕ) (mere : Prop) (deleted : Bool)
    (doc : Document V) (v : V) : Prop where
  value : doc.json = some v ∨
    doc.json = none ∧ deleted = true ∧ ¬ mere ∧ doc.origin ≠ .temporary
  filed : ∀ interval, doc.origin = .file interval →
    interval.file < nextFile ∧ (¬ mere → Holds json.toRapidJson files interval v)

/-- A container over the ones below. An `id` is given once all its documents are in files, and a view
that only selects is cut off when it is evicted. -/
structure Level (json : Json V) (files : ℕ → Str) (nextFile : ℕ) (cont : Container V)
    (below : List (Container V)) (full : Full V) (fulls : List (Full V)) : Prop where
  docs : List.Forall₂ (Keeps json files nextFile (IsMere cont below) cont.deleted) cont.docs full.docs
  baseIds : cont.baseIds = full.baseIds
  attributes : below ≠ [] → cont.materializedAttributes = full.attributes
  linked : ∀ base ∈ fulls.head?, ∀ i, i < full.docs.length →
    ∃ baseId, full.baseIds[i]? = some baseId ∧ baseId < base.docs.length
  mere : IsMere cont below → cont.deleted = false
  written : cont.id.isSome = true → ∀ doc ∈ cont.docs, doc.origin ≠ .temporary

inductive Kept (json : Json V) (files : ℕ → Str) (nextFile : ℕ) :
    List (Container V) → List (Full V) → Prop
  | nil : Kept json files nextFile [] []
  | cons {cont : Container V} {below : List (Container V)} {full : Full V} {fulls : List (Full V)}
      (level : Level json files nextFile cont below full fulls)
      (rest : Kept json files nextFile below fulls) :
      Kept json files nextFile (cont :: below) (full :: fulls)

/-- **The documents of a container are `was`**: each is loaded or in a file, which is read back as it
was written. -/
def Stored (json : Json V) (shown : List (List Str × V) → V) (was : List V) (m : Memory V) : Prop :=
  ∃ fulls, Kept json m.files m.nextFile m.chain fulls ∧ ∀ i, fullAt shown fulls i = was[i]?

/-! ### When the calls are right -/

section Conditions

variable (json : Json V) (enable_views : Bool)

/-- A call reads something at all. -/
def Loads (cont : Container V) : Prop := cont.deleted = true ∧ cont.docs ≠ []

/-- The document is there with all its layers. -/
def Present (chain : List (Container V)) (i : ℕ) : Prop := (layersOf chain i).isSome = true

/-- The containers below have the document at the place. -/
def BasePresent (cont : Container V) (below : List (Container V)) (i : ℕ) : Prop :=
  below ≠ [] → ∃ baseId, cont.baseIds[i]? = some baseId ∧ Present below baseId

/-- The views can be set: they are, or the base container is loaded. -/
def ViewsReady : List (Container V) → Prop
  | [] => True
  | [cont] => cont.viewsComputed = true ∨ enable_views = false ∨
    ∀ doc ∈ cont.docs, doc.isValid = true
  | cont :: below => cont.viewsComputed = true ∨ enable_views = false ∨ ViewsReady below

/-- What is requested and missing lies one document behind the other. -/
def Laid (files : ℕ → Str) (requested : ℕ → Bool) (cont : Container V) : Prop :=
  ReadableAll json.toRapidJson files (missing requested 0 cont.docs)

/-- No document of a base container is left out where views are enabled. -/
def Whole (requested : ℕ → Bool) (cont : Container V) (below : List (Container V)) : Prop :=
  enable_views = true → below = [] → ∀ i doc, cont.docs[i]? = some doc → doc.json = none →
    requested i = true

def MeetsRemove (files : ℕ → Str) (was : List V) : List (Container V) → Prop
  | [] => True
  | cont :: below => cont.deleted = false →
    [] ∉ cont.subContainers ∧
      (IsMere cont below → ∀ (i : ℕ) (doc : Document V) (v : V), cont.docs[i]? = some doc →
        was[i]? = some v → ∃ interval, doc.origin = .file interval ∧ Holds json.toRapidJson files interval v)

def MeetsReparse (files : ℕ → Str) : List (Container V) → Prop
  | [] => True
  | cont :: below =>
    (Loads cont → [] ∉ cont.subContainers ∧ Laid json files (fun _ => true) cont ∧
      ViewsReady enable_views below) ∧ ∀ i, i < cont.docs.length → BasePresent cont below i

def MeetsRange (files : ℕ → Str) : ℕ → ℕ → List (Container V) → Prop
  | _, _, [] => True
  | start, stop, cont :: below =>
    (Loads cont →
      let last := min (cont.docs.length - 1) stop
      let requested := fun i => decide (start ≤ i) && decide (i ≤ last)
      start = 0 ∧ [] ∉ cont.subContainers ∧ Laid json files requested cont ∧
        (missing requested 0 cont.docs ≠ [] ∨ cont.docs.length ≤ last + 1) ∧
        Whole enable_views requested cont below ∧
        ∀ base ∈ below.head?, ∀ minBase maxBase, cont.baseIds[start]? = some minBase →
          cont.baseIds[last]? = some maxBase →
            MeetsRange files minBase maxBase below ∧
            (Loads base → ∀ i baseId, i ≤ last → cont.baseIds[i]? = some baseId →
              minBase ≤ baseId ∧ baseId ≤ maxBase) ∧
            (¬ Loads base → ViewsReady enable_views below ∧
              ∀ i, i ≤ last → i < cont.docs.length → BasePresent cont below i)) ∧
    (¬ Loads cont → ∀ i, start ≤ i → i ≤ stop → i < cont.docs.length → BasePresent cont below i)

def MeetsSubset (files : ℕ → Str) : DocIndex → List (Container V) → Prop
  | _, [] => True
  | index, cont :: below =>
    (Loads cont → [] ∉ cont.subContainers ∧ Laid json files (fun i => i ∈ index) cont ∧
      Whole enable_views (fun i => i ∈ index) cont below ∧
      ∀ base ∈ below.head?,
        MeetsSubset files ((index.filter (· < cont.docs.length)).image fun i => cont.baseIds.getD i 0)
          below ∧
        (¬ Loads base → ViewsReady enable_views below)) ∧
    (¬ Loads cont → ∀ i, i ∈ index → i < cont.docs.length → BasePresent cont below i)

/-- **The condition of a call.** -/
def Meets (was : List V) (m : Memory V) : Call → Prop
  | .removeDocuments => MeetsRemove json m.files was m.chain
  | .reparse => MeetsReparse json enable_views m.files m.chain
  | .reparseRange start stop => MeetsRange json enable_views m.files start stop m.chain
  | .reparseSubset index => MeetsSubset json enable_views m.files index m.chain

end Conditions

/-! ### Layers -/

variable {json : Json V} {enable_views : Bool} {files : ℕ → Str} {nextFile : ℕ}
  {shown : List (List Str × V) → V} {was : List V} {cont : Container V} {below chain : List (Container V)}
  {full fullBase : Full V} {fulls : List (Full V)}

theorem Kept.length (h : Kept json files nextFile (cont :: below) (full :: fulls)) :
    cont.docs.length = full.docs.length := by
  rcases h with - | ⟨level, -⟩
  exact level.docs.length_eq

theorem Kept.value (h : Kept json files nextFile (cont :: below) (full :: fulls)) {i : ℕ} {w : V}
    (hw : cont.docs[i]?.bind (·.json) = some w) : full.docs[i]? = some w := by
  rcases h with - | ⟨level, -⟩
  obtain ⟨doc, hdoc, hjson⟩ := Option.bind_eq_some_iff.mp hw
  obtain ⟨hi, rfl⟩ := List.getElem?_eq_some_iff.mp hdoc
  have hi' : i < full.docs.length := by rw [← level.docs.length_eq]; exact hi
  have hkeeps := (List.forall₂_iff_get.mp level.docs).2 i hi hi'
  rw [List.getElem?_eq_getElem hi']
  rcases hkeeps.value with h | ⟨h, -⟩
  · have h : cont.docs[i].json = some full.docs[i] := h
    rw [hjson] at h
    exact h.symm
  · have h : cont.docs[i].json = none := h
    rw [hjson] at h
    cases h

/-- The layers that are there are those of the document. -/
theorem Kept.layers :
    ∀ {chain : List (Container V)} {fulls : List (Full V)} {layers : List (List Str × V)} {i : ℕ},
      Kept json files nextFile chain fulls → layersOf chain i = some layers →
        fullLayers fulls i = some layers
  | [], _, _, _, _, h => by cases h
  | [cont], [], _, _, hkept, _ => by cases hkept
  | [cont], full :: fulls, layers, i, hkept, h => by
    have hvalue := fun (w : V) (hw : (cont.docs[i]?.bind (·.json)) = some w) => hkept.value hw
    rcases hkept with - | ⟨-, hrest⟩
    rcases hrest with - | -
    rw [layersOf, Option.map_eq_some_iff] at h
    obtain ⟨v, hv, rfl⟩ := h
    rw [fullLayers, hvalue v hv]
    rfl
  | cont :: base :: below, [], _, _, hkept, _ => by cases hkept
  | cont :: base :: below, full :: fulls, layers, i, hkept, h => by
    have hvalue := fun (w : V) (hw : (cont.docs[i]?.bind (·.json)) = some w) => hkept.value hw
    rcases hkept with - | ⟨level, hrest⟩
    rcases fulls with - | ⟨fullBase, fulls⟩
    · cases hrest
    · rw [layersOf] at h
      obtain ⟨v, hv, h⟩ := Option.bind_eq_some_iff.mp h
      obtain ⟨baseId, hbase, h⟩ := Option.bind_eq_some_iff.mp h
      obtain ⟨rest, hlayers, rfl⟩ := Option.map_eq_some_iff.mp h
      rw [fullLayers, hvalue v hv, ← level.baseIds, hbase, Option.bind_some, Option.bind_some,
        hrest.layers hlayers, ← level.attributes (by simp)]
      rfl

/-- What is shown is the document. -/
theorem Kept.documentAt {i : ℕ} {w : V} (h : Kept json files nextFile chain fulls)
    (hw : documentAt shown chain i = some w) : fullAt shown fulls i = some w := by
  rcases h with - | ⟨level, hrest⟩
  · cases hw
  · rcases hrest with - | ⟨levelBase, hrest⟩
    · exact (Kept.cons level .nil).value hw
    · obtain ⟨layers, hlayers, rfl⟩ := Option.map_eq_some_iff.mp hw
      exact congrArg (Option.map shown) ((Kept.cons level (.cons levelBase hrest)).layers hlayers)

/-- A document that is there with its layers is shown. -/
theorem Present.documentAt (shown : List (List Str × V) → V) {i : ℕ} (h : Present chain i) :
    ∃ w, documentAt shown chain i = some w := by
  unfold Present at h
  rcases chain with - | ⟨cont, - | ⟨base, below⟩⟩
  · cases h
  · rw [layersOf, Option.isSome_map] at h
    exact Option.isSome_iff_exists.mp h
  · obtain ⟨layers, hlayers⟩ := Option.isSome_iff_exists.mp h
    exact ⟨shown layers, congrArg (Option.map shown) hlayers⟩

theorem Kept.restores {call : Call} {m : Memory V} (h : Kept json m.files m.nextFile m.chain fulls)
    (hwas : ∀ i, fullAt shown fulls i = was[i]?)
    (hpresent : ∀ i, i < was.length → call.Requests i → Present m.chain i) :
    Restores shown was call m where
  requested i v hv hrequests := by
    have hi : i < was.length := by
      by_contra hc
      rw [List.getElem?_eq_none (Nat.le_of_not_lt hc)] at hv
      cases hv
    obtain ⟨w, hw⟩ := (hpresent i hi hrequests).documentAt shown
    rw [hw, ← hv, ← hwas i, h.documentAt hw]
  others i v w hv hw := by
    have := h.documentAt hw
    rw [hwas, hv] at this
    exact (Option.some.inj this).symm

/-! ### Dealing out -/

/-- The documents with those that were requested. -/
def loaded (requested : ℕ → Bool) : ℕ → List (Document V) → List V → List (Document V)
  | i, doc :: docs, v :: vs =>
    { doc with json := if requested i then some v else doc.json } :: loaded requested (i + 1) docs vs
  | _, docs, _ => docs

/-- What was read for `missing`. -/
def missingValues (requested : ℕ → Bool) : ℕ → List (Document V) → List V → List V
  | i, doc :: docs, v :: vs =>
    match requested i, doc.json, doc.origin with
    | true, none, .file _ => v :: missingValues requested (i + 1) docs vs
    | _, _, _ => missingValues requested (i + 1) docs vs
  | _, _, _ => []

variable {requested : ℕ → Bool} {docs : List (Document V)} {vs : List V} {mere : Prop} {deleted : Bool}

theorem missing_holds (requested : ℕ → Bool) (hmere : ¬ mere) (i : ℕ)
    (h : List.Forall₂ (Keeps json files nextFile mere deleted) docs vs) :
    List.Forall₂ (Holds json.toRapidJson files) (missing requested i docs)
      (missingValues requested i docs vs) := by
  induction h generalizing i with
  | nil => exact .nil
  | @cons doc v docs vs hdoc _ ih =>
    obtain ⟨j, origin⟩ := doc
    unfold missing missingValues
    rcases requested i with - | -
    · exact ih (i + 1)
    · rcases j with - | j
      · rcases origin with - | interval
        · exact ih (i + 1)
        · exact .cons ((hdoc.filed interval rfl).2 hmere) (ih (i + 1))
      · exact ih (i + 1)

/-- A document that is not missing, or not asked for, is kept. -/
theorem Keeps.kept {doc : Document V} {v : V} {i : ℕ}
    (h : Keeps json files nextFile mere deleted doc v)
    (hdoc : requested i = false ∨ doc.json ≠ none) :
    { doc with json := if requested i = true then some v else doc.json } = doc := by
  by_cases hr : requested i = true
  · rw [if_pos hr]
    rcases h.value with hv | ⟨hv, -⟩
    · rw [← hv]
    · rcases hdoc with h | h
      · rw [h] at hr
        cases hr
      · exact absurd hv h
  · rw [if_neg hr]

theorem missing_cons {doc : Document V} {v : V} (h : Keeps json files nextFile mere deleted doc v)
    (i : ℕ) (docs : List (Document V)) (vs : List V) :
    (requested i = true ∧ doc.json = none ∧
        (∃ interval, missing requested i (doc :: docs) = interval :: missing requested (i + 1) docs) ∧
        missingValues requested i (doc :: docs) (v :: vs) = v :: missingValues requested (i + 1) docs vs) ∨
      ((requested i = false ∨ doc.json ≠ none) ∧
        missing requested i (doc :: docs) = missing requested (i + 1) docs ∧
        missingValues requested i (doc :: docs) (v :: vs) = missingValues requested (i + 1) docs vs) := by
  obtain ⟨j, origin⟩ := doc
  rw [missing, missingValues]
  rcases requested i with - | -
  · exact Or.inr ⟨Or.inl rfl, rfl, rfl⟩
  · rcases j with - | j
    · rcases origin with - | interval
      · rcases h.value with h | ⟨-, -, -, h⟩
        · cases h
        · exact absurd rfl h
      · exact Or.inl ⟨rfl, rfl, ⟨interval, rfl⟩, rfl⟩
    · exact Or.inr ⟨Or.inr (by simp), rfl, rfl⟩

theorem loaded_of_nothing (i : ℕ) (h : List.Forall₂ (Keeps json files nextFile mere deleted) docs vs)
    (hnone : missingValues requested i docs vs = []) : loaded requested i docs vs = docs := by
  induction h generalizing i with
  | nil => rfl
  | @cons doc v docs vs hdoc _ ih =>
    rcases missing_cons hdoc i docs vs with ⟨-, -, -, hvalues⟩ | ⟨hkept, -, hvalues⟩
    · rw [hvalues] at hnone
      cases hnone
    · rw [hvalues] at hnone
      rw [loaded, hdoc.kept hkept, ih (i + 1) hnone]

theorem requested_of_missing : ∀ (i : ℕ) (docs : List (Document V)),
    missing requested i docs ≠ [] → ∃ k, i ≤ k ∧ requested k = true
  | _, [], h => absurd rfl h
  | i, doc :: docs, h => by
    by_cases hr : requested i = true
    · exact ⟨i, le_rfl, hr⟩
    · have hrest : missing requested i (doc :: docs) = missing requested (i + 1) docs := by
        rw [Bool.not_eq_true] at hr
        rw [missing, hr]
      obtain ⟨k, hk, hreq⟩ := requested_of_missing (i + 1) docs (by rwa [← hrest])
      exact ⟨k, by omega, hreq⟩

/-- **The documents are dealt out to where they were missing.** -/
theorem deal_missing {skips : ℕ → Document V → Option Bool} (inside : ℕ → Prop)
    (hskips : ∀ i doc, inside i → skips i doc = some (doc.isValid || !requested i))
    (hinside : ∀ i k, i ≤ k → requested k = true → inside i) (hmere : ¬ mere) (i : ℕ)
    (h : List.Forall₂ (Keeps json files nextFile mere deleted) docs vs)
    (hend : missing requested i docs ≠ [] ∨ ∀ j, j < i + docs.length → inside j) :
    deal skips i docs ((missingValues requested i docs vs).map some) =
      some (loaded requested i docs vs) := by
  induction h generalizing i with
  | nil => rfl
  | @cons doc v docs vs hdoc hrest ih =>
    rcases missing_cons hdoc i docs vs with ⟨hreq, hnone, -, hvalues⟩ | ⟨hkept, hmissing, hvalues⟩
    · have hskip : skips i doc = some false := by
        rw [hskips i doc (hinside i i le_rfl hreq), Document.isValid, hnone, hreq]
        rfl
      rw [hvalues, loaded, hreq, List.map_cons]
      by_cases hlast : missingValues requested (i + 1) docs vs = []
      · rw [hlast, loaded_of_nothing (i + 1) hrest hlast]
        simp only [deal, hskip, List.map_nil, if_true]
      · have hend' : missing requested (i + 1) docs ≠ [] := by
          intro hc
          have hlength := (missing_holds requested hmere (i + 1) hrest).length_eq
          rw [hc] at hlength
          exact hlast (List.eq_nil_of_length_eq_zero hlength.symm)
        have ih := ih (i + 1) (Or.inl hend')
        obtain ⟨w, ws, hws⟩ := List.exists_cons_of_ne_nil hlast
        rw [hws, List.map_cons] at ih ⊢
        simp only [deal, hskip, if_true]
        rw [ih, Option.map_some]
    · have hi : inside i := by
        rcases hend with hend | hend
        · rw [hmissing] at hend
          obtain ⟨k, hk, hreq⟩ := requested_of_missing (i + 1) docs hend
          exact hinside i k (by omega) hreq
        · exact hend i (by rw [List.length_cons]; omega)
      have hskip : skips i doc = some true := by
        rw [hskips i doc hi]
        rcases hkept with hr | hv
        · rw [hr, Bool.not_false, Bool.or_true]
        · rw [Document.isValid, Option.isSome_iff_ne_none.mpr hv, Bool.true_or]
      have hend' : missing requested (i + 1) docs ≠ [] ∨
          ∀ j, j < i + 1 + docs.length → inside j := by
        rw [hmissing] at hend
        exact hend.imp_right fun h j hj => h j (by rw [List.length_cons]; omega)
      rw [hvalues, loaded, hdoc.kept hkept]
      simp only [deal, hskip]
      rw [ih (i + 1) hend', Option.map_some]

/-- **What the three functions do**: the documents that were requested are loaded. -/
theorem load_spec {skips : ℕ → Document V → Option Bool} (inside : ℕ → Prop)
    (hskips : ∀ i doc, inside i → skips i doc = some (doc.isValid || !requested i))
    (hinside : ∀ i k, i ≤ k → requested k = true → inside i) (hmere : ¬ mere)
    (h : List.Forall₂ (Keeps json files nextFile mere deleted) docs vs)
    (hend : missing requested 0 docs ≠ [] ∨ ∀ j, j < docs.length → inside j)
    (hlaid : ReadableAll json.toRapidJson files (missing requested 0 docs)) :
    load json files requested skips docs = some (loaded requested 0 docs vs) := by
  rw [load, parseIntervals_merged (missing_holds requested hmere 0 h) hlaid, Option.bind_some]
  exact deal_missing inside hskips hinside hmere 0 h (by rwa [Nat.zero_add])

theorem loaded_keeps (requested : ℕ → Bool) (i : ℕ) {deleted' : Bool}
    (h : List.Forall₂ (Keeps json files nextFile mere deleted) docs vs)
    (hdeleted : deleted' = true ∨ deleted = false ∨ ∀ i, requested i = true) :
    List.Forall₂ (Keeps json files nextFile mere deleted') (loaded requested i docs vs) vs := by
  induction h generalizing i with
  | nil => exact .nil
  | @cons doc v docs vs hdoc hrest ih =>
    refine .cons ⟨?_, hdoc.filed⟩ (ih (i + 1))
    by_cases hr : requested i = true
    · exact Or.inl (if_pos hr)
    · rcases hdoc.value with hv | ⟨hnone, hdel, hm, horigin⟩
      · exact Or.inl ((if_neg hr).trans hv)
      · rcases hdeleted with h | h | h
        · exact Or.inr ⟨(if_neg hr).trans hnone, h, hm, horigin⟩
        · rw [h] at hdel
          cases hdel
        · exact absurd (h i) hr

theorem loaded_get (requested : ℕ → Bool) (h : docs.length = vs.length) (k i : ℕ)
    (hi : i < docs.length) : ∃ doc v, docs[i]? = some doc ∧ vs[i]? = some v ∧
      (loaded requested k docs vs)[i]? =
        some { doc with json := if requested (k + i) then some v else doc.json } := by
  induction docs generalizing vs k i with
  | nil => exact absurd hi (Nat.not_lt_zero i)
  | cons doc docs ih =>
    rcases vs with - | ⟨v, vs⟩
    · cases h
    · rcases i with - | i
      · exact ⟨doc, v, rfl, rfl, rfl⟩
      · obtain ⟨d, w, hd, hw, hget⟩ := ih (Nat.succ.inj h) (k + 1) i (Nat.lt_of_succ_lt_succ hi)
        refine ⟨d, w, hd, hw, ?_⟩
        rw [show k + (i + 1) = k + 1 + i by omega]
        exact hget

theorem length_loaded (requested : ℕ → Bool) (k : ℕ) (docs : List (Document V)) (vs : List V) :
    (loaded requested k docs vs).length = docs.length := by
  induction docs generalizing vs k with
  | nil => rfl
  | cons doc docs ih =>
    rcases vs with - | ⟨v, vs⟩
    · rfl
    · rw [loaded, List.length_cons, List.length_cons, ih]

/-! ### Chains of containers -/

variable {below' : List (Container V)} {cont' : Container V}

theorem layersOf_cons (cont : Container V) (hne : below ≠ []) (i : ℕ) :
    layersOf (cont :: below) i = (cont.docs[i]?.bind (·.json)).bind fun v =>
      cont.baseIds[i]?.bind fun baseId =>
        (layersOf below baseId).map fun layers => (cont.materializedAttributes, v) :: layers := by
  rcases below with - | ⟨base, below⟩
  · exact absurd rfl hne
  · rfl

theorem present_cons {i : ℕ} (hdoc : (cont.docs[i]?.bind (·.json)).isSome = true)
    (hbase : BasePresent cont below i) : Present (cont :: below) i := by
  unfold Present
  obtain ⟨v, hv⟩ := Option.isSome_iff_exists.mp hdoc
  rcases below with - | ⟨base, below⟩
  · rw [layersOf, Option.isSome_map]
    exact hdoc
  · obtain ⟨baseId, hid, hpresent⟩ := hbase (by simp)
    rw [layersOf_cons cont (by simp), hv, Option.bind_some, hid, Option.bind_some, Option.isSome_map]
    exact hpresent

theorem Kept.nil_iff (h : Kept json files nextFile chain fulls) : chain = [] ↔ fulls = [] := by
  rcases h with - | -
  · exact iff_of_true rfl rfl
  · exact iff_of_false (by simp) (by simp)

/-- What a container has does not depend on whether views are set, nor on the views of those below. -/
theorem Level.congr (h : Level json files nextFile cont below full fulls)
    (hbelow : below = [] ↔ below' = []) (hdocs : cont'.docs = cont.docs)
    (hids : cont'.baseIds = cont.baseIds) (hid : cont'.id = cont.id)
    (hattributes : below ≠ [] → cont'.materializedAttributes = cont.materializedAttributes)
    (hdeleted : cont'.deleted = cont.deleted) : Level json files nextFile cont' below' full fulls := by
  have hmere : IsMere cont' below' ↔ IsMere cont below := by
    unfold IsMere
    rw [Ne, Ne, ← hbelow]
    constructor
    · rintro ⟨h1, h2⟩
      exact ⟨(hattributes h2).symm.trans h1, h2⟩
    · rintro ⟨h1, h2⟩
      exact ⟨(hattributes h2).trans h1, h2⟩
  refine ⟨?_, hids.trans h.baseIds, ?_, h.linked, ?_, ?_⟩
  · rw [hdocs, hdeleted]
    exact h.docs.imp fun doc v hk => ⟨by rw [hmere]; exact hk.value, by rw [hmere]; exact hk.filed⟩
  · intro hne
    have hne' := fun hc => hne (hbelow.mp hc)
    rw [hattributes hne', h.attributes hne']
  · rw [hmere, hdeleted]
    exact h.mere
  · rw [hid, hdocs]
    exact h.written

/-- Views that have to be set are ready to be. -/
theorem ready_of_not_set {viewsComputed enable_views : Bool} {P : Prop}
    (h : viewsComputed = true ∨ enable_views = false ∨ P)
    (hset : ¬ (viewsComputed || !enable_views) = true) : P := by
  rcases h with rfl | rfl | h
  · exact absurd rfl hset
  · exact absurd (Bool.or_true _) hset
  · exact h

/-- **Setting the views** changes no document. -/
theorem setViews_kept : ∀ {chain : List (Container V)} {fulls : List (Full V)},
    Kept json files nextFile chain fulls → ViewsReady enable_views chain →
      ∃ chain', setViews enable_views chain = some chain' ∧ Kept json files nextFile chain' fulls ∧
        (∀ i, layersOf chain' i = layersOf chain i) ∧ ViewsReady enable_views chain'
  | [], _, hkept, _ => ⟨[], rfl, hkept, fun _ => rfl, trivial⟩
  | [cont], fulls, hkept, hready => by
    rcases hkept with - | ⟨level, hrest⟩
    rw [setViews]
    by_cases hset : (cont.viewsComputed || !enable_views) = true
    · rw [if_pos hset]
      exact ⟨_, rfl, .cons level hrest, fun _ => rfl, hready⟩
    · rw [if_neg hset]
      have hvalid : cont.docs.all Document.isValid = true := by
        rw [List.all_eq_true]
        exact ready_of_not_set hready hset
      rw [if_pos hvalid]
      exact ⟨_, rfl, .cons (level.congr Iff.rfl rfl rfl rfl (fun h => absurd rfl h) rfl) hrest,
        fun _ => rfl, Or.inl rfl⟩
  | cont :: base :: below, fulls, hkept, hready => by
    rcases hkept with - | ⟨level, hrest⟩
    rw [setViews]
    by_cases hset : (cont.viewsComputed || !enable_views) = true
    · rw [if_pos hset]
      exact ⟨_, rfl, .cons level hrest, fun _ => rfl, hready⟩
    · rw [if_neg hset]
      have hbelow : ViewsReady enable_views (base :: below) := ready_of_not_set hready hset
      obtain ⟨below', heq, hkept', hlayers, -⟩ := setViews_kept hrest hbelow
      have hids : ((List.range cont.docs.length).all fun i =>
          cont.baseIds[i]?.any fun baseId => baseId < base.docs.length) = true := by
        rw [List.all_eq_true]
        intro i hi
        rcases hrest with - | ⟨levelBase, hrest⟩
        obtain ⟨baseId, hid, hlt⟩ := level.linked _ rfl i
          (by rw [← level.docs.length_eq]; exact List.mem_range.mp hi)
        rw [level.baseIds, hid, Option.any_some, decide_eq_true_eq, levelBase.docs.length_eq]
        exact hlt
      have hne : below' ≠ [] := fun hc => by
        have := hrest.nil_iff.mpr (hkept'.nil_iff.mp hc)
        cases this
      rw [heq, Option.bind_some, if_pos hids]
      refine ⟨_, rfl, .cons (level.congr (iff_of_false (by simp) hne) rfl rfl rfl (fun _ => rfl) rfl)
        hkept', fun i => ?_, ?_⟩
      · rw [layersOf_cons _ hne, layersOf_cons _ (List.cons_ne_nil base below)]
        simp only [hlayers]
      · rcases below' with - | ⟨base', below'⟩
        · exact absurd rfl hne
        · exact Or.inl rfl

/-- The containers below stay where they are not copied. -/
theorem below_of_not_mere (h : ¬ IsMere cont below) :
    (if cont.materializedAttributes = [] then [] else below) = below := by
  by_cases hnil : cont.materializedAttributes = []
  · rw [if_pos hnil]
    by_contra hne
    exact h ⟨hnil, Ne.symm hne⟩
  · rw [if_neg hnil]

/-- The last part of the three functions. -/
theorem settle (enable_views : Bool)
    (hkept : Kept json files nextFile (cont :: below) (full :: fulls))
    (hover : [] ∉ cont.subContainers) (hmere : ¬ IsMere cont below)
    (hready : ViewsReady enable_views below)
    (hwhole : enable_views = true → below = [] → ∀ doc ∈ cont.docs, doc.isValid = true) :
    ∃ chain', (removeViews (cont :: below)).bind (setViews enable_views) = some chain' ∧
      Kept json files nextFile chain' (full :: fulls) ∧
      (∀ i, layersOf chain' i = layersOf (cont :: below) i) ∧ ViewsReady enable_views chain' := by
  rcases hkept with - | ⟨level, hrest⟩
  have hbelow := below_of_not_mere hmere
  have hkept' : Kept json files nextFile ({ cont with viewsComputed := false } :: below)
      (full :: fulls) :=
    .cons (level.congr Iff.rfl rfl rfl rfl (fun _ => rfl) rfl) hrest
  have hready' : ViewsReady enable_views ({ cont with viewsComputed := false } :: below) := by
    rcases below with - | ⟨base, below⟩
    · refine Or.inr ?_
      rcases enable_views with - | -
      · exact Or.inl rfl
      · exact Or.inr (hwhole rfl rfl)
    · exact Or.inr (Or.inr hready)
  obtain ⟨chain', heq, hkept'', hlayers, hready''⟩ := setViews_kept hkept' hready'
  refine ⟨chain', ?_, hkept'', fun i => ?_, hready''⟩
  · rw [removeViews, if_neg hover, hbelow, Option.bind_some, heq]
  · rw [hlayers]
    rcases below with - | ⟨base, below⟩
    · rfl
    · rfl

/-! ### The calls -/

theorem loads_iff : (!cont.deleted || cont.docs.isEmpty) = false ↔ Loads cont := by
  unfold Loads
  rw [Bool.or_eq_false_iff, Bool.not_eq_false', List.isEmpty_eq_false_iff]

/-- Nothing is missing where nothing is loaded. -/
theorem Kept.valid (h : Kept json files nextFile (cont :: below) (full :: fulls))
    (hloads : ¬ Loads cont) {i : ℕ} (hi : i < cont.docs.length) :
    (cont.docs[i]?.bind (·.json)).isSome = true := by
  rcases h with - | ⟨level, -⟩
  have hi' : i < full.docs.length := by rw [← level.docs.length_eq]; exact hi
  rw [List.getElem?_eq_getElem hi, Option.bind_some]
  rcases ((List.forall₂_iff_get.mp level.docs).2 i hi hi').value with hv | ⟨-, hdeleted, -⟩
  · exact Option.isSome_iff_exists.mpr ⟨_, hv⟩
  · exact absurd ⟨hdeleted, List.ne_nil_of_length_pos (by omega)⟩ hloads

/-- A container with the documents that were requested. -/
def reloaded (cont : Container V) (requested : ℕ → Bool) (vs : List V) (deleted : Bool) :
    Container V :=
  { cont with docs := loaded requested 0 cont.docs vs, deleted := deleted }

theorem Kept.load (requested : ℕ → Bool) {deleted : Bool}
    (h : Kept json files nextFile (cont :: below) (full :: fulls))
    (hbelow : Kept json files nextFile below' fulls) (hloads : Loads cont)
    (hdeleted : deleted = true ∨ ∀ i, requested i = true) :
    Kept json files nextFile (reloaded cont requested full.docs deleted :: below')
      (full :: fulls) := by
  rcases h with - | ⟨level, hrest⟩
  have hmere : ¬ IsMere cont below := fun hc => by
    have := level.mere hc
    rw [hloads.1] at this
    cases this
  have hsame : below = [] ↔ below' = [] := hrest.nil_iff.trans hbelow.nil_iff.symm
  have hmere' : ¬ IsMere (reloaded cont requested full.docs deleted) below' := by
    unfold IsMere at hmere ⊢
    rwa [Ne, ← hsame]
  refine .cons ⟨?_, level.baseIds, fun hne => level.attributes fun hc => hne (hsame.mp hc),
    level.linked, fun hc => absurd hc hmere', fun hid doc hdoc => ?_⟩ hbelow
  · have hdocs := level.docs
    rw [hloads.1] at hdocs
    refine (loaded_keeps requested 0 hdocs (hdeleted.imp_right Or.inr)).imp fun doc v hk => ?_
    exact ⟨hk.value.imp_right fun h => ⟨h.1, h.2.1, hmere', h.2.2.2⟩,
      fun interval ho => ⟨(hk.filed interval ho).1, fun _ => (hk.filed interval ho).2 hmere⟩⟩
  · have hdoc : doc ∈ loaded requested 0 cont.docs full.docs := hdoc
    obtain ⟨i, hi, rfl⟩ := List.mem_iff_getElem.mp hdoc
    have hlength := length_loaded requested 0 cont.docs full.docs
    obtain ⟨d, v, hd, -, hget⟩ := loaded_get requested level.docs.length_eq 0 i
      (by rw [← hlength]; exact hi)
    rw [List.getElem?_eq_getElem hi] at hget
    rw [Option.some.inj hget]
    exact level.written hid d (List.mem_of_getElem? hd)

theorem loaded_valid (requested : ℕ → Bool) (h : docs.length = vs.length) {i : ℕ}
    (hi : i < docs.length) (hreq : requested i = true ∨ ∀ doc, docs[i]? = some doc → doc.json ≠ none) :
    ((loaded requested 0 docs vs)[i]?.bind (·.json)).isSome = true := by
  obtain ⟨doc, v, hd, -, hget⟩ := loaded_get requested h 0 i hi
  rw [hget, Option.bind_some, Nat.zero_add]
  by_cases hr : requested i = true
  · rw [if_pos hr]
    rfl
  · rw [if_neg hr]
    exact Option.isSome_iff_ne_none.mpr ((hreq.resolve_left hr) doc hd)

/-- What a call leaves: the documents are still kept, and those asked for are there. -/
def Brings (json : Json V) (enable_views : Bool) (files : ℕ → Str) (nextFile : ℕ)
    (chain chain' : List (Container V)) (fulls : List (Full V)) (requested : ℕ → Prop) : Prop :=
  Kept json files nextFile chain' fulls ∧
    (∀ full ∈ fulls.head?, ∀ i, i < full.docs.length → requested i → Present chain' i) ∧
    (∀ cont ∈ chain.head?, (¬ Loads cont → ViewsReady enable_views chain) →
      ViewsReady enable_views chain')

theorem Kept.not_mere (h : Kept json files nextFile (cont :: below) fulls) (hloads : Loads cont) :
    ¬ IsMere cont below := by
  rcases h with - | ⟨level, -⟩
  intro hc
  have := level.mere hc
  rw [hloads.1] at this
  cases this

/-- Where nothing is loaded nothing changes. -/
theorem Kept.brings {requested : ℕ → Prop}
    (h : Kept json files nextFile (cont :: below) (full :: fulls)) (hloads : ¬ Loads cont)
    (hbase : ∀ i, requested i → i < cont.docs.length → BasePresent cont below i) :
    Brings json enable_views files nextFile (cont :: below) (cont :: below) (full :: fulls)
      requested := by
  refine ⟨h, fun f hf i hi hr => ?_, fun c hc hready => ?_⟩
  · obtain rfl : full = f := Option.some.inj hf
    rw [← h.length] at hi
    exact present_cons (h.valid hloads hi) (hbase i hr hi)
  · obtain rfl : cont = c := Option.some.inj hc
    exact hready hloads

/-- What the three functions do in the end, with what they loaded over what is below. -/
theorem Kept.finish (enable_views : Bool) (requested : ℕ → Bool) (deleted : Bool)
    (h : Kept json files nextFile (cont :: below) (full :: fulls))
    (hbelow : Kept json files nextFile below' fulls) (hloads : Loads cont)
    (hdeleted : deleted = true ∨ ∀ i, requested i = true) (hover : [] ∉ cont.subContainers)
    (hready : ViewsReady enable_views below') (hwhole : Whole enable_views requested cont below)
    (hbase : ∀ i, requested i = true → i < cont.docs.length → BasePresent cont below' i) :
    ∃ chain', (removeViews (reloaded cont requested full.docs deleted :: below')).bind
        (setViews enable_views) = some chain' ∧
      Brings json enable_views files nextFile (cont :: below) chain' (full :: fulls)
        (fun i => requested i = true) := by
  have hlength := h.length
  have hkept := h.load requested hbelow hloads hdeleted
  have hmere := h.not_mere hloads
  have hsame : below = [] ↔ below' = [] := by
    rcases h with - | ⟨-, hrest⟩
    exact hrest.nil_iff.trans hbelow.nil_iff.symm
  obtain ⟨chain', heq, hkept', hlayers, hready'⟩ := settle enable_views hkept hover
    (fun hc => hmere ⟨hc.1, fun hn => hc.2 (hsame.mp hn)⟩) hready (fun hviews hnil doc hdoc => by
      have hdoc : doc ∈ loaded requested 0 cont.docs full.docs := hdoc
      obtain ⟨i, hi, rfl⟩ := List.mem_iff_getElem.mp hdoc
      have hi' : i < cont.docs.length := by
        rw [← length_loaded requested 0 cont.docs full.docs]
        exact hi
      have hvalid := loaded_valid requested hlength hi' (by
        by_cases hr : requested i = true
        · exact Or.inl hr
        · exact Or.inr fun doc hd hnone => hr (hwhole hviews (hsame.mpr hnil) i doc hd hnone))
      rw [List.getElem?_eq_getElem hi, Option.bind_some] at hvalid
      exact hvalid)
  refine ⟨chain', heq, hkept', fun f hf i hi hr => ?_, fun _ _ _ => hready'⟩
  obtain rfl : full = f := Option.some.inj hf
  unfold Present
  rw [hlayers]
  rw [← hlength] at hi
  exact present_cons (loaded_valid requested hlength hi (Or.inl hr)) (hbase i hr hi)

/-- **`reparse`** -/
theorem reparse_brings (h : Kept json files nextFile chain fulls)
    (hmeets : MeetsReparse json enable_views files chain) :
    ∃ chain', reparse json enable_views files chain = some chain' ∧
      Brings json enable_views files nextFile chain chain' fulls (fun _ => True) := by
  rcases h with - | @⟨cont, below, full, fulls, level, hrest⟩
  · exact ⟨[], rfl, .nil, by simp, by simp⟩
  · have hkept := Kept.cons level hrest
    obtain ⟨hfine, hbase⟩ := hmeets
    rw [reparse]
    by_cases hloads : Loads cont
    · obtain ⟨hover, hlaid, hready⟩ := hfine hloads
      have hload : load json files (fun _ => true) (fun _ doc => some doc.isValid) cont.docs =
          some (loaded (fun _ => true) 0 cont.docs full.docs) :=
        load_spec (fun _ => True) (fun i doc _ => by simp) (fun _ _ _ _ => trivial)
          (hkept.not_mere hloads) level.docs (Or.inr fun _ _ => trivial) hlaid
      obtain ⟨chain', heq, hbrings⟩ := hkept.finish enable_views (fun _ => true) false hrest
        hloads (Or.inr fun _ => rfl) hover hready (fun _ _ _ _ _ _ => rfl)
        (fun i _ hi => hbase i hi)
      rw [if_neg (by rw [loads_iff.mpr hloads]; simp), hload, Option.bind_some]
      refine ⟨chain', heq, hbrings.1, fun f hf i hi _ => hbrings.2.1 f hf i hi rfl, hbrings.2.2⟩
    · rw [if_pos (by rwa [← Bool.not_eq_false, loads_iff])]
      exact ⟨_, rfl, hkept.brings hloads fun i _ hi => hbase i hi⟩

/-- The base of a document that is asked for. -/
theorem Level.base (h : Level json files nextFile cont below full (fullBase :: fulls)) {i : ℕ}
    (hi : i < cont.docs.length) :
    ∃ baseId, cont.baseIds[i]? = some baseId ∧ baseId < fullBase.docs.length := by
  rw [h.docs.length_eq] at hi
  rw [h.baseIds]
  exact h.linked fullBase rfl i hi

theorem reparseSubset_stops (index : DocIndex) (h : ¬ Loads cont) :
    reparseSubset json enable_views files index (cont :: below) = some (cont :: below) := by
  have hstop : (!cont.deleted || cont.docs.isEmpty) = true := by
    rwa [← Bool.not_eq_false, loads_iff]
  rw [reparseSubset, if_pos hstop]

/-- **`reparseSubset`** of a selection. -/
theorem reparseSubset_brings : ∀ {chain : List (Container V)} {fulls : List (Full V)}
    {index : DocIndex}, Kept json files nextFile chain fulls →
      MeetsSubset json enable_views files index chain →
      ∃ chain', reparseSubset json enable_views files index chain = some chain' ∧
        Brings json enable_views files nextFile chain chain' fulls (fun i => i ∈ index)
  | [], fulls, index, h, _ => by
    rcases h with - | -
    exact ⟨[], rfl, .nil, by simp, by simp⟩
  | cont :: below, [], index, h, _ => by cases h
  | cont :: below, full :: fulls, index, h, hmeets => by
    obtain ⟨hfine, hbase⟩ := hmeets
    have hkept := h
    rcases h with - | ⟨level, hrest⟩
    by_cases hloads : Loads cont
    · obtain ⟨hover, hlaid, hwhole, hnext⟩ := hfine hloads
      have hgo : ¬ (!cont.deleted || cont.docs.isEmpty) = true := by
        rw [loads_iff.mpr hloads]
        simp
      have hload : load json files (fun i => i ∈ index) (fun i doc => some (doc.isValid || i ∉ index))
          cont.docs = some (loaded (fun i => i ∈ index) 0 cont.docs full.docs) :=
        load_spec (fun _ => True) (fun i doc _ => by simp) (fun _ _ _ _ => trivial)
          (hkept.not_mere hloads) level.docs (Or.inr fun _ _ => trivial) hlaid
      -- what is below has the base documents, and its views are ready
      have hlow : ∃ below', (below.head?.elim (some []) fun base =>
            (baseIndex cont base.docs.length index).bind fun index =>
              reparseSubset json enable_views files index below) = some below' ∧
          Kept json files nextFile below' fulls ∧ ViewsReady enable_views below' ∧
          ∀ i, i ∈ index → i < cont.docs.length → BasePresent cont below' i := by
        rcases below with - | ⟨base, below⟩
        · rcases hrest with - | -
          exact ⟨[], rfl, .nil, trivial, fun _ _ _ hne => absurd rfl hne⟩
        · rcases fulls with - | ⟨fullBase, fulls⟩
          · cases hrest
          · obtain ⟨hmeets', hready⟩ := hnext base rfl
            obtain ⟨below', heq, hkept', hpresent, hready'⟩ := reparseSubset_brings hrest hmeets'
            have hindex : ((List.range cont.docs.length).all fun i =>
                i ∉ index || cont.baseIds[i]?.any fun baseId => baseId < base.docs.length) = true := by
              rw [List.all_eq_true]
              intro i hi
              obtain ⟨baseId, hid, hlt⟩ := level.base (List.mem_range.mp hi)
              rw [hid, Option.any_some, hrest.length, decide_eq_true hlt, Bool.or_true]
            refine ⟨below', ?_, hkept', hready' base rfl hready, fun i hr hi _ => ?_⟩
            · show (baseIndex cont base.docs.length index).bind _ = _
              rw [baseIndex, if_pos hindex, Option.bind_some]
              exact heq
            · obtain ⟨baseId, hid, hlt⟩ := level.base hi
              refine ⟨baseId, hid, hpresent fullBase rfl baseId hlt ?_⟩
              refine Finset.mem_image.mpr ⟨i, Finset.mem_filter.mpr ⟨hr, hi⟩, ?_⟩
              rw [List.getD_eq_getElem?_getD, hid, Option.getD_some]
      obtain ⟨below', heq, hkept', hready, hpresent⟩ := hlow
      obtain ⟨chain', hfinish, hbrings⟩ := hkept.finish enable_views (fun i => i ∈ index) cont.deleted
        hkept' hloads (Or.inl hloads.1) hover hready hwhole
        (fun i hr hi => hpresent i (by simpa using hr) hi)
      refine ⟨chain', ?_, hbrings.1, fun f hf i hi hr => hbrings.2.1 f hf i hi (by simpa using hr),
        hbrings.2.2⟩
      rw [reparseSubset, if_neg hgo, heq, Option.bind_some, hload, Option.bind_some]
      exact hfinish
    · rw [reparseSubset_stops index hloads]
      exact ⟨_, rfl, hkept.brings hloads fun i hr hi => hbase hloads i hr hi⟩

theorem reparseRange_stops (start stop : ℕ) (h : ¬ Loads cont) :
    reparseRange json enable_views files start stop (cont :: below) = some (cont :: below) := by
  have hstop : (!cont.deleted || cont.docs.isEmpty) = true := by
    rwa [← Bool.not_eq_false, loads_iff]
  rw [reparseRange, if_pos hstop]

/-- **`reparseSubset`** of a range. -/
theorem reparseRange_brings : ∀ {chain : List (Container V)} {fulls : List (Full V)}
    {start stop : ℕ}, Kept json files nextFile chain fulls →
      MeetsRange json enable_views files start stop chain →
      ∃ chain', reparseRange json enable_views files start stop chain = some chain' ∧
        Brings json enable_views files nextFile chain chain' fulls (fun i => start ≤ i ∧ i ≤ stop)
  | [], fulls, start, stop, h, _ => by
    rcases h with - | -
    exact ⟨[], rfl, .nil, by simp, by simp⟩
  | cont :: below, [], start, stop, h, _ => by cases h
  | cont :: below, full :: fulls, start, stop, h, hmeets => by
    obtain ⟨hfine, hbase⟩ := hmeets
    have hkept := h
    rcases h with - | ⟨level, hrest⟩
    by_cases hloads : Loads cont
    · obtain ⟨rfl, hover, hlaid, hsome, hwhole, hnext⟩ := hfine hloads
      have hgo : ¬ (!cont.deleted || cont.docs.isEmpty) = true := by
        rw [loads_iff.mpr hloads]
        simp
      have hpos := List.length_pos_of_ne_nil hloads.2
      set last := min (cont.docs.length - 1) stop with hlast
      -- `parsed` has a place for each document up to the last one of the range
      have hload : load json files (fun i => decide (0 ≤ i) && decide (i ≤ last))
          (fun i doc => if i < 1 + (last - 0) then
            some (doc.isValid && (decide (0 ≤ i) && decide (i ≤ last))) else none) cont.docs =
          some (loaded (fun i => decide (0 ≤ i) && decide (i ≤ last)) 0 cont.docs full.docs) := by
        refine load_spec (fun i => i ≤ last) (fun i doc hi => ?_) (fun i k hik hk => ?_)
          (hkept.not_mere hloads) level.docs (hsome.imp_right fun h j hj => ?_) hlaid
        · rw [if_pos (by omega)]
          simp [hi]
        · have hk : k ≤ last := by simpa using hk
          omega
        · omega
      have hparsed : ¬ (cont.docs.zipIdx.any fun d => d.1.isValid &&
          (decide (0 ≤ d.2) && decide (d.2 ≤ last) && decide (1 + (last - 0) ≤ d.2))) = true := by
        rw [List.any_eq_true]
        rintro ⟨d, -, hd⟩
        simp only [Bool.and_eq_true, decide_eq_true_eq] at hd
        omega
      -- what is below has the base documents, and its views are ready
      have hlow : ∃ below', (if below.isEmpty then some below
            else (cont.baseIds[0]?).bind fun minBase => (cont.baseIds[last]?).bind fun maxBase =>
              reparseRange json enable_views files minBase maxBase below) = some below' ∧
          Kept json files nextFile below' fulls ∧ ViewsReady enable_views below' ∧
          ∀ i, i ≤ last → i < cont.docs.length → BasePresent cont below' i := by
        rcases below with - | ⟨base, below⟩
        · rcases hrest with - | -
          exact ⟨[], rfl, .nil, trivial, fun _ _ _ hne => absurd rfl hne⟩
        · rcases fulls with - | ⟨fullBase, fulls⟩
          · cases hrest
          · obtain ⟨minBase, hmin, -⟩ := level.base hpos
            obtain ⟨maxBase, hmax, -⟩ := level.base (show last < cont.docs.length by omega)
            obtain ⟨hmeets', hbetween, hthere⟩ := hnext base rfl minBase maxBase hmin hmax
            obtain ⟨below', heq, hkept', hpresent, hready'⟩ := reparseRange_brings hrest hmeets'
            refine ⟨below', ?_, hkept', hready' base rfl fun hn => (hthere hn).1, fun i hr hi => ?_⟩
            · rw [hmin, hmax, Option.bind_some, Option.bind_some]
              exact heq
            · by_cases hb : Loads base
              · intro _
                obtain ⟨baseId, hid, hlt⟩ := level.base hi
                exact ⟨baseId, hid, hpresent fullBase rfl baseId hlt (hbetween hb i baseId hr hid)⟩
              · rw [reparseRange_stops minBase maxBase hb] at heq
                obtain rfl := Option.some.inj heq
                exact (hthere hb).2 i hr hi
      obtain ⟨below', heq, hkept', hready, hpresent⟩ := hlow
      obtain ⟨chain', hfinish, hbrings⟩ := hkept.finish enable_views
        (fun i => decide (0 ≤ i) && decide (i ≤ last)) cont.deleted hkept' hloads (Or.inl hloads.1)
        hover hready hwhole (fun i hr hi => hpresent i (by simpa using hr) hi)
      refine ⟨chain', ?_, hbrings.1, fun f hf i hi hr => hbrings.2.1 f hf i hi ?_, hbrings.2.2⟩
      · rw [reparseRange, if_neg hgo]
        dsimp only
        rw [← hlast, if_neg (Nat.not_lt_zero last), heq, Option.bind_some, if_neg hparsed, hload,
          Option.bind_some]
        exact hfinish
      · obtain rfl : full = f := Option.some.inj hf
        have hlength := hkept.length
        simp only [Bool.and_eq_true, decide_eq_true_eq]
        omega
    · rw [reparseRange_stops start stop hloads]
      exact ⟨_, rfl, hkept.brings hloads fun i hr hi => hbase hloads i hr.1 hr.2 hi⟩

/-! ### Eviction -/

theorem Kept.mono {files' : ℕ → Str} {nextFile' : ℕ} (h : Kept json files nextFile chain fulls)
    (hfiles : ∀ file, file < nextFile → files' file = files file) (hle : nextFile ≤ nextFile') :
    Kept json files' nextFile' chain fulls := by
  induction h with
  | nil => exact .nil
  | cons level _ ih =>
    refine .cons ⟨level.docs.imp fun doc v hk => ⟨hk.value, fun interval ho => ?_⟩, level.baseIds,
      level.attributes, level.linked, level.mere, level.written⟩ ih
    have hfiled := hk.filed interval ho
    exact ⟨by omega, fun hm => (hfiled.2 hm).congr (hfiles _ hfiled.1)⟩

theorem serialize_prefix (json : Json V) (file : ℕ) (text : Str) (docs : List (Document V)) :
    text <+: (serialize json file text docs).1 := by
  induction docs generalizing text with
  | nil => exact List.prefix_rfl
  | cons doc docs ih =>
    obtain ⟨j, origin⟩ := doc
    rcases j with - | v
    · exact ih text
    · rcases origin with - | interval
      · refine List.IsPrefix.trans ?_ (ih (text ++ json.write v ++ [newline]))
        rw [List.append_assoc]
        exact List.prefix_append _ _
      · exact ih text

/-- **What is evicted is in a file.** -/
theorem serialize_keeps {files' : ℕ → Str} (hmere : ¬ mere)
    (h : List.Forall₂ (Keeps json files nextFile mere false) docs vs)
    (hfiles : ∀ file, file < nextFile → files' file = files file) (text : Str)
    (hfile : files' nextFile = (serialize json nextFile text docs).1) :
    List.Forall₂ (Keeps json files' (nextFile + 1) mere true)
      ((serialize json nextFile text docs).2.map Document.removeDoc) vs := by
  induction h generalizing text with
  | nil => exact .nil
  | @cons doc v docs vs hdoc _ ih =>
    obtain ⟨j, origin⟩ := doc
    rcases hdoc.value with hv | ⟨-, hdeleted, -⟩
    · obtain rfl : j = some v := hv
      rcases origin with - | interval
      · refine .cons ⟨Or.inr ⟨rfl, rfl, hmere, by simp [Document.removeDoc]⟩, fun interval ho => ?_⟩
          (ih _ hfile)
        obtain rfl := Origin.file.inj ho
        refine ⟨Nat.lt_succ_self nextFile, fun _ => holds_written ?_⟩
        rw [hfile]
        exact serialize_prefix json nextFile _ docs
      · refine .cons ⟨Or.inr ⟨rfl, rfl, hmere, by simp [Document.removeDoc]⟩, fun interval' ho => ?_⟩
          (ih _ hfile)
        have hfiled := hdoc.filed interval' ho
        exact ⟨by omega, fun hm => (hfiled.2 hm).congr (hfiles _ hfiled.1)⟩
    · cases hdeleted

/-- Documents of files need not be written. -/
theorem removed_keeps (hmere : ¬ mere) (h : List.Forall₂ (Keeps json files nextFile mere false) docs vs)
    (hall : docs.all (fun doc => doc.origin.isReparsable) = true) :
    List.Forall₂ (Keeps json files nextFile mere true) (docs.map Document.removeDoc) vs := by
  induction h with
  | nil => exact .nil
  | @cons doc v docs vs hdoc _ ih =>
    rw [List.all_cons, Bool.and_eq_true] at hall
    refine .cons ⟨Or.inr ⟨rfl, rfl, hmere, fun hc => ?_⟩, hdoc.filed⟩ (ih hall.2)
    have hc : doc.origin = .temporary := hc
    rw [hc] at hall
    exact absurd hall.1 (by simp [Origin.isReparsable])

/-- Every document has all its layers. -/
theorem fullLayers_isSome_iff : ∀ {chain : List (Container V)} {full : Full V}
    {fulls : List (Full V)} {i : ℕ}, Kept json files nextFile chain (full :: fulls) →
      ((fullLayers (full :: fulls) i).isSome = true ↔ i < full.docs.length)
  | _, full, [], i, _ => by simp [fullLayers]
  | [], _, _ :: _, _, h => by cases h
  | cont :: below, full, fullBase :: fulls, i, h => by
    rcases h with - | ⟨level, hrest⟩
    rw [fullLayers]
    constructor
    · intro hsome
      by_contra hi
      rw [List.getElem?_eq_none (Nat.le_of_not_lt hi)] at hsome
      cases hsome
    · intro hi
      obtain ⟨baseId, hid, hlt⟩ := level.linked fullBase rfl i hi
      rw [List.getElem?_eq_getElem hi, Option.bind_some, hid, Option.bind_some, Option.isSome_map]
      exact (fullLayers_isSome_iff hrest).mpr hlt

theorem Kept.length_was (h : Kept json files nextFile chain (full :: fulls))
    (hwas : ∀ i, fullAt shown (full :: fulls) i = was[i]?) : was.length = full.docs.length := by
  have hiff : ∀ i, i < was.length ↔ i < full.docs.length := by
    intro i
    have hsame : (fullAt shown (full :: fulls) i).isSome =
        (fullLayers (full :: fulls) i).isSome := by
      rcases fulls with - | ⟨fullBase, fulls⟩
      · rw [fullAt, fullLayers, Option.isSome_map]
      · exact Option.isSome_map
    rw [← fullLayers_isSome_iff h, ← hsame, hwas]
    simp
  have h1 := hiff was.length
  have h2 := hiff full.docs.length
  omega

/-- A container without its documents. -/
def evicted (cont : Container V) (docs : List (Document V)) (id : Option ℕ) : Container V :=
  { cont with docs := docs, id := id, deleted := true, viewsComputed := false }

/-- A container that is evicted stays over the ones below, unless it only selects. -/
theorem removeViews_kept {files' : ℕ → Str} {nextFile' : ℕ}
    (level : Level json files nextFile cont below full fulls)
    (hrest : Kept json files' nextFile' below fulls) (hmere : ¬ IsMere cont below)
    (hover : [] ∉ cont.subContainers) {docs : List (Document V)} (id : Option ℕ)
    (hdocs : List.Forall₂ (Keeps json files' nextFile' (IsMere cont below) true) docs full.docs)
    (hwritten : id.isSome = true → ∀ doc ∈ docs, doc.origin ≠ .temporary) :
    removeViews ({ cont with docs := docs, id := id, deleted := true } :: below) =
        some (evicted cont docs id :: below) ∧
      Kept json files' nextFile' (evicted cont docs id :: below) (full :: fulls) := by
  refine ⟨?_, .cons ⟨hdocs, level.baseIds, level.attributes, level.linked,
    fun hc => absurd hc hmere, hwritten⟩ hrest⟩
  have hbelow := below_of_not_mere hmere
  rw [removeViews, if_neg hover]
  exact congrArg (fun below => some (evicted cont docs id :: below)) hbelow

theorem removed_origin {docs : List (Document V)} {doc : Document V}
    (h : doc ∈ docs.map Document.removeDoc) : ∃ d ∈ docs, d.origin = doc.origin := by
  obtain ⟨d, hd, rfl⟩ := List.mem_map.mp h
  exact ⟨d, hd, rfl⟩

/-- **A view that only selects** has from then on the documents of the files. -/
theorem evicted_mere (level : Level json files nextFile cont below full fulls)
    (hlength : was.length = full.docs.length)
    (hfiled : ∀ (i : ℕ) (doc : Document V) (v : V), cont.docs[i]? = some doc → was[i]? = some v →
      ∃ interval, doc.origin = .file interval ∧ Holds json.toRapidJson files interval v) :
    cont.docs.all (fun doc => doc.origin.isReparsable) = true ∧
      Kept json files nextFile [evicted cont (cont.docs.map Document.removeDoc) cont.id]
        [⟨was, cont.baseIds, []⟩] := by
  have hdocs := level.docs
  have hlength' : cont.docs.length = was.length := hdocs.length_eq.trans hlength.symm
  have hfile : ∀ i (hi : i < cont.docs.length) (hi' : i < was.length), ∃ interval,
      cont.docs[i].origin = .file interval ∧ Holds json.toRapidJson files interval was[i] :=
    fun i hi hi' => hfiled i _ _ (List.getElem?_eq_getElem hi) (List.getElem?_eq_getElem hi')
  refine ⟨?_, .cons ⟨?_, rfl, fun hne => absurd rfl hne, by simp, fun hc => absurd rfl hc.2, ?_⟩ .nil⟩
  · rw [List.all_eq_true]
    intro doc hdoc
    obtain ⟨i, hi, rfl⟩ := List.mem_iff_getElem.mp hdoc
    obtain ⟨interval, ho, -⟩ := hfile i hi (by omega)
    rw [ho]
    rfl
  · have hmap : (cont.docs.map Document.removeDoc).length = was.length := by
      rw [List.length_map, hlength']
    refine List.forall₂_iff_get.mpr ⟨hmap, fun i hi hi' => ?_⟩
    have hi' : i < was.length := hi'
    have hi : i < cont.docs.length := by omega
    obtain ⟨interval, ho, hholds⟩ := hfile i hi hi'
    have hkeeps := (List.forall₂_iff_get.mp hdocs).2 i hi (by omega)
    have hget : (cont.docs.map Document.removeDoc)[i] = (cont.docs[i]).removeDoc := List.getElem_map _
    refine ⟨Or.inr ⟨?_, rfl, fun hc => absurd rfl hc.2, ?_⟩, fun interval' ho' => ?_⟩
    · exact congrArg Document.json hget
    · intro hc
      have hc : (cont.docs.map Document.removeDoc)[i].origin = .temporary := hc
      rw [hget] at hc
      exact absurd (ho.symm.trans hc) (by simp)
    · have ho' : (cont.docs.map Document.removeDoc)[i].origin = .file interval' := ho'
      rw [hget] at ho'
      obtain rfl := Origin.file.inj (ho.symm.trans ho')
      exact ⟨(hkeeps.filed interval ho).1, fun _ => hholds⟩
  · intro hid doc hdoc
    obtain ⟨d, hd, ho⟩ := removed_origin hdoc
    rw [← ho]
    exact level.written hid d hd

/-- **`removeDocuments`** -/
theorem removeDocuments_stored {m : Memory V} (h : Stored json shown was m)
    (hmeets : MeetsRemove json m.files was m.chain) :
    ∃ m', removeDocuments json m = some m' ∧ Stored json shown was m' := by
  obtain ⟨fulls, hkept, hwas⟩ := h
  obtain ⟨files, nextFile, chain⟩ := m
  dsimp only at hkept hmeets
  have hstored := hkept
  rcases hkept with - | @⟨cont, below, full, fulls, level, hrest⟩
  · exact ⟨_, rfl, _, hstored, hwas⟩
  · have hlength := hstored.length_was hwas
    by_cases hdeleted : cont.deleted = true
    · refine ⟨⟨files, nextFile, cont :: below⟩, ?_, _, hstored, hwas⟩
      simp only [removeDocuments, hdeleted, if_true]
    · have hdeleted : cont.deleted = false := by simpa using hdeleted
      obtain ⟨hover, hfiled⟩ := hmeets hdeleted
      have hdocs := level.docs
      rw [hdeleted] at hdocs
      by_cases hmere : IsMere cont below
      · obtain ⟨hall, hkept'⟩ := evicted_mere level hlength (hfiled hmere)
        refine ⟨⟨files, nextFile, _⟩, ?_, _, hkept', fun i => rfl⟩
        simp only [removeDocuments, hdeleted, Bool.false_eq_true, if_false, hall, if_true]
        rw [removeViews, if_neg hover, if_pos hmere.1]
        rfl
      · by_cases hall : cont.docs.all (fun doc => doc.origin.isReparsable) = true
        · obtain ⟨heq, hkept'⟩ := removeViews_kept level hrest hmere hover cont.id
            (removed_keeps hmere hdocs hall) fun hid doc hdoc => by
              obtain ⟨d, hd, ho⟩ := removed_origin hdoc
              rw [← ho]
              exact level.written hid d hd
          refine ⟨⟨files, nextFile, _⟩, ?_, _, hkept', hwas⟩
          simp only [removeDocuments, hdeleted, Bool.false_eq_true, if_false, hall, if_true]
          exact congrArg (Option.map _) heq
        · have hid : cont.id = none := by
            by_contra hid
            have hwritten := level.written (Option.isSome_iff_ne_none.mpr hid)
            refine hall (List.all_eq_true.mpr fun doc hdoc => ?_)
            rcases ho : doc.origin with - | interval
            · exact absurd ho (hwritten doc hdoc)
            · rfl
          set r := serialize json nextFile [] cont.docs with hr
          have hfiles : ∀ file, file < nextFile → Function.update files nextFile r.1 file = files file :=
            fun file hlt => Function.update_of_ne (by omega) _ _
          have hkeeps := serialize_keeps hmere hdocs hfiles []
            (by rw [Function.update_self, hr])
          obtain ⟨heq, hkept'⟩ := removeViews_kept level
            (hrest.mono hfiles (Nat.le_succ nextFile)) hmere hover (some nextFile) hkeeps fun _ doc hdoc => by
              obtain ⟨i, hi, rfl⟩ := List.mem_iff_getElem.mp hdoc
              have hi' := hi
              rw [hkeeps.length_eq] at hi'
              rcases ((List.forall₂_iff_get.mp hkeeps).2 i hi hi').value with hv | ⟨-, -, -, ho⟩
              · obtain ⟨d, -, hd⟩ := List.mem_map.mp hdoc
                have hnone : (r.2.map Document.removeDoc)[i].json = none := by
                  rw [← hd]
                  rfl
                exact absurd (hnone.symm.trans hv) (by simp)
              · exact ho
          refine ⟨⟨Function.update files nextFile r.1, nextFile + 1, _⟩, ?_, _, hkept', hwas⟩
          simp only [removeDocuments, hdeleted, Bool.false_eq_true, if_false, hall, serializeMissing, hid]
          exact congrArg (Option.map _) heq

/-! ### Runs -/

/-- **A call that meets its condition is right**, and the documents are kept. -/
theorem step_right {m : Memory V} (h : Stored json shown was m) {call : Call}
    (hmeets : Meets json enable_views was m call) :
    ∃ m', step json enable_views m call = some m' ∧ Restores shown was call m' ∧
      Stored json shown was m' := by
  have hload : ∀ {chain' : List (Container V)} {fulls : List (Full V)},
      (∀ i, fullAt shown fulls i = was[i]?) →
      Brings json enable_views m.files m.nextFile m.chain chain' fulls call.Requests →
        Restores shown was call { m with chain := chain' } ∧
          Stored json shown was { m with chain := chain' } := by
    intro chain' fulls hwas hbrings
    obtain ⟨hkept, hpresent, -⟩ := hbrings
    refine ⟨Kept.restores (m := { m with chain := chain' }) hkept hwas fun i hi hr => ?_,
      fulls, hkept, hwas⟩
    rcases fulls with - | ⟨full, fulls⟩
    · have hnone := hwas i
      rw [List.getElem?_eq_getElem hi] at hnone
      cases hnone
    · exact hpresent full rfl i (by rwa [← hkept.length_was hwas]) hr
  rcases call with - | - | ⟨start, stop⟩ | index
  · obtain ⟨m', heq, hstored⟩ := removeDocuments_stored h hmeets
    refine ⟨m', heq, ?_, hstored⟩
    obtain ⟨fulls, hkept, hwas⟩ := hstored
    exact hkept.restores hwas fun i _ hr => hr.elim
  · obtain ⟨fulls, hkept, hwas⟩ := h
    obtain ⟨chain', heq, hbrings⟩ := reparse_brings hkept hmeets
    exact ⟨_, by rw [step, heq]; rfl, hload hwas hbrings⟩
  · obtain ⟨fulls, hkept, hwas⟩ := h
    obtain ⟨chain', heq, hbrings⟩ := reparseRange_brings hkept hmeets
    exact ⟨_, by rw [step, heq]; rfl, hload hwas hbrings⟩
  · obtain ⟨fulls, hkept, hwas⟩ := h
    obtain ⟨chain', heq, hbrings⟩ := reparseSubset_brings hkept hmeets
    exact ⟨_, by rw [step, heq]; rfl, hload hwas hbrings⟩

/-- **In every run whose calls meet their conditions each call is right**, and so is the next one. -/
theorem calls_restore (json : Json V) (enable_views : Bool) (shown : List (List Str × V) → V)
    (was : List V) {past : List (Memory V × Call)} {m : Memory V}
    (h : Run (Stored json shown was) (fun call m m' => step json enable_views m call = some m') past m)
    (hmeets : ∀ p ∈ past, Meets json enable_views was p.1 p.2) :
    (∀ p ∈ past, Right json enable_views shown was p.1 p.2) ∧
      ∀ call, Meets json enable_views was m call → Right json enable_views shown was m call := by
  have hright : ∀ m call, Stored json shown was m → Meets json enable_views was m call →
      Right json enable_views shown was m call := by
    intro m call hs hm
    obtain ⟨m', heq, hrestores, -⟩ := step_right hs hm
    exact ⟨m', heq, hrestores⟩
  obtain ⟨hstored, hpast⟩ := h.invariant (Stored json shown was)
    (fun m call => Meets json enable_views was m call) (fun _ h => h)
    (fun call m m' hs hm hstep => by
      obtain ⟨m'', heq, -, hs'⟩ := step_right hs hm
      have hsame : m'' = m' := Option.some.inj (heq.symm.trans hstep)
      exact hsame ▸ hs') hmeets
  exact ⟨fun p hp => hright p.1 p.2 (hpast p hp) (hmeets p hp), fun call => hright m call hstored⟩

/-! ### A range that starts with the second document -/

/-- The reading of the empty array and the empty object. -/
def readBrackets (s : Str) : Outcome Bool :=
  match s.dropWhile isWhitespace with
  | [] => .empty []
  | c :: t =>
    if c = 123 ∧ t.head? = some 125 then .document true t.tail
    else if c = 91 ∧ t.head? = some 93 then .document false t.tail
    else .error (c :: t)

theorem readBrackets_suffix (s : Str) : (readBrackets s).rest <:+ s := by
  have hdrop : s.dropWhile isWhitespace <:+ s := List.dropWhile_suffix _
  unfold readBrackets
  split
  · exact List.nil_suffix
  · rename_i c t hs
    rw [hs] at hdrop
    have htail := ((List.tail_suffix t).trans (List.suffix_cons c t)).trans hdrop
    split_ifs
    · exact htail
    · exact htail
    · exact hdrop

theorem readBrackets_consumes (s : Str) (doc : Bool) (rest : Str)
    (h : readBrackets s = .document doc rest) : rest.length < s.length := by
  have hdrop : s.dropWhile isWhitespace <:+ s := List.dropWhile_suffix _
  unfold readBrackets at h
  split at h
  · cases h
  · rename_i c t hs
    rw [hs] at hdrop
    have hle := hdrop.length_le
    have htail := (List.tail_suffix t).length_le
    rw [List.length_cons] at hle
    split_ifs at h
    · obtain ⟨-, rfl⟩ := Outcome.document.inj h
      omega
    · obtain ⟨-, rfl⟩ := Outcome.document.inj h
      omega

theorem readBrackets_blank (s : Str) :
    (∃ rest, readBrackets s = .empty rest) ↔ ∀ c ∈ s, isWhitespace c = true := by
  rw [← List.dropWhile_eq_nil_iff]
  unfold readBrackets
  split
  · rename_i hs
    exact ⟨fun _ => hs, fun _ => ⟨[], rfl⟩⟩
  · rename_i c t hs
    rw [hs]
    constructor
    · rintro ⟨rest, h⟩
      split_ifs at h
    · exact fun h => by cases h

theorem readBrackets_skips (c : UInt8) (s : Str) (h : isWhitespace c = true) :
    readBrackets (c :: s) = readBrackets s := by
  unfold readBrackets
  rw [List.dropWhile_cons_of_pos h]

theorem readBrackets_written (v : Bool) (s : Str) :
    readBrackets ((if v then [123, 125] else [91, 93]) ++ newline :: s) = .document v (newline :: s) := by
  rcases v with - | -
  · rfl
  · rfl

/-- A parser of which the documents are the empty array and the empty object. -/
def brackets : Json Bool where
  parseStream := readBrackets
  suffix := readBrackets_suffix
  consumes := readBrackets_consumes
  blank := readBrackets_blank
  write v := if v then [123, 125] else [91, 93]
  skips := readBrackets_skips
  written := readBrackets_written

/-- A file of two documents. -/
def twoFiles (file : ℕ) : Str := if file = 0 then [91, 93, 10, 123, 125, 10] else []

def lineOf (v : Bool) : ParseInterval := if v then ⟨0, 3, 6⟩ else ⟨0, 0, 3⟩

def twoLines (json : Bool → Option Bool) (deleted : Bool) : Memory Bool where
  files := twoFiles
  nextFile := 1
  chain := [{
    docs := [⟨json false, .file (lineOf false)⟩, ⟨json true, .file (lineOf true)⟩]
    baseIds := []
    materializedAttributes := []
    subContainers := []
    id := none
    deleted := deleted
    viewsComputed := false }]

theorem lineOf_holds (v : Bool) : Holds brackets.toRapidJson twoFiles (lineOf v) v := by
  rcases v with - | -
  · exact ⟨⟨_, rfl⟩, by decide, by decide, List.all_eq_true.mp (by decide)⟩
  · exact ⟨⟨_, rfl⟩, by decide, by decide, List.all_eq_true.mp (by decide)⟩

theorem twoLines_stored {loaded : Bool → Option Bool} {deleted : Bool}
    (h : ∀ v, loaded v = some v ∨ loaded v = none ∧ deleted = true) :
    Stored brackets (fun _ => false) [false, true] (twoLines loaded deleted) := by
  have hkeeps : ∀ v mere, ¬ mere →
      Keeps brackets twoFiles 1 mere deleted ⟨loaded v, .file (lineOf v)⟩ v := by
    intro v mere hmere
    refine ⟨(h v).imp_right fun hv => ⟨hv.1, hv.2, hmere, by simp⟩, fun interval ho => ?_⟩
    obtain rfl := Origin.file.inj ho
    refine ⟨?_, fun _ => lineOf_holds v⟩
    rcases v with - | -
    · exact Nat.one_pos
    · exact Nat.one_pos
  exact ⟨[⟨[false, true], [], []⟩], .cons ⟨.cons (hkeeps false _ fun hc => absurd rfl hc.2)
    (.cons (hkeeps true _ fun hc => absurd rfl hc.2) .nil), rfl, fun hne => absurd rfl hne, by simp,
    fun hc => absurd rfl hc.2, fun hid => by cases hid⟩ .nil, fun i => rfl⟩

theorem twoLines_readable : ReadableAll brackets.toRapidJson twoFiles [lineOf false, lineOf true] := by
  intro a ha
  obtain rfl := Option.some.inj ha
  rw [Readable, if_pos (by decide)]
  exact ⟨by decide, by decide, Or.inl (by decide)⟩

theorem calls_restore_two :
    Right brackets true (fun _ => false) [false, true] (twoLines (fun _ => none) true) .reparse :=
  (calls_restore brackets true (fun _ => false) [false, true]
    (.step (.start (twoLines_stored fun v => Or.inl rfl)) (by rfl :
      step brackets true (twoLines some false) .removeDocuments =
        some (twoLines (fun _ => none) true)))
    (by
      rintro p hp
      obtain rfl := List.mem_singleton.mp hp
      exact fun _ => ⟨by decide, fun hc => absurd rfl hc.2⟩)).2 .reparse
    ⟨fun _ => ⟨by decide, twoLines_readable, trivial⟩, fun i _ hne => absurd rfl hne⟩

/-- The first document becomes the second one. -/
theorem not_restored : ¬ ∀ (was : List Bool) (m : Memory Bool) (call : Call),
    Stored brackets (fun _ => false) was m → Right brackets false (fun _ => false) was m call := by
  intro h
  obtain ⟨m, hm, hrestores⟩ := h [false, true] (twoLines (fun _ => none) true) (.reparseRange 1 1)
    (twoLines_stored fun v => Or.inr ⟨rfl, rfl⟩)
  obtain rfl := Option.some.inj hm
  have hbool := hrestores.others 0 false true rfl rfl
  cases hbool

end Joda.Storage.ReparseRuns
