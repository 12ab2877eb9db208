import Joda.Execution.Container
import Joda.Lib.Runs
import Joda.Storage.FileOrigin
import Mathlib.Data.Finset.Image

/-! # Evicting and reloading containers

`removeDocuments` drops the documents of a container; those that are in no file are written to one
first (`serializeMissing`). `reparse` and the two `reparseSubset` collect the intervals of what is
missing, read them in one go and deal the result out by position. A view reads the container below it
as well, and one that only selects is cut off from it when it is evicted.

Each of the three keeps its own account of what is there (`deal`). The one for a range has as many
places as the range, but is asked for every document, so it is only right for a range that starts with
the first one. -/

namespace Joda.Storage.Reparse

open Joda.Values.Value Joda.Parser.StreamParser Joda.Execution.Container Joda.Storage.FileOrigin

variable {V : Type}

/-! ### Containers -/

/-- A document of memory, of a stream or of the net is not reparsable. -/
inductive Origin where
  | temporary
  | file (interval : ParseInterval)
deriving DecidableEq

def Origin.isReparsable : Origin → Bool
  | temporary => false
  | file _ => true

/-- `RapidJsonDocument`, valid if there is a `json`. -/
structure Document (V : Type) where
  json : Option V
  origin : Origin

def Document.isValid (doc : Document V) : Bool := doc.json.isSome

structure Container (V : Type) where
  docs : List (Document V)
  baseIds : List ℕ
  materializedAttributes : List Str
  /-- the `materializedAttributes` of the containers over it -/
  subContainers : List (List Str)
  id : Option ℕ
  deleted : Bool
  viewsComputed : Bool

/-- A container, with the one it is a view of behind it and so on down to the base, and the files, of
which `nextFile` is the first that is not used. -/
structure Memory (V : Type) where
  files : ℕ → Str
  nextFile : ℕ
  chain : List (Container V)

/-- `JSONContainer::removeViews`: a view that only selects is cut off. Over another one this takes it
from the list that is walked. -/
def removeViews : List (Container V) → Option (List (Container V))
  | [] => some []
  | cont :: below =>
    if [] ∈ cont.subContainers then none
    else some ({ cont with viewsComputed := false } ::
      if cont.materializedAttributes = [] then [] else below)

/-- `JSONContainer::setViews`: in a base container all documents are dereferenced. -/
def setViews (enable_views : Bool) : List (Container V) → Option (List (Container V))
  | [] => some []
  | [cont] =>
    if cont.viewsComputed || !enable_views then some [cont]
    else if cont.docs.all Document.isValid then
      some [{ cont with materializedAttributes := [[]], viewsComputed := true }]
    else none
  | cont :: base :: below =>
    if cont.viewsComputed || !enable_views then some (cont :: base :: below)
    else (setViews enable_views (base :: below)).bind fun below =>
      if (List.range cont.docs.length).all fun i =>
          cont.baseIds[i]?.any fun baseId => baseId < base.docs.length then
        some ({ cont with viewsComputed := true } :: below)
      else none

/-! ### Evicting -/

section Functions

variable (json : Json V) (enable_views : Bool)

/-- The loop of `serializeMissing` over a file that is appended to. -/
def serialize (file : ℕ) : Str → List (Document V) → Str × List (Document V)
  | text, [] => (text, [])
  | text, doc :: docs =>
    match doc.json, doc.origin with
    | some v, .temporary =>
      let longer := text ++ json.write v ++ [newline]
      let r := serialize file longer docs
      (r.1, { doc with origin := .file ⟨file, text.length, longer.length⟩ } :: r.2)
    | _, _ =>
      let r := serialize file text docs
      (r.1, doc :: r.2)

/-- `JSONContainer::serializeMissing` -/
def serializeMissing (m : Memory V) (cont : Container V) : (ℕ → Str) × ℕ × Container V :=
  match cont.id with
  | some id =>
    let r := serialize json id (m.files id) cont.docs
    (Function.update m.files id r.1, m.nextFile, { cont with docs := r.2 })
  | none =>
    let r := serialize json m.nextFile [] cont.docs
    (Function.update m.files m.nextFile r.1, m.nextFile + 1,
      { cont with docs := r.2, id := some m.nextFile })

def Document.removeDoc (doc : Document V) : Document V := { doc with json := none }

/-- `JSONContainer::removeDocuments` -/
def removeDocuments (m : Memory V) : Option (Memory V) :=
  match m.chain with
  | [] => some m
  | cont :: below =>
    if cont.deleted then some m
    else
      let r := if cont.docs.all fun doc => doc.origin.isReparsable then (m.files, m.nextFile, cont)
        else serializeMissing json m cont
      (removeViews ({ r.2.2 with docs := r.2.2.docs.map Document.removeDoc, deleted := true } ::
        below)).map fun chain => ⟨r.1, r.2.1, chain⟩

/-! ### Reloading -/

/-- The intervals of the documents that are requested and missing, from the place `i` on. -/
def missing (requested : ℕ → Bool) : ℕ → List (Document V) → List ParseInterval
  | _, [] => []
  | i, doc :: docs =>
    match requested i, doc.json, doc.origin with
    | true, none, .file interval => interval :: missing requested (i + 1) docs
    | _, _, _ => missing requested (i + 1) docs

/-- The loop that gives the documents away, from the place `i` on: `skips` is what is looked up before
a document is replaced, `none` out of its range. It ends with the last document that was read. -/
def deal (skips : ℕ → Document V → Option Bool) :
    ℕ → List (Document V) → List (Option V) → Option (List (Document V))
  | _, [], _ => some []
  | i, doc :: docs, fileDocs =>
    match skips i doc, fileDocs with
    | none, _ => none
    | some true, fileDocs => (deal skips (i + 1) docs fileDocs).map fun docs => doc :: docs
    | some false, [] => none
    | some false, [v] => some ({ doc with json := v } :: docs)
    | some false, v :: fileDocs =>
      (deal skips (i + 1) docs fileDocs).map fun docs => { doc with json := v } :: docs

/-- What the three functions do with the intervals. -/
def load (files : ℕ → Str) (requested : ℕ → Bool) (skips : ℕ → Document V → Option Bool)
    (docs : List (Document V)) : Option (List (Document V)) :=
  (parseIntervals json.toRapidJson files (mergeIntervals (missing requested 0 docs))).bind
    fun fileDocs => deal skips 0 docs fileDocs

/-- `JSONContainer::reparse` -/
def reparse (files : ℕ → Str) : List (Container V) → Option (List (Container V))
  | [] => some []
  | cont :: below =>
    if !cont.deleted || cont.docs.isEmpty then some (cont :: below)
    else
      (load json files (fun _ => true) (fun _ doc => some doc.isValid) cont.docs).bind fun docs =>
        (removeViews ({ cont with docs := docs, deleted := false } :: below)).bind
          (setViews enable_views)

/-- `JSONContainer::reparseSubset` for a range: `parsed` has as many places as the range, and there is
no vector for one that ends before it starts. -/
def reparseRange (files : ℕ → Str) (start stop : ℕ) :
    List (Container V) → Option (List (Container V))
  | [] => some []
  | cont :: below =>
    if !cont.deleted || cont.docs.isEmpty then some (cont :: below)
    else
      let stop := min (cont.docs.length - 1) stop
      if stop < start then none
      else
        (if below.isEmpty then some below
          else (cont.baseIds[start]?).bind fun minBase => (cont.baseIds[stop]?).bind fun maxBase =>
            reparseRange files minBase maxBase below).bind fun below =>
        let parsed := 1 + (stop - start)
        if cont.docs.zipIdx.any fun d =>
            d.1.isValid && (start ≤ d.2 && d.2 ≤ stop && parsed ≤ d.2) then none
        else
          (load json files (fun i => start ≤ i && i ≤ stop)
            (fun i doc => if i < parsed then some (doc.isValid && (start ≤ i && i ≤ stop)) else none)
            cont.docs).bind fun docs =>
              (removeViews ({ cont with docs := docs } :: below)).bind (setViews enable_views)

/-- What `index` selects of the container below. -/
def baseIndex (cont : Container V) (size : ℕ) (index : DocIndex) : Option DocIndex :=
  if (List.range cont.docs.length).all fun i =>
      i ∉ index || cont.baseIds[i]?.any fun baseId => baseId < size then
    some ((index.filter (· < cont.docs.length)).image fun i => cont.baseIds.getD i 0)
  else none

/-- `JSONContainer::reparseSubset` for a selection. -/
def reparseSubset (files : ℕ → Str) (index : DocIndex) :
    List (Container V) → Option (List (Container V))
  | [] => some []
  | cont :: below =>
    if !cont.deleted || cont.docs.isEmpty then some (cont :: below)
    else
      (below.head?.elim (some []) fun base =>
        (baseIndex cont base.docs.length index).bind fun index =>
          reparseSubset files index below).bind fun below =>
        (load json files (fun i => i ∈ index) (fun i doc => some (doc.isValid || i ∉ index))
          cont.docs).bind fun docs =>
            (removeViews ({ cont with docs := docs } :: below)).bind (setViews enable_views)

inductive Call where
  | removeDocuments
  | reparse
  | reparseRange (start stop : ℕ)
  | reparseSubset (index : DocIndex)

/-- A call on the container, `none` where something out of range is accessed or it does not end. -/
def step (m : Memory V) : Call → Option (Memory V)
  | .removeDocuments => removeDocuments json m
  | .reparse => (reparse json enable_views m.files m.chain).map fun chain => { m with chain := chain }
  | .reparseRange start stop =>
    (reparseRange json enable_views m.files start stop m.chain).map fun chain =>
      { m with chain := chain }
  | .reparseSubset index =>
    (reparseSubset json enable_views m.files index m.chain).map fun chain => { m with chain := chain }

end Functions

/-! ### What is asked for -/

/-- The layers that make up a document, the newest first, if they are all there. -/
def layersOf : List (Container V) → ℕ → Option (List (List Str × V))
  | [], _ => none
  | [cont], i => (cont.docs[i]?.bind (·.json)).map fun v => [([[]], v)]
  | cont :: base :: below, i => (cont.docs[i]?.bind (·.json)).bind fun v =>
    (cont.baseIds[i]?).bind fun baseId =>
      (layersOf (base :: below) baseId).map fun layers => (cont.materializedAttributes, v) :: layers

/-- **The document at a place**: that of a base container itself, and what a view shows of its
layers. -/
def documentAt (shown : List (List Str × V) → V) : List (Container V) → ℕ → Option V
  | [cont], i => cont.docs[i]?.bind (·.json)
  | chain, i => (layersOf chain i).map shown

def Call.Requests : Call → ℕ → Prop
  | removeDocuments, _ => False
  | reparse, _ => True
  | reparseRange start stop, i => start ≤ i ∧ i ≤ stop
  | reparseSubset index, i => i ∈ index

/-- **A call restores the documents `was`**: what was requested is there as it was, and nothing has
become another document. -/
structure Restores (shown : List (List Str × V) → V) (was : List V) (call : Call) (m : Memory V) :
    Prop where
  requested : ∀ i v, was[i]? = some v → call.Requests i → documentAt shown m.chain i = some v
  others : ∀ i v w, was[i]? = some v → documentAt shown m.chain i = some w → w = v

/-- A call accesses nothing out of range and restores what it is to restore. -/
def Right (json : Json V) (enable_views : Bool) (shown : List (List Str × V) → V) (was : List V)
    (m : Memory V) (call : Call) : Prop :=
  ∃ m', step json enable_views m call = some m' ∧ Restores shown was call m'

end Joda.Storage.Reparse
