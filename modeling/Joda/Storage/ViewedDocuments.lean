import Joda.Storage.ViewStack
import Joda.Values.Provider

/-! # The documents of a container

A document is read through its view: `Get` and `Accept` go through the layers, and `Populate` writes it
out. A document of a container that stands on no other is written out as it is. -/

namespace Joda.Storage.ViewedDocuments

open Joda.Values.Value Joda.Values.Pointer Joda.Values.PointerSet Joda.Values.Provider
open Joda.Storage.View
open Joda.Storage.ViewStack
open Joda.Storage.Reparse (Origin)

variable {F : Type}

/-- `RapidJsonDocument` with its view; there is none for a base document that is neither an object nor
an array. -/
structure ViewedDocument (F : Type) where
  id : ℕ
  origin : Origin
  json : RJValue F
  view : List (ViewLayer F)

/-- `RapidJsonDocument::Get` and `PointerProvider::Accept` -/
instance : RapidJsonDocument (ViewedDocument F) F where
  empty := ⟨0, .temporary, .null, []⟩
  get doc ptrStr := (parsePointer ptrStr).bind fun ptr =>
    if doc.view.isEmpty then Joda.Values.Pointer.get doc.json ptr else viewGet doc.view ptr
  accept doc ptrStr := (parsePointer ptrStr).elim .null fun ptr =>
    if doc.view.isEmpty then (Joda.Values.Pointer.get doc.json ptr).getD .null
    else populate doc.view ptr

def size (stack : Stack F) : ℕ := stack.head?.elim 0 fun cont => cont.docs.length

def documentAt (stack : Stack F) (i : ℕ) : ViewedDocument F :=
  (stack.head?.bind fun cont => cont.docs[i]?).elim RapidJsonDocument.empty fun doc =>
    ⟨doc.id, doc.origin, doc.json, layersOf stack i⟩

/-- The documents `JSONContainer::forAll` goes through. -/
def documents (stack : Stack F) : List (ViewedDocument F) :=
  (List.range (size stack)).map (documentAt stack)

/-- `JSONContainer::getRaw` for one document. -/
def getRaw (stack : Stack F) (i : ℕ) : RJValue F :=
  if isView stack then populate (layersOf stack i) [] else (documentAt stack i).json

/-- A document as it is written out. -/
def writtenAt (stack : Stack F) (i : ℕ) : ViewedDocument F :=
  ⟨(documentAt stack i).id, (documentAt stack i).origin, getRaw stack i, setViews (getRaw stack i) []⟩

/-- **The documents of a container**, as they are written out. -/
def writtenOut (stack : Stack F) : List (ViewedDocument F) :=
  (List.range (size stack)).map (writtenAt stack)

theorem size_eq {stack stack' : Stack F} (h : SameHeaders stack stack') (hne : stack' ≠ []) :
    size stack' = size stack := by
  rcases stack' with _ | ⟨cont', below'⟩
  · exact absurd rfl hne
  · obtain ⟨cont, hcont, heq⟩ := h 0 cont' rfl
    have hsize : size stack = cont.docs.length := by
      rcases stack with _ | ⟨cont₀, below⟩
      · cases hcont
      · obtain rfl := Option.some.inj hcont
        rfl
    have hlen : cont'.docs.length = cont.docs.length := by
      simpa [headers] using congrArg List.length heq
    exact hlen.trans hsize.symm

theorem writtenAt_base (cont : Container F) (i : ℕ) : writtenAt [cont] i = documentAt [cont] i := by
  unfold writtenAt
  rcases hdoc : cont.docs[i]? with _ | doc
  · simp [getRaw, isView, documentAt, hdoc, RapidJsonDocument.empty, setViews, kind]
  · simp [getRaw, isView, documentAt, hdoc, layersOf]

end Joda.Storage.ViewedDocuments
