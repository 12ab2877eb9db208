import Joda.Values.Provider
import Mathlib.Data.Finset.Basic
import Mathlib.Data.Finset.Range

/-! # Containers

The documents of a container and what is selected of them. -/

namespace Joda.Execution.Container

open Joda.Values.Value Joda.Values.Provider Joda.Values.Provider.IValueProvider

variable {D F : Type} [Double F] [RapidJsonDocument D F]

/-- A selection of documents, by their places in the container. -/
abbrev DocIndex := Finset ℕ

/-- Whether the document at place `i` passes. -/
def passes (cont : List D) (func : D → Bool) (i : ℕ) : Bool := cont[i]?.elim false func

/-- `JSONContainer::checkDocuments` -/
def checkDocuments (cont : List D) (func : D → Bool) : DocIndex :=
  (Finset.range cont.length).filter fun i => passes cont func i = true

/-- `JSONContainer::forAll` on the documents `ids`, with a function that sets the document's bit. -/
def forAll (cont : List D) (func : D → Bool) (ids : DocIndex) : DocIndex :=
  (Finset.range cont.length).filter fun i => i ∈ ids ∧ passes cont func i = true

/-- **The documents a predicate selects**, those for which `Query::check` holds. -/
def select (cont : List D) (pred : IValueProvider D F) : DocIndex := checkDocuments cont (check pred)

variable {cont : List D} {pred : IValueProvider D F}

theorem mem_select {i : ℕ} : i ∈ select cont pred ↔ passes cont (check pred) i = true := by
  rw [select, checkDocuments, Finset.mem_filter, Finset.mem_range, and_iff_right_iff_imp]
  intro h
  by_contra hi
  rw [passes, List.getElem?_eq_none (not_lt.mp hi)] at h
  cases h

theorem mem_forAll {func : D → Bool} {ids : DocIndex} {i : ℕ} :
    i ∈ forAll cont func ids ↔ i ∈ ids ∧ passes cont func i = true := by
  rw [forAll, Finset.mem_filter, Finset.mem_range, and_iff_right_iff_imp]
  rintro ⟨-, h⟩
  by_contra hi
  rw [passes, List.getElem?_eq_none (not_lt.mp hi)] at h
  cases h

theorem select_and {lhs rhs : IValueProvider D F} :
    select cont (.bool .and lhs rhs) = forAll cont (check rhs) (select cont lhs) := by
  ext i
  rw [mem_forAll, mem_select, mem_select, passes, passes, passes]
  cases cont[i]? with
  | none => simp
  | some d => simp [check, getValue, RJValue.asBool, BoolCalc.calculate]

theorem select_and_comm {lhs rhs : IValueProvider D F} :
    select cont (.bool .and lhs rhs) = forAll cont (check lhs) (select cont rhs) := by
  ext i
  rw [select_and, mem_forAll, mem_forAll, mem_select, mem_select, and_comm]

theorem select_const {b : Bool} (h : chooseIsConst pred = some b) :
    select cont pred = if b then Finset.range cont.length else ∅ := by
  ext i
  rw [mem_select, passes]
  rcases Nat.lt_or_ge i cont.length with hi | hi
  · rw [List.getElem?_eq_getElem hi]
    cases b <;> simp [check_of_chooseIsConst h, hi]
  · rw [List.getElem?_eq_none hi]
    cases b <;> simp [hi]

end Joda.Execution.Container
