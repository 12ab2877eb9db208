import Joda.Storage.Reparse
import Joda.Storage.View
import Joda.Values.PointerSet

/-! # Stacks of view containers

A view container stands on the container below it: its documents are deltas, and `baseIds` says which
document of the container below each of them belongs to. `Stack` is a container with those it stands
on, the newest first and the base container last.

`materializeAttributesIfRequired` writes the attributes that are asked for into the deltas, where they
are put together from several layers. Virtual objects are not enabled here. -/

namespace Joda.Storage.ViewStack

open Joda.Values.Value Joda.Values.Pointer Joda.Values.PointerSet
open Joda.Storage.View
open Joda.Storage.Reparse (Origin)

variable {F : Type}

/-- `RapidJsonDocument`, the view of it apart. -/
structure Document (F : Type) where
  id : ℕ
  origin : Origin
  json : RJValue F

structure Container (F : Type) where
  docs : List (Document F)
  baseIds : List ℕ
  materializedAttributes : List RJPointer

abbrev Stack (F : Type) := List (Container F)

/-- `isView` of the first container. -/
def isView : Stack F → Bool
  | _ :: _ :: _ => true
  | _ => false

/-- **`JSONContainer::setViews`**: the layers of a document. -/
def layersOf : Stack F → ℕ → List (ViewLayer F)
  | [], _ => []
  | [cont], i => (cont.docs[i]?).elim [] fun doc => setViews doc.json []
  | cont :: base :: below, i => (cont.docs[i]?).elim [] fun doc =>
    ⟨doc.json, cont.materializedAttributes⟩ :: layersOf (base :: below) (cont.baseIds.getD i 0)

/-! ### `Populate` -/

/-- The length of the longest text of a view path. -/
def longest (layers : List (ViewLayer F)) : ℕ :=
  (layers.flatMap fun layer => layer.viewPaths.map fun p => (stringify p).length).foldr max 0

/-- How deep `Accept` goes. -/
def depth (layers : List (ViewLayer F)) : ℕ := longest layers + layers.length + 2

/-- **`Populate`** from a view, after `setPrefix`. -/
def populate (layers : List (ViewLayer F)) (ptr : RJPointer) : RJValue F :=
  ((acceptAt false layers ptr .empty (depth layers)).map Prod.fst).getD .null

theorem le_longest {layers : List (ViewLayer F)} {layer : ViewLayer F} (hl : layer ∈ layers)
    {p : RJPointer} (hp : p ∈ layer.viewPaths) : (stringify p).length ≤ longest layers := by
  have hmem : (stringify p).length ∈
      layers.flatMap fun layer => layer.viewPaths.map fun p => (stringify p).length :=
    List.mem_flatMap.mpr ⟨layer, hl, List.mem_map.mpr ⟨p, hp, rfl⟩⟩
  unfold longest
  generalize layers.flatMap _ = ns at hmem
  induction ns with
  | nil => cases hmem
  | cons n ns ih =>
    rw [List.foldr_cons]
    rcases List.mem_cons.mp hmem with rfl | hmem
    · omega
    · have := ih hmem
      omega

theorem longest_tail (layer : ViewLayer F) (below : List (ViewLayer F)) :
    longest below ≤ longest (layer :: below) := by
  unfold longest
  rw [List.flatMap_cons, List.foldr_append]
  generalize (below.flatMap _).foldr max 0 = n
  induction layer.viewPaths with
  | nil => exact le_rfl
  | cons p ps ih =>
    rw [List.map_cons, List.foldr_cons]
    omega

theorem length_le_of_anyStartsWith {curr : Str} : ∀ {layers : List (ViewLayer F)},
    anyStartsWith layers curr = true → curr.length ≤ longest layers
  | [], h => by cases h
  | layer :: below, h => by
    rw [anyStartsWith, Bool.or_eq_true, Bool.and_eq_true] at h
    rcases h with h | ⟨-, h⟩
    · obtain ⟨p, hp, hpre⟩ := List.any_eq_true.mp h
      exact (List.isPrefixOf_iff_prefix.mp hpre).length_le.trans (le_longest List.mem_cons_self hp)
    · exact (length_le_of_anyStartsWith h).trans (longest_tail layer below)

theorem acceptMembers_isSome (n : ℕ) (curr : Str)
    (next : Str → Objects F → Option (RJValue F × Objects F)) : ∀ {ms : List (ViewObjectMember F)},
      (∀ name, (name, none) ∈ ms → ∃ v, next name .empty = some (v, .empty)) →
        ∃ s, acceptMembers false n curr next ms .empty = some s ∧ s.objects = .empty
  | [], _ => ⟨⟨[], some [], .empty⟩, rfl, rfl⟩
  | (name, some val) :: ms, h => by
    obtain ⟨s, hs, hempty⟩ := acceptMembers_isSome n curr next
      fun name hm => h name (List.mem_cons_of_mem _ hm)
    exact ⟨s.cons name val (some val), by rw [acceptMembers, hs]; rfl, hempty⟩
  | (name, none) :: ms, h => by
    obtain ⟨v, hv⟩ := h name List.mem_cons_self
    obtain ⟨s, hs, hempty⟩ := acceptMembers_isSome n curr next
      fun name hm => h name (List.mem_cons_of_mem _ hm)
    refine ⟨s.cons name v none, ?_, hempty⟩
    rw [acceptMembers, hv, Option.bind_some]
    simp only [Bool.false_eq_true, if_false, hs, Option.map_some]
    rfl

/-- A member that is put together lies deeper than the object, and an object is only put together above
the end of a view path. -/
theorem accept_isSome : ∀ (fuel : ℕ) (layers : List (ViewLayer F)) (followed : List Str) (curr : Str),
    longest layers + 1 - curr.length + layers.length < fuel →
      ∃ v, accept false fuel layers followed curr .empty = some (v, .empty) := by
  intro fuel
  induction fuel with
  | zero => exact fun _ _ _ h => absurd h (Nat.not_lt_zero _)
  | succ fuel ih =>
    intro layers followed curr hfuel
    rcases layers with _ | ⟨layer, below⟩
    · exact ⟨.null, rfl⟩
    rw [accept]
    simp only [Objects.empty]
    by_cases hs : isShared (layer :: below) curr = true
    · have hlen := length_le_of_anyStartsWith (Bool.and_eq_true _ _ ▸ hs).2
      obtain ⟨s, hsome, hempty⟩ := acceptMembers_isSome (below.length + 1) curr
        (fun name => accept false fuel (layer :: below) (followed ++ [name]) (attPath curr name))
        fun name (_ : _ ∈ getMembers (layer :: below) followed curr) => by
          have hcurr : (attPath curr name).length = curr.length + (name.length + 1) := by
            rw [attPath, List.length_append, List.length_cons]
          exact ih (layer :: below) _ (attPath curr name) (by omega)
      refine ⟨.object s.emitted, ?_⟩
      rw [if_pos hs]
      rw [hsome, Option.map_some, hempty]
      rfl
    · rw [if_neg hs]
      split
      · exact ⟨_, rfl⟩
      · have := longest_tail layer below
        rw [List.length_cons] at hfuel
        exact ih below _ _ (by omega)

/-- `Accept` ends within the depth. -/
theorem acceptAt_depth (layers : List (ViewLayer F)) (ptr : RJPointer) :
    acceptAt false layers ptr .empty (depth layers) = some (populate layers ptr, .empty) := by
  obtain ⟨v, hv⟩ := accept_isSome (depth layers) layers (ptr.map cString) (stringify ptr)
    (by unfold depth; omega)
  have hat : acceptAt false layers ptr .empty (depth layers) = some (v, .empty) := hv
  unfold populate
  rw [hat]
  rfl

/-! ### Materialising -/

/-- A container with other contents of its documents. -/
def Container.setJsons (cont : Container F) (json : ℕ → Document F → RJValue F) : Container F :=
  { cont with docs := cont.docs.mapIdx fun i doc => { doc with json := json i doc } }

/-- `JSONContainer::materializeView`: the container is a base container from now on. -/
def materializeView : Stack F → Stack F
  | cont :: base :: below =>
    [cont.setJsons fun i _ => populate (layersOf (cont :: base :: below) i) []]
  | stack => stack

/-- The loop of `materializeAttributes` for one attribute. All paths that start with its text are
removed. -/
def materializeAttribute (att : RJPointer) : Stack F → Stack F
  | cont :: base :: below =>
    { cont.setJsons fun i doc =>
          set att (populate (layersOf (cont :: base :: below) i) att) doc.json with
      materializedAttributes := (cont.materializedAttributes.filter fun path =>
        !(stringify att).isPrefixOf (stringify path)) ++ [att] } :: base :: below
  | stack => stack

def isMaterialized (cont : Container F) (att : RJPointer) : Bool :=
  cont.materializedAttributes.any fun path => stringify path = stringify att

/-- **`JSONContainer::materializeAttributes`** -/
def materializeAttributes : List RJPointer → Stack F → Stack F
  | att :: atts, cont :: base :: below =>
    if isMaterialized cont att then materializeAttributes atts (cont :: base :: below)
    else if att = [] then materializeView (cont :: base :: below)
    else materializeAttributes atts (materializeAttribute att (cont :: base :: below))
  | _, stack => stack

/-- `att.back() != '/' ? att + "/" : att` -/
def attPrefix (att : RJPointer) : Str :=
  if (stringify att).getLast? = some 47 then stringify att else stringify att ++ [47]

/-- An attribute below it is written in the container. -/
def isSharedObject (cont : Container F) (att : RJPointer) : Bool :=
  cont.materializedAttributes.any fun path =>
    (attPrefix att).length < (stringify path).length && (attPrefix att).isPrefixOf (stringify path)

def newatts (cont : Container F) (atts : List RJPointer) : List RJPointer :=
  atts.filter fun att => !isMaterialized cont att && isSharedObject cont att

def subatts (cont : Container F) (atts : List RJPointer) : List RJPointer :=
  atts.filter fun att => !isMaterialized cont att && !isSharedObject cont att

/-- **`JSONContainer::materializeAttributesIfRequired`** -/
def materializeAttributesIfRequired : List RJPointer → Stack F → Stack F
  | atts, cont :: base :: below =>
    if atts = [] ∨ cont.materializedAttributes = [] then cont :: base :: below
    else if [] ∈ atts then materializeView (cont :: base :: below)
    else
      materializeAttributes (newatts cont atts)
        (cont :: materializeAttributesIfRequired (subatts cont atts) (base :: below))
  | _, stack => stack

/-! ### What stays as it is -/

def headers (cont : Container F) : List (ℕ × Origin) := cont.docs.map fun doc => (doc.id, doc.origin)

/-- The stack may have been cut, but the documents of its containers have the same ids and origins. -/
def SameHeaders (stack stack' : Stack F) : Prop :=
  ∀ (k : ℕ) (cont' : Container F), stack'[k]? = some cont' →
    ∃ cont, stack[k]? = some cont ∧ headers cont' = headers cont

theorem SameHeaders.refl (stack : Stack F) : SameHeaders stack stack := fun _ cont' h => ⟨cont', h, rfl⟩

theorem SameHeaders.trans {s t u : Stack F} (h : SameHeaders s t) (h' : SameHeaders t u) :
    SameHeaders s u := by
  intro k cont hcont
  obtain ⟨cont', hcont', heq⟩ := h' k cont hcont
  obtain ⟨cont'', hcont'', heq'⟩ := h k cont' hcont'
  exact ⟨cont'', hcont'', heq.trans heq'⟩

theorem SameHeaders.cons {cont cont' : Container F} {s t : Stack F} (hc : headers cont' = headers cont)
    (h : SameHeaders s t) : SameHeaders (cont :: s) (cont' :: t) := by
  intro k c hk
  rcases k with _ | k
  · obtain rfl := Option.some.inj hk
    exact ⟨cont, rfl, hc⟩
  · exact h k c hk

theorem headers_setJsons (cont : Container F) (json : ℕ → Document F → RJValue F) :
    headers (cont.setJsons json) = headers cont := by
  unfold headers Container.setJsons
  refine List.ext_getElem? fun i => ?_
  rw [List.getElem?_map, List.getElem?_map, List.getElem?_mapIdx, Option.map_map]
  rfl

theorem materializeView_headers : ∀ stack : Stack F, SameHeaders stack (materializeView stack)
  | [] => .refl _
  | [_] => .refl _
  | cont :: _ :: _ =>
    .cons (headers_setJsons cont _) fun k cont' h => by
      rw [List.getElem?_nil] at h
      cases h

theorem materializeAttribute_headers (att : RJPointer) :
    ∀ stack : Stack F, SameHeaders stack (materializeAttribute att stack)
  | [] => .refl _
  | [_] => .refl _
  | cont :: _ :: _ => .cons (headers_setJsons cont _) (.refl _)

theorem materializeAttributes_headers (atts : List RJPointer) :
    ∀ stack : Stack F, SameHeaders stack (materializeAttributes atts stack) := by
  induction atts with
  | nil =>
    intro stack
    rw [materializeAttributes.eq_def]
    exact .refl _
  | cons att atts ih =>
    rintro (_ | ⟨cont, _ | ⟨base, below⟩⟩)
    · exact .refl _
    · exact .refl _
    · rw [materializeAttributes]
      split_ifs
      · exact ih _
      · exact materializeView_headers _
      · exact (materializeAttribute_headers att _).trans (ih _)

/-- **Materialising changes the contents of documents only.** -/
theorem materializeAttributesIfRequired_headers : ∀ (stack : Stack F) (atts : List RJPointer),
    SameHeaders stack (materializeAttributesIfRequired atts stack)
  | [], _ => .refl _
  | [_], _ => .refl _
  | cont :: base :: below, atts => by
    rw [materializeAttributesIfRequired]
    split_ifs
    · exact .refl _
    · exact materializeView_headers _
    · exact (SameHeaders.cons rfl (materializeAttributesIfRequired_headers (base :: below) _)).trans
        (materializeAttributes_headers _ _)

theorem materializeAttributes_ne_nil (atts : List RJPointer) : ∀ {stack : Stack F}, stack ≠ [] →
    materializeAttributes atts stack ≠ [] := by
  induction atts with
  | nil =>
    intro stack h
    rw [materializeAttributes.eq_def]
    exact h
  | cons att atts ih =>
    rintro (_ | ⟨cont, _ | ⟨base, below⟩⟩) h
    · exact h
    · exact h
    · rw [materializeAttributes]
      split_ifs
      · exact ih h
      · exact List.cons_ne_nil _ _
      · exact ih (List.cons_ne_nil _ _)

theorem materializeAttributesIfRequired_ne_nil {atts : List RJPointer} : ∀ {stack : Stack F},
    stack ≠ [] → materializeAttributesIfRequired atts stack ≠ []
  | [], h => h
  | [_], h => h
  | _ :: _ :: _, h => by
    rw [materializeAttributesIfRequired]
    split_ifs
    · exact h
    · exact List.cons_ne_nil _ _
    · exact materializeAttributes_ne_nil _ (List.cons_ne_nil _ _)

end Joda.Storage.ViewStack
