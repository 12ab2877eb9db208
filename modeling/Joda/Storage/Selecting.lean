import Joda.Storage.ViewStack

/-! # Views that only select

The layer of a view that only selects has no view paths and an empty delta. `Get` goes through it to the
layers below. `Accept` puts together the members of what it comes to wherever a view path below starts
with the pointer, and so it does at the view paths themselves, where the layers below emit the value of
the delta: it goes through where there is an object (`ShowsObjects`). -/

namespace Joda.Storage.Selecting

open Joda.Values.Value Joda.Values.Pointer Joda.Values.PointerSet
open Joda.Storage.View
open Joda.Storage.ViewStack

variable {F : Type}

/-- The layer of a view without view paths. -/
def selecting : ViewLayer F := ⟨.null, []⟩

/-- Where `Accept` comes to through such a layer: the members that are put together. -/
inductive Visited (layers : List (ViewLayer F)) (followed : List Str) (curr : Str) :
    List Str → Str → Prop
  | start : Visited layers followed curr followed curr
  | member {followed' : List Str} {curr' name : Str} (h : Visited layers followed curr followed' curr')
      (hstarts : anyStartsWith layers curr' = true)
      (hname : (name, none) ∈ getMembers layers followed' curr') :
      Visited layers followed curr (followed' ++ [name]) (attPath curr' name)

/-- **Where `Accept` comes to a view path**, there is an object in the delta. -/
def ShowsObjects (layers : List (ViewLayer F)) (followed : List Str) (curr : Str) : Prop :=
  ∀ followed' curr', Visited layers followed curr followed' curr' → isBase layers curr' = true →
    anyStartsWith layers curr' = true →
      ∃ v, (layers.head?.bind fun layer => getVal layer followed') = some v ∧ .object (members v) = v

/-- The whole document is put together of layers, or it is `null` in the first one. -/
def SeenAtRoot (layers : List (ViewLayer F)) (curr : Str) : Prop :=
  anyStartsWith layers curr = true ∨ (layers.head?.map ViewLayer.doc) = some .null

theorem ShowsObjects.member {layers : List (ViewLayer F)} {followed : List Str} {curr name : Str}
    (h : ShowsObjects layers followed curr) (hstarts : anyStartsWith layers curr = true)
    (hname : (name, none) ∈ getMembers layers followed curr) :
    ShowsObjects layers (followed ++ [name]) (attPath curr name) := by
  intro followed' curr' hvisited
  refine h followed' curr' ?_
  induction hvisited with
  | start => exact .member .start hstarts hname
  | member _ hstarts hname ih => exact .member ih hstarts hname

/-- Nothing is below the `null` of the layer. -/
theorem getVal_selecting {followed : List Str} (h : followed ≠ []) :
    getVal (selecting : ViewLayer F) followed = none := by
  obtain ⟨name, rest, rfl⟩ := List.exists_cons_of_ne_nil h
  have hnone : ∀ rest : List Str, rest.foldl followAtt (none : Option (RJValue F)) = none := by
    intro rest
    induction rest with
    | nil => rfl
    | cons name rest ih => exact ih
  exact hnone rest

section Layer

variable {layers : List (ViewLayer F)} (hne : layers ≠ [])
include hne

theorem isBase_selecting (curr : Str) : isBase (selecting :: layers) curr = false := by
  rcases layers with _ | ⟨layer, below⟩
  · exact absurd rfl hne
  · rfl

theorem isShared_selecting (curr : Str) :
    isShared (selecting :: layers) curr = anyStartsWith layers curr := by
  rw [isShared, anyStartsWith, isBase_selecting hne]
  rfl

theorem getMembers_selecting (followed : List Str) (curr : Str) :
    getMembers (selecting :: layers) followed curr = getMembers layers followed curr := by
  rw [getMembers, isBase_selecting hne, if_neg (by simp)]
  rcases followed with _ | ⟨name, rest⟩
  · rfl
  · rw [getVal_selecting (List.cons_ne_nil _ _)]

end Layer

/-- The members that are emitted are a matter of what is emitted for those that are put together. -/
theorem acceptMembers_congr (n n' : ℕ) (curr : Str)
    (next next' : Str → Objects F → Option (RJValue F × Objects F)) :
    ∀ {ms : List (ViewObjectMember F)},
      (∀ name, (name, none) ∈ ms → next name .empty = next' name .empty ∧
        ∃ v, next' name .empty = some (v, .empty)) →
      ∃ s s', acceptMembers false n curr next ms .empty = some s ∧
        acceptMembers false n' curr next' ms .empty = some s' ∧ s.emitted = s'.emitted ∧
          s.objects = .empty ∧ s'.objects = .empty
  | [], _ => ⟨_, _, rfl, rfl, rfl, rfl, rfl⟩
  | (name, some val) :: ms, h => by
    obtain ⟨s, s', hs, hs', heq, hempty, hempty'⟩ := acceptMembers_congr n n' curr next next'
      fun name hm => h name (List.mem_cons_of_mem _ hm)
    exact ⟨s.cons name val (some val), s'.cons name val (some val), by rw [acceptMembers, hs]; rfl,
      by rw [acceptMembers, hs']; rfl, congrArg ((name, val) :: ·) heq, hempty, hempty'⟩
  | (name, none) :: ms, h => by
    obtain ⟨hsame, v, hv⟩ := h name List.mem_cons_self
    obtain ⟨s, s', hs, hs', heq, hempty, hempty'⟩ := acceptMembers_congr n n' curr next next'
      fun name hm => h name (List.mem_cons_of_mem _ hm)
    refine ⟨s.cons name v none, s'.cons name v none, ?_, ?_, congrArg ((name, v) :: ·) heq, hempty,
      hempty'⟩
    · rw [acceptMembers, hsame, hv, Option.bind_some]
      simp only [Bool.false_eq_true, if_false, hs, Option.map_some]
      rfl
    · rw [acceptMembers, hv, Option.bind_some]
      simp only [Bool.false_eq_true, if_false, hs', Option.map_some]
      rfl

/-- Members with a value are emitted as they are. -/
theorem acceptMembers_values (n : ℕ) (curr : Str)
    (next : Str → Objects F → Option (RJValue F × Objects F)) :
    ∀ ms : List (Str × RJValue F), ∃ s,
      acceptMembers false n curr next (ms.map fun m => (m.1, some m.2)) .empty = some s ∧
        s.emitted = ms ∧ s.objects = .empty
  | [] => ⟨_, rfl, rfl, rfl⟩
  | m :: ms => by
    obtain ⟨s, hs, heq, hempty⟩ := acceptMembers_values n curr next ms
    exact ⟨s.cons m.1 m.2 (some m.2), by rw [List.map_cons, acceptMembers, hs]; rfl,
      congrArg (m :: ·) heq, hempty⟩

/-- **`Accept` goes through the layer** where it shows objects, one level deeper. -/
theorem accept_selecting {layers : List (ViewLayer F)} (hne : layers ≠ []) : ∀ (fuel : ℕ)
    {followed : List Str} {curr : Str}, longest layers + 1 - curr.length + layers.length < fuel →
      (followed = [] → SeenAtRoot layers curr) → ShowsObjects layers followed curr →
        accept false (fuel + 1) (selecting :: layers) followed curr .empty =
          accept false fuel layers followed curr .empty := by
  intro fuel
  induction fuel with
  | zero => exact fun h => absurd h (Nat.not_lt_zero _)
  | succ fuel ih =>
    intro followed curr hfuel hroot hshows
    obtain ⟨layer, below, rfl⟩ := List.exists_cons_of_ne_nil hne
    by_cases hstarts : anyStartsWith (layer :: below) curr = true
    · have hlen := length_le_of_anyStartsWith hstarts
      have hchild : ∀ name, (attPath curr name).length = curr.length + (name.length + 1) := by
        intro name
        rw [attPath, List.length_append, List.length_cons]
      rw [accept]
      simp only [Objects.empty]
      rw [isShared_selecting hne, if_pos hstarts, getMembers_selecting hne]
      by_cases hbase : isBase (layer :: below) curr = true
      · obtain ⟨v, hv, hobject⟩ := hshows followed curr .start hbase hstarts
        have hval : getVal layer followed = some v := hv
        have hms : getMembers (layer :: below) followed curr =
            (members v).map fun m => (m.1, some m.2) := by
          rw [getMembers, if_pos hbase, hval]
          rfl
        obtain ⟨s, hs, hemitted, hempty⟩ := acceptMembers_values ((layer :: below).length + 1) curr
          (fun name => accept false (fuel + 1) (selecting :: layer :: below) (followed ++ [name])
            (attPath curr name)) (members v)
        have hshared : isShared (layer :: below) curr = false := by rw [isShared, hbase]; rfl
        rw [hms, accept]
        simp only [Objects.empty] at hs hempty ⊢
        rw [hs, hshared, Option.map_some, hemitted, hempty, hobject, hval]
        rfl
      · have hshared : isShared (layer :: below) curr = true := by
          rw [isShared, hstarts]
          simpa using hbase
        obtain ⟨s, s', hs, hs', hemitted, hempty, hempty'⟩ := acceptMembers_congr
          ((layer :: below).length + 1) (below.length + 1) curr
          (fun name => accept false (fuel + 1) (selecting :: layer :: below) (followed ++ [name])
            (attPath curr name))
          (fun name => accept false fuel (layer :: below) (followed ++ [name]) (attPath curr name))
          fun name (hname : _ ∈ getMembers (layer :: below) followed curr) => by
              have hless : longest (layer :: below) + 1 - (attPath curr name).length +
                  (layer :: below).length < fuel := by
                rw [hchild]
                omega
              refine ⟨ih hless (fun h => absurd h (by simp)) (hshows.member hstarts hname), ?_⟩
              exact accept_isSome fuel _ _ _ hless
        rw [accept]
        simp only [Objects.empty] at hs hs' hempty hempty' ⊢
        rw [hs, if_pos hshared, hs', Option.map_some, Option.map_some, hemitted, hempty, hempty']
        rfl
    · rw [accept]
      simp only [Objects.empty]
      rw [isShared_selecting hne, if_neg hstarts]
      by_cases hfollowed : followed = []
      · subst hfollowed
        have hdoc : layer.doc = .null :=
          Option.some.inj ((hroot rfl).resolve_left hstarts)
        have hshared : isShared (layer :: below) curr = false := by
          rw [isShared, Bool.eq_false_iff.mpr hstarts, Bool.and_false]
        rw [accept]
        simp only [Objects.empty]
        rw [hshared, getVal, getVal, List.foldl_nil, List.foldl_nil, hdoc]
        rfl
      · rw [getVal_selecting hfollowed]

/-- **`Populate` through a layer that only selects.** -/
theorem populate_selecting {layers : List (ViewLayer F)} (hne : layers ≠ []) {ptr : RJPointer}
    (hroot : ptr = [] → SeenAtRoot layers [])
    (hshows : ShowsObjects layers (ptr.map cString) (stringify ptr)) :
    populate (selecting :: layers) ptr = populate layers ptr := by
  have hdepth : depth (selecting :: layers) = depth layers + 1 := by
    have hlongest : longest (selecting :: layers) = longest layers := rfl
    rw [depth, depth, hlongest, List.length_cons]
    omega
  rw [populate, populate, hdepth, acceptAt, acceptAt, accept_selecting hne _ ?_ ?_ hshows]
  · unfold depth
    omega
  · intro hnil
    obtain rfl := List.map_eq_nil_iff.mp hnil
    exact hroot rfl

/-- Away from the view paths, `Accept` goes through. -/
theorem showsObjects_of_not_starts {layers : List (ViewLayer F)} {followed : List Str} {curr : Str}
    (h : anyStartsWith layers curr = false) : ShowsObjects layers followed curr := by
  intro followed' curr' hvisited _ hstarts
  have hnone : ∀ {followed' curr'}, Visited layers followed curr followed' curr' → curr' = curr := by
    intro followed' curr' hvisited
    induction hvisited with
    | start => rfl
    | member _ hstarts _ ih =>
      rw [ih, h] at hstarts
      cases hstarts
  rw [hnone hvisited, h] at hstarts
  cases hstarts

end Joda.Storage.Selecting
