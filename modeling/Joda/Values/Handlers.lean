import Joda.Values.Events

/-! # Handlers of events

A function that needs the members of a value, but not the value, gets its events: `MEMCOUNT` and
`LISTATTRIBUTES` do so where the document is a view, the iterating functions always. Each handler keeps
the depth it is at and counts or lists at depth 1 only; below, it passes every value and is as before
(`Nested.passes_events`). So each of them answers as the value itself would. -/

namespace Joda.Values.Handlers

open Joda.Lib.Feed Joda.Values.Value Joda.Values.Events

variable {F σ : Type}

/-! ### The handlers -/

namespace membercount

structure MemberCountHandler where
  stack : ℤ
  count : ℕ
  firstObject : Bool

namespace MemberCountHandler

def new : MemberCountHandler := ⟨0, 0, false⟩

def receive (h : MemberCountHandler) : Event F → MemberCountHandler × Bool
  | .null | .bool _ | .int _ | .uint _ | .int64 _ | .uint64 _ | .double _ | .string _ =>
    if !h.firstObject then (h, false) else (h, true)
  | .startObject =>
    let h := if h.stack = 0 then { h with firstObject := true } else h
    ({ h with stack := h.stack + 1 }, true)
  | .key _ => (if h.stack = 1 then { h with count := h.count + 1 } else h, true)
  | .endObject _ => ({ h with stack := h.stack - 1 }, true)
  | .startArray => if !h.firstObject then (h, false) else ({ h with stack := h.stack + 1 }, true)
  | .endArray _ => ({ h with stack := h.stack - 1 }, true)

def getCount (h : MemberCountHandler) : ℕ := h.count

end MemberCountHandler

namespace MemberCountCalculator

/-- The event path. -/
def accept (v : RJValue F) : RJValue F :=
  let res := Events.accept MemberCountHandler.receive v .new
  if !res.2 then .null else .number (.int res.1.getCount)

/-- The tree path. -/
def pointer : RJValue F → RJValue F
  | .object ms => .number (.int ms.length)
  | _ => .null

end MemberCountCalculator

end membercount

namespace listattributes

structure ListAttributesHandler where
  attributes : List Str
  stack : ℤ
  firstObject : Bool

namespace ListAttributesHandler

def new : ListAttributesHandler := ⟨[], 0, false⟩

def receive (h : ListAttributesHandler) : Event F → ListAttributesHandler × Bool
  | .null | .bool _ | .int _ | .uint _ | .int64 _ | .uint64 _ | .double _ | .string _ =>
    if !h.firstObject then (h, false) else (h, true)
  | .startObject =>
    let h := if h.stack = 0 then { h with firstObject := true } else h
    ({ h with stack := h.stack + 1 }, true)
  | .key str =>
    if !h.firstObject then (h, false)
    else (if h.stack = 1 then { h with attributes := h.attributes ++ [str] } else h, true)
  | .endObject _ => ({ h with stack := h.stack - 1 }, true)
  | .startArray => if !h.firstObject then (h, false) else ({ h with stack := h.stack + 1 }, true)
  | .endArray _ => ({ h with stack := h.stack - 1 }, true)

def getAttributes (h : ListAttributesHandler) : List Str := h.attributes

end ListAttributesHandler

namespace ListAttributesCalculator

/-- `calculate` where the value is reached by a pointer. -/
def pointer : RJValue F → RJValue F
  | .object ms => .array (ms.map fun m => .string m.1)
  | _ => .null

/-- `calculate` where its events are sent. -/
def accept (v : RJValue F) : RJValue F :=
  let res := Events.accept ListAttributesHandler.receive v .new
  if !res.2 then .null else .array (res.1.getAttributes.map .string)

end ListAttributesCalculator

end listattributes

namespace iterator

structure ExtractIteratorHandler where
  attributes : List Str
  arr_size : ℕ
  stack : ℤ
  firstObject : Bool

namespace ExtractIteratorHandler

def new : ExtractIteratorHandler := ⟨[], 0, 0, false⟩

def receive (h : ExtractIteratorHandler) : Event F → ExtractIteratorHandler × Bool
  | .null | .bool _ | .int _ | .uint _ | .int64 _ | .uint64 _ | .double _ | .string _ =>
    if !h.firstObject then (h, false) else (h, true)
  | .startObject =>
    let h := if h.stack = 0 then { h with firstObject := true } else h
    ({ h with stack := h.stack + 1 }, true)
  | .key str =>
    if !h.firstObject then (h, false)
    else (if h.stack = 1 then { h with attributes := h.attributes ++ [str] } else h, true)
  | .endObject _ => ({ h with stack := h.stack - 1 }, true)
  | .startArray =>
    let h := if h.stack = 0 then { h with firstObject := true } else h
    ({ h with stack := h.stack + 1 }, true)
  | .endArray elementCount =>
    if !h.firstObject then (h, false)
    else
      let h := if h.stack = 1 then { h with arr_size := elementCount } else h
      ({ h with stack := h.stack - 1 }, true)

/-- The names that were listed; if there are none, the indices of an array. -/
def getAttributes (h : ExtractIteratorHandler) : List Str :=
  if h.attributes ≠ [] then h.attributes
  else (List.range h.arr_size).map fun i => ascii (toString i)

end ExtractIteratorHandler

/-- What `ANY`, `ALL` and `MAP` iterate over: the handler after `Accept`, which may have stopped. -/
def attributesOf (v : RJValue F) : List Str :=
  (Events.accept ExtractIteratorHandler.receive v .new).1.getAttributes

end iterator

/-! ### Below the top -/

/-- A handler that only keeps the depth: what it does at a state `Inside` of the top-level value and
one level deeper. -/
structure Nested (receive : σ → Event F → σ × Bool) (deeper : σ → σ) (Inside : σ → Prop) : Prop where
  inside : ∀ h, Inside h → Inside (deeper h)
  scalar : ∀ h e, Inside h → e.isScalar = true → receive h e = (h, true)
  startObject : ∀ h, Inside h → receive h .startObject = (deeper h, true)
  startArray : ∀ h, Inside h → receive h .startArray = (deeper h, true)
  key : ∀ h name, Inside h → receive (deeper h) (.key name) = (deeper h, true)
  endObject : ∀ h n, Inside h → receive (deeper h) (.endObject n) = (h, true)
  endArray : ∀ h n, Inside h → receive (deeper h) (.endArray n) = (h, true)

section Nested

variable {receive : σ → Event F → σ × Bool} {deeper : σ → σ} {Inside : σ → Prop}

mutual

/-- **A value below the top leaves the handler as it was.** -/
theorem Nested.passes_events (hn : Nested receive deeper Inside) : ∀ (v : RJValue F) (h : σ),
    Inside h → Passes receive h (events v) h
  | .null, h, hi => .single (hn.scalar h _ hi rfl)
  | .bool _, h, hi => .single (hn.scalar h _ hi rfl)
  | .number n, h, hi => .single (hn.scalar h _ hi (isScalar_numberEvent n))
  | .string _, h, hi => .single (hn.scalar h _ hi rfl)
  | .array vs, h, hi => by
    rw [events]
    refine .cons (hn.startArray h hi) (.append ?_ (.single (hn.endArray h _ hi)))
    exact hn.passes_elements vs (deeper h) (hn.inside h hi)
  | .object ms, h, hi => by
    rw [events]
    refine .cons (hn.startObject h hi) (.append ?_ (.single (hn.endObject h _ hi)))
    exact hn.passes_nestedMembers ms h hi

theorem Nested.passes_elements (hn : Nested receive deeper Inside) :
    ∀ (vs : List (RJValue F)) (h : σ), Inside h → Passes receive h (elementEvents vs) h
  | [], _, _ => .nil
  | v :: vs, h, hi => (hn.passes_events v h hi).append (hn.passes_elements vs h hi)

theorem Nested.passes_nestedMembers (hn : Nested receive deeper Inside) :
    ∀ (ms : List (Str × RJValue F)) (h : σ), Inside h →
      Passes receive (deeper h) (memberEvents ms) (deeper h)
  | [], _, _ => .nil
  | (name, v) :: ms, h, hi =>
    .cons (hn.key h name hi) ((hn.passes_events v (deeper h) (hn.inside h hi)).append
      (hn.passes_nestedMembers ms h hi))

end

/-- **The members at the top**: the handler takes note of each name and of nothing else. -/
theorem Nested.passes_members (hn : Nested receive deeper Inside) (Top : σ → Prop)
    (note : σ → Str → σ) (htop : ∀ h, Top h → Inside h)
    (hkey : ∀ h name, Top h → receive h (.key name) = (note h name, true) ∧ Top (note h name)) :
    ∀ (ms : List (Str × RJValue F)) (h : σ), Top h →
      Passes receive h (memberEvents ms) ((ms.map Prod.fst).foldl note h)
  | [], _, _ => .nil
  | (name, v) :: ms, h, ht => by
    obtain ⟨hreceive, hnext⟩ := hkey h name ht
    rw [memberEvents]
    exact .cons hreceive ((hn.passes_events v _ (htop _ hnext)).append
      (hn.passes_members Top note htop hkey ms _ hnext))

end Nested

/-! ### At the top -/

/-- The names of the members, where the value is an object. -/
def memberNames : RJValue F → Option (List Str)
  | .object ms => some (ms.map Prod.fst)
  | _ => none

/-- The answer to a value that is neither an array nor an object. -/
theorem unless_first (h : σ) (firstObject : Bool) :
    (if !firstObject then (h, false) else (h, true)) = (h, firstObject) := by
  cases firstObject <;> rfl

namespace membercount

open MemberCountHandler

theorem receive_scalar {e : Event F} (he : e.isScalar = true) (h : MemberCountHandler) :
    receive h e = (h, h.firstObject) := by
  cases e <;> first | exact unless_first h _ | simp [Event.isScalar] at he

theorem nested : Nested (F := F) receive (fun h => { h with stack := h.stack + 1 })
    (fun h => h.firstObject = true ∧ 1 ≤ h.stack) where
  inside h hi := ⟨hi.1, by have := hi.2; simp only; omega⟩
  scalar h e hi he := by rw [receive_scalar he, hi.1]
  startObject h hi := by
    have h0 : h.stack ≠ 0 := by have := hi.2; omega
    simp [receive, h0]
  startArray h hi := by simp [receive, hi.1]
  key h name hi := by
    have h1 : h.stack + 1 ≠ 1 := by have := hi.2; omega
    simp [receive, h1]
  endObject h n hi := by simp [receive]
  endArray h n hi := by simp [receive]

theorem foldl_note (names : List Str) (count : ℕ) :
    names.foldl (fun h _ => { h with count := h.count + 1 }) (⟨1, count, true⟩ : MemberCountHandler) =
      ⟨1, count + names.length, true⟩ := by
  induction names generalizing count with
  | nil => rfl
  | cons name names ih =>
    rw [List.foldl_cons, ih, List.length_cons, Nat.add_assoc, Nat.add_comm 1]

/-- At the end of an object the handler has counted its members. -/
theorem passes_object (ms : List (Str × RJValue F)) :
    Passes receive new (events (.object ms)) ⟨0, ms.length, true⟩ := by
  have hmembers := nested.passes_members (fun h => h.firstObject = true ∧ h.stack = 1)
    (fun h _ => { h with count := h.count + 1 }) (fun h ht => ⟨ht.1, by omega⟩)
    (fun h name ht => ⟨by simp [receive, ht.2], ht⟩) ms ⟨1, 0, true⟩ ⟨rfl, rfl⟩
  rw [foldl_note, Nat.zero_add, List.length_map] at hmembers
  rw [events]
  exact .cons rfl (hmembers.append (.single rfl))

theorem accept_memberNames (v : RJValue F) : MemberCountCalculator.accept v =
    (memberNames v).elim .null fun names => .number (.int names.length) := by
  unfold MemberCountCalculator.accept
  rw [accept_eq]
  cases v with
  | object ms =>
    rw [passes_object ms, memberNames, Option.elim_some, List.length_map]
    rfl
  | number n =>
    rw [events, feed_stop (receive_scalar (isScalar_numberEvent n) new)]
    rfl
  | null | bool | string | array => rfl

theorem pointer_memberNames (v : RJValue F) : MemberCountCalculator.pointer v =
    (memberNames v).elim .null fun names => .number (.int names.length) := by
  cases v with
  | object ms => rw [memberNames, Option.elim_some, List.length_map]; rfl
  | null | bool | number | string | array => rfl

end membercount

namespace listattributes

open ListAttributesHandler

theorem receive_scalar {e : Event F} (he : e.isScalar = true) (h : ListAttributesHandler) :
    receive h e = (h, h.firstObject) := by
  cases e <;> first | exact unless_first h _ | simp [Event.isScalar] at he

theorem nested : Nested (F := F) receive (fun h => { h with stack := h.stack + 1 })
    (fun h => h.firstObject = true ∧ 1 ≤ h.stack) where
  inside h hi := ⟨hi.1, by have := hi.2; simp only; omega⟩
  scalar h e hi he := by rw [receive_scalar he, hi.1]
  startObject h hi := by
    have h0 : h.stack ≠ 0 := by have := hi.2; omega
    simp [receive, h0]
  startArray h hi := by simp [receive, hi.1]
  key h name hi := by
    have h1 : h.stack + 1 ≠ 1 := by have := hi.2; omega
    simp [receive, hi.1, h1]
  endObject h n hi := by simp [receive]
  endArray h n hi := by simp [receive]

theorem foldl_note (names attributes : List Str) :
    names.foldl (fun h name => { h with attributes := h.attributes ++ [name] })
      (⟨attributes, 1, true⟩ : ListAttributesHandler) = ⟨attributes ++ names, 1, true⟩ := by
  induction names generalizing attributes with
  | nil => rw [List.foldl_nil, List.append_nil]
  | cons name names ih => rw [List.foldl_cons, ih, List.append_assoc, List.singleton_append]

/-- At the end of an object the handler has listed the names of its members. -/
theorem passes_object (ms : List (Str × RJValue F)) :
    Passes receive new (events (.object ms)) ⟨ms.map Prod.fst, 0, true⟩ := by
  have hmembers := nested.passes_members (fun h => h.firstObject = true ∧ h.stack = 1)
    (fun h name => { h with attributes := h.attributes ++ [name] })
    (fun h ht => ⟨ht.1, by omega⟩) (fun h name ht => ⟨by simp [receive, ht.1, ht.2], ht⟩) ms
    ⟨[], 1, true⟩ ⟨rfl, rfl⟩
  rw [foldl_note, List.nil_append] at hmembers
  rw [events]
  exact .cons rfl (hmembers.append (.single rfl))

theorem accept_memberNames (v : RJValue F) : ListAttributesCalculator.accept v =
    (memberNames v).elim .null fun names => .array (names.map .string) := by
  unfold ListAttributesCalculator.accept
  rw [accept_eq]
  cases v with
  | object ms => rw [passes_object ms]; rfl
  | number n =>
    rw [events, feed_stop (receive_scalar (isScalar_numberEvent n) new)]
    rfl
  | null | bool | string | array => rfl

theorem pointer_memberNames (v : RJValue F) : ListAttributesCalculator.pointer v =
    (memberNames v).elim .null fun names => .array (names.map .string) := by
  cases v with
  | object ms =>
    rw [memberNames, Option.elim_some, List.map_map]
    rfl
  | null | bool | number | string | array => rfl

end listattributes

namespace iterator

open ExtractIteratorHandler

theorem receive_scalar {e : Event F} (he : e.isScalar = true) (h : ExtractIteratorHandler) :
    receive h e = (h, h.firstObject) := by
  cases e <;> first | exact unless_first h _ | simp [Event.isScalar] at he

theorem nested : Nested (F := F) receive (fun h => { h with stack := h.stack + 1 })
    (fun h => h.firstObject = true ∧ 1 ≤ h.stack) where
  inside h hi := ⟨hi.1, by have := hi.2; simp only; omega⟩
  scalar h e hi he := by rw [receive_scalar he, hi.1]
  startObject h hi := by
    have h0 : h.stack ≠ 0 := by have := hi.2; omega
    simp [receive, h0]
  startArray h hi := by
    have h0 : h.stack ≠ 0 := by have := hi.2; omega
    simp [receive, h0]
  key h name hi := by
    have h1 : h.stack + 1 ≠ 1 := by have := hi.2; omega
    simp [receive, hi.1, h1]
  endObject h n hi := by simp [receive]
  endArray h n hi := by
    obtain ⟨attributes, arr_size, stack, firstObject⟩ := h
    obtain ⟨rfl, hstack⟩ := hi
    have h1 : stack + 1 ≠ 1 := by have : 1 ≤ stack := hstack; omega
    simp [receive, h1]

theorem foldl_note (names attributes : List Str) :
    names.foldl (fun h name => { h with attributes := h.attributes ++ [name] })
      (⟨attributes, 0, 1, true⟩ : ExtractIteratorHandler) = ⟨attributes ++ names, 0, 1, true⟩ := by
  induction names generalizing attributes with
  | nil => rw [List.foldl_nil, List.append_nil]
  | cons name names ih => rw [List.foldl_cons, ih, List.append_assoc, List.singleton_append]

theorem passes_object (ms : List (Str × RJValue F)) :
    Passes receive new (events (.object ms)) ⟨ms.map Prod.fst, 0, 0, true⟩ := by
  have hmembers := nested.passes_members (fun h => h.firstObject = true ∧ h.stack = 1)
    (fun h name => { h with attributes := h.attributes ++ [name] })
    (fun h ht => ⟨ht.1, by omega⟩) (fun h name ht => ⟨by simp [receive, ht.1, ht.2], ht⟩) ms
    ⟨[], 0, 1, true⟩ ⟨rfl, rfl⟩
  rw [foldl_note, List.nil_append] at hmembers
  rw [events]
  exact .cons rfl (hmembers.append (.single rfl))

/-- Only the end of the array at the top sets the size. -/
theorem passes_array (vs : List (RJValue F)) :
    Passes receive new (events (.array vs)) ⟨[], vs.length, 0, true⟩ := by
  rw [events]
  exact .cons rfl ((nested.passes_elements vs ⟨[], 0, 1, true⟩ ⟨rfl, Int.le_refl 1⟩).append
    (.single rfl))

/-- What a value is iterated over: the names of its members, the indices of its elements. -/
def keys : RJValue F → List Str
  | .object ms => ms.map Prod.fst
  | .array vs => (List.range vs.length).map fun i => ascii (toString i)
  | _ => []

theorem attributesOf_eq (v : RJValue F) : attributesOf v = keys v := by
  unfold attributesOf
  rw [accept_eq]
  cases v with
  | object ms =>
    rw [passes_object ms, getAttributes, keys]
    by_cases h : ms.map Prod.fst = []
    · rw [if_neg (not_not.mpr h), h]
      rfl
    · rw [if_pos h]
  | array vs =>
    rw [passes_array vs]
    rfl
  | number n =>
    rw [events, feed_stop (receive_scalar (isScalar_numberEvent n) new)]
    rfl
  | null | bool | string => rfl

end iterator

/-- **The handlers agree with the value**: `MEMCOUNT` and `LISTATTRIBUTES` answer the same for the
events as for the value itself, with the number and the names of the members of an object and `null`
for anything else, and the iterating functions run over its names or indices. -/
theorem handlers_agree (v : RJValue F) :
    (membercount.MemberCountCalculator.accept v =
        (memberNames v).elim .null fun names => .number (.int names.length)) ∧
      membercount.MemberCountCalculator.pointer v = membercount.MemberCountCalculator.accept v ∧
      (listattributes.ListAttributesCalculator.accept v =
        (memberNames v).elim .null fun names => .array (names.map .string)) ∧
      listattributes.ListAttributesCalculator.pointer v =
        listattributes.ListAttributesCalculator.accept v ∧
      iterator.attributesOf v = iterator.keys v := by
  refine ⟨membercount.accept_memberNames v, ?_, listattributes.accept_memberNames v, ?_,
    iterator.attributesOf_eq v⟩
  · rw [membercount.accept_memberNames, membercount.pointer_memberNames]
  · rw [listattributes.accept_memberNames, listattributes.pointer_memberNames]

end Joda.Values.Handlers
