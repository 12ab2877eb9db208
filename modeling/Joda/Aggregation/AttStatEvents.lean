import Joda.Aggregation.Aggregator
import Joda.Similarity.Paths

/-! # The handler of the attribute statistics

`AttStatHandler` gets the events of a value. It stands at a node: a key, or an element of an array, takes
it to the node of the member or element, which is added if it is missing, and the end of a value takes it
back to the parent. `addValue` is what the events of a value make of its node (`passes_events`); so the
handler has the statistics of the aggregator after any documents (`run_attStat`).

A pointer to a node is the way to it from the root. The nodes lie in vectors, which move them when they
grow; but a vector only grows while the handler stands at the node that owns it, and `findChild` and
`findArrElt` renew the pointer to the parent. -/

namespace Joda.Aggregation.AttStatEvents

open Joda.Lib.Feed Joda.Lib.Table Joda.Values.Value Joda.Values.Events Joda.Values.Provider
open Joda.Aggregation.AttributeStat
open Joda.Similarity.Paths (Step)

variable {F : Type}

/-! ### The handler -/

/-- An open array or object; the elements of an array are counted. -/
structure Level where
  isArr : Bool
  count : ℕ

/-- **`AttStatHandler`** The way to `currnode` has the last step first; the parent of the root is the null
pointer. The last of the `levels` is the first element. -/
structure AttStatHandler (F : Type) where
  root : Node F
  currnode : Option (List Step)
  levels : List Level

def onStats (f : Stats F → Stats F) : Node F → Node F
  | .mk name stats children arrMembers => .mk name (f stats) children arrMembers

def onChildren (f : List (Node F) → List (Node F)) : Node F → Node F
  | .mk name stats children arrMembers => .mk name stats (f children) arrMembers

def onElements (f : List (Node F) → List (Node F)) : Node F → Node F
  | .mk name stats children arrMembers => .mk name stats children (f arrMembers)

/-- The first child of a name is changed. -/
def atFirst (name : Str) (f : Node F → Node F) : List (Node F) → List (Node F)
  | [] => []
  | c :: cs => if c.name = name then f c :: cs else c :: atFirst name f cs

/-- The node one step below is changed. -/
def below : Step → (Node F → Node F) → Node F → Node F
  | .member name, f => onChildren (atFirst name f)
  | .element i, f => onElements (·.modify i f)

/-- The node at the end of a way is changed. -/
def atPath : List Step → (Node F → Node F) → Node F → Node F
  | [], f => f
  | step :: path, f => atPath path (below step f)

/-- The node that is missing on the way is added. -/
def find : Step → Node F → Node F
  | .member name => onChildren (atChild name id)
  | .element i => onElements (atElement i id)

def parent : List Step → Option (List Step)
  | [] => none
  | _ :: path => some path

/-- What an event counts at the current node. -/
def note [LinearOrder F] : Event F → Stats F → Stats F
  | .null, s => { s with count_null := s.count_null + 1 }
  | .bool b, s => { s with
      count_bool := s.count_bool + 1
      count_true := if b then s.count_true + 1 else s.count_true
      count_false := if b then s.count_false else s.count_false + 1 }
  | .int i, s | .uint i, s | .int64 i, s => { s with
      count_int := s.count_int + 1, int := widen s.int (some (i, i)) }
  | .uint64 i, s => { s with
      count_int := s.count_int + 1
      int := widen s.int (some (i.bmod (2 ^ 64), i.bmod (2 ^ 64))) }
  | .double d, s => { s with
      count_double := s.count_double + 1, double := widen s.double (some (d, d)) }
  | .string str, s => { s with
      count_str := s.count_str + 1, strsize := widen s.strsize (some (str.length, str.length)) }
  | .startObject, s => { s with count_obj := s.count_obj + 1 }
  | .endObject memberCount, s => { s with
      member := widen s.member (some (memberCount, memberCount)) }
  | .startArray, s => { s with count_arr := s.count_arr + 1 }
  | .endArray elementCount, s => { s with size := widen s.size (some (elementCount, elementCount)) }
  | .key _, s => s

namespace AttStatHandler

/-! A null pointer is not followed: there is no result. -/

/-- `findChild` and `findArrElt` of the current node. -/
def enter (step : Step) (h : AttStatHandler F) : Option (AttStatHandler F) :=
  h.currnode.map fun path =>
    { h with root := atPath path (find step) h.root, currnode := some (step :: path) }

def checkArray (h : AttStatHandler F) : Option (AttStatHandler F) :=
  match h.levels with
  | ⟨true, count⟩ :: levels => { h with levels := ⟨true, count + 1⟩ :: levels }.enter (.element count)
  | _ => some h

def finishValue (h : AttStatHandler F) : Option (AttStatHandler F) :=
  h.currnode.map fun path => { h with currnode := parent path }

def push (isArr : Bool) (h : AttStatHandler F) : AttStatHandler F :=
  { h with levels := ⟨isArr, 0⟩ :: h.levels }

def pop (h : AttStatHandler F) : AttStatHandler F := { h with levels := h.levels.tail }

/-- The handler at the root: `AttStatHandler()`, and after `finishDocument`. -/
def finishDocument (h : AttStatHandler F) : AttStatHandler F :=
  { h with currnode := some [], levels := [] }

variable [LinearOrder F]

def count (e : Event F) (h : AttStatHandler F) : Option (AttStatHandler F) :=
  h.currnode.map fun path => { h with root := atPath path (onStats (note e)) h.root }

def step (e : Event F) (h : AttStatHandler F) : Option (AttStatHandler F) :=
  match e with
  | .startObject => (h.checkArray.bind (count e)).map (push false)
  | .startArray => (h.checkArray.bind (count e)).map (push true)
  | .key str => h.enter (.member str)
  | .endObject _ | .endArray _ => ((h.count e).bind finishValue).map pop
  | e => (h.checkArray.bind (count e)).bind finishValue

/-- No event stops the sender. -/
def receive (h : Option (AttStatHandler F)) (e : Event F) : Option (AttStatHandler F) × Bool :=
  (h.bind (step e), true)

/-- **`accumulate`** with the value of the parameter, if there is one. -/
def accumulate (value : Option (RJValue F)) (h : AttStatHandler F) : Option (AttStatHandler F) :=
  (value.elim (some h) fun v => (accept receive v (some h)).1).map finishDocument

end AttStatHandler

open AttStatHandler

/-! ### Nodes on the way -/

/-- What is done with a node leaves its name. -/
def KeepsName (f : Node F → Node F) : Prop := ∀ node, (f node).name = node.name

theorem keepsName_onStats (f : Stats F → Stats F) : KeepsName (onStats f) := by
  intro node
  cases node
  rfl

theorem keepsName_onChildren (f : List (Node F) → List (Node F)) : KeepsName (onChildren f) := by
  intro node
  cases node
  rfl

theorem keepsName_onElements (f : List (Node F) → List (Node F)) : KeepsName (onElements f) := by
  intro node
  cases node
  rfl

theorem keepsName_below (step : Step) (f : Node F → Node F) : KeepsName (below step f) := by
  cases step with
  | member name => exact keepsName_onChildren _
  | element i => exact keepsName_onElements _

theorem KeepsName.comp {f g : Node F → Node F} (hf : KeepsName f) (hg : KeepsName g) :
    KeepsName (f ∘ g) := fun node => (hf (g node)).trans (hg node)

theorem onChildren_onChildren (f g : List (Node F) → List (Node F)) :
    onChildren f ∘ onChildren g = onChildren (f ∘ g) := by
  funext node
  cases node
  rfl

theorem onElements_onElements (f g : List (Node F) → List (Node F)) :
    onElements f ∘ onElements g = onElements (f ∘ g) := by
  funext node
  cases node
  rfl

theorem onChildren_id : onChildren (F := F) id = id := by
  funext node
  cases node
  rfl

theorem onElements_id : onElements (F := F) id = id := by
  funext node
  cases node
  rfl

theorem atFirst_atFirst {name : Str} {f g : Node F → Node F} (hg : KeepsName g) (cs : List (Node F)) :
    atFirst name f (atFirst name g cs) = atFirst name (f ∘ g) cs := by
  induction cs with
  | nil => rfl
  | cons c cs ih =>
    by_cases hc : c.name = name
    · have hgc : (g c).name = name := (hg c).trans hc
      simp only [atFirst, if_pos hc, if_pos hgc, Function.comp_apply]
    · simp only [atFirst, if_neg hc, ih]

theorem below_below {step : Step} {f g : Node F → Node F} (hg : KeepsName g) :
    below step f ∘ below step g = below step (f ∘ g) := by
  cases step with
  | member name =>
    unfold below
    rw [onChildren_onChildren]
    exact congrArg onChildren (funext (atFirst_atFirst hg))
  | element i =>
    unfold below
    rw [onElements_onElements]
    exact congrArg onElements (funext fun arrMembers => List.modify_modify_eq g f i arrMembers)

/-- **Twice at the end of a way.** -/
theorem atPath_atPath {f g : Node F → Node F} (hg : KeepsName g) (path : List Step) (root : Node F) :
    atPath path f (atPath path g root) = atPath path (f ∘ g) root := by
  induction path generalizing f g with
  | nil => rfl
  | cons step path ih =>
    show atPath path (below step f) (atPath path (below step g) root) = atPath path _ root
    rw [ih (keepsName_below step g), below_below hg]

theorem atChild_cons (name : Str) (f : Node F → Node F) (c : Node F) (cs : List (Node F)) :
    atChild name f (c :: cs) = if c.name = name then f c :: cs else c :: atChild name f cs := rfl

/-- The child that was found is changed. -/
theorem atFirst_atChild (name : Str) (f : Node F → Node F) (children : List (Node F)) :
    atFirst name f (atChild name id children) = atChild name f children := by
  induction children with
  | nil =>
    show (if name = name then [f (.empty name)] else _) = [f (.empty name)]
    rw [if_pos rfl]
  | cons c cs ih =>
    rw [atChild_cons, atChild_cons]
    by_cases hc : c.name = name
    · rw [if_pos hc, if_pos hc, atFirst, id_eq, if_pos hc]
    · rw [if_neg hc, if_neg hc, atFirst, if_neg hc, ih]

theorem modify_atElement {i : ℕ} (f : Node F → Node F) {arrMembers : List (Node F)}
    (hi : i ≤ arrMembers.length) :
    (atElement i id arrMembers).modify i f = atElement i f arrMembers := by
  unfold atElement
  split_ifs with hlt
  · rw [List.modify_id]
  · obtain rfl : i = arrMembers.length := by omega
    rw [List.modify_eq_take_drop, List.take_left, List.drop_left]
    rfl

/-! ### What is counted -/

section Count

variable [LinearOrder F]

/-- Within `int64_t` the cast changes nothing. -/
theorem bmod_eq_self {z : ℤ} (hlo : -2 ^ 63 ≤ z) (hhi : z < 2 ^ 63) : z.bmod (2 ^ 64) = z :=
  Int.bmod_eq_of_le (by omega) (by omega)

/-- **The event of a number counts the number.** -/
theorem note_numberEvent (n : Number F) (s : Stats F) :
    note (numberEvent n) s = s.merge (statOf (.number n)) := by
  cases n with
  | int z =>
    simp only [numberEvent]
    split_ifs with hint huint hint64
    · have hz : z.bmod (2 ^ 64) = z := bmod_eq_self (by omega) (by omega)
      rw [statOf, hz]
      simp [note, Stats.merge, Stats.zero]
    · have hz : z.bmod (2 ^ 64) = z := bmod_eq_self (by omega) (by omega)
      rw [statOf, hz]
      simp [note, Stats.merge, Stats.zero]
    · have hz : z.bmod (2 ^ 64) = z := bmod_eq_self hint64.1 hint64.2
      rw [statOf, hz]
      simp [note, Stats.merge, Stats.zero]
    · simp [note, statOf, Stats.merge, Stats.zero]
  | double x => simp [numberEvent, note, statOf, Stats.merge, Stats.zero]

/-- The start and the end of an array count it, whatever happens to the node between them. -/
theorem note_array (vs : List (RJValue F)) (s : Stats F) :
    note (.endArray vs.length) (note .startArray s) = s.merge (statOf (.array vs)) := by
  simp [note, statOf, Stats.merge, Stats.zero]

theorem note_object (ms : List (Str × RJValue F)) (s : Stats F) :
    note (.endObject ms.length) (note .startObject s) = s.merge (statOf (.object ms)) := by
  simp [note, statOf, Stats.merge, Stats.zero]

end Count

/-! ### Members and elements -/

/-- A member that was found, and what is done with its node. -/
theorem below_find_member (name : Str) (f : Node F → Node F) :
    below (.member name) f ∘ find (.member name) = onChildren (atChild name f) := by
  unfold below find
  rw [onChildren_onChildren]
  exact congrArg onChildren (funext (atFirst_atChild name f))

def elementCount : Node F → ℕ
  | .mk _ _ _ arrMembers => arrMembers.length

/-- An element that was found: the one after the last, at most. -/
theorem below_find_element {i : ℕ} (f : Node F → Node F) {node : Node F} (hi : i ≤ elementCount node) :
    below (.element i) f (find (.element i) node) = onElements (atElement i f) node := by
  obtain ⟨name, stats, children, arrMembers⟩ := node
  exact congrArg (Node.mk name stats children) (modify_atElement f hi)

theorem elementCount_atElement {i : ℕ} (f : Node F → Node F) {node : Node F}
    (hi : i ≤ elementCount node) : i + 1 ≤ elementCount (onElements (atElement i f) node) := by
  obtain ⟨name, stats, children, arrMembers⟩ := node
  show i + 1 ≤ (atElement i f arrMembers).length
  change i ≤ arrMembers.length at hi
  unfold atElement
  split_ifs with hlt
  · rw [List.length_modify]
    exact hlt
  · rw [List.length_append, List.length_singleton]
    omega

theorem keepsName_find (step : Step) : KeepsName (find (F := F) step) := by
  cases step with
  | member name => exact keepsName_onChildren _
  | element i => exact keepsName_onElements _

/-! ### The run -/

variable [LinearOrder F]

/-- A value of one event: its node is found, counted and left. -/
theorem receive_scalar {e : Event F} (he : e.isScalar = true) {h : AttStatHandler F} {root : Node F}
    {path : List Step} {levels : List Level} (hcheck : h.checkArray = some ⟨root, some path, levels⟩) :
    receive (some h) e = (some ⟨atPath path (onStats (note e)) root, parent path, levels⟩, true) := by
  have hstep : step e h = (h.checkArray.bind (count e)).bind finishValue := by
    cases e <;> first | rfl | cases he
  show (step e h, true) = _
  rw [hstep, hcheck]
  rfl

/-- The start of an array or an object. -/
theorem receive_start {e : Event F} {isArr : Bool}
    (he : ∀ h : AttStatHandler F, step e h = (h.checkArray.bind (count e)).map (push isArr))
    {h : AttStatHandler F} {root : Node F} {path : List Step} {levels : List Level}
    (hcheck : h.checkArray = some ⟨root, some path, levels⟩) :
    receive (some h) e =
      (some ⟨atPath path (onStats (note e)) root, some path, ⟨isArr, 0⟩ :: levels⟩, true) := by
  show (step e h, true) = _
  rw [he, hcheck]
  rfl

theorem addValue_scalar {v : RJValue F} {e : Event F}
    (hadd : ∀ name stats children arrMembers, addValue v (.mk name stats children arrMembers) =
      .mk name (stats.merge (statOf v)) children arrMembers)
    (hnote : ∀ s, note e s = s.merge (statOf v)) : onStats (note e) = addValue v := by
  funext node
  obtain ⟨name, stats, children, arrMembers⟩ := node
  rw [hadd, onStats, hnote]

mutual

/-- **The events of a value are added to its node**, and the handler is at the parent again. The
induction is on the value; the node is the one that `checkArray` leads to. -/
theorem passes_events : ∀ (v : RJValue F) {h : AttStatHandler F} {root : Node F} {path : List Step}
    {levels : List Level}, h.checkArray = some ⟨root, some path, levels⟩ →
    Passes receive (some h) (events v) (some ⟨atPath path (addValue v) root, parent path, levels⟩)
  | .null, h, root, path, levels, hcheck => by
    rw [← addValue_scalar (e := .null) (fun _ _ _ _ => rfl) (fun s => by
      simp [note, statOf, Stats.merge, Stats.zero])]
    exact .single (receive_scalar rfl hcheck)
  | .bool b, h, root, path, levels, hcheck => by
    rw [← addValue_scalar (e := .bool b) (fun _ _ _ _ => rfl) (fun s => by
      cases b <;> simp [note, statOf, Stats.merge, Stats.zero])]
    exact .single (receive_scalar rfl hcheck)
  | .number n, h, root, path, levels, hcheck => by
    rw [← addValue_scalar (fun _ _ _ _ => rfl) (note_numberEvent n)]
    exact .single (receive_scalar (isScalar_numberEvent n) hcheck)
  | .string str, h, root, path, levels, hcheck => by
    rw [← addValue_scalar (e := .string str) (fun _ _ _ _ => rfl) (fun s => by
      simp [note, statOf, Stats.merge, Stats.zero])]
    exact .single (receive_scalar rfl hcheck)
  | .array vs, h, root, path, levels, hcheck => by
    have helements := passes_elements vs root path levels 0 (keepsName_onStats (note .startArray))
      fun _ => Nat.zero_le _
    refine .cons (receive_start (fun _ => rfl) hcheck) (helements.append (.single ?_))
    have hadd : onStats (note (.endArray vs.length)) ∘
        (onElements (addElements vs 0) ∘ onStats (note .startArray)) = addValue (.array vs) := by
      funext node
      obtain ⟨name, stats, children, arrMembers⟩ := node
      show Node.mk name (note _ (note _ stats)) _ _ = _
      rw [note_array, addValue]
    rw [← hadd, ← atPath_atPath ((keepsName_onElements _).comp (keepsName_onStats _))]
    rfl
  | .object ms, h, root, path, levels, hcheck => by
    have hmembers := passes_members ms root path levels 0
      (keepsName_onStats (note .startObject))
    refine .cons (receive_start (fun _ => rfl) hcheck) (hmembers.append (.single ?_))
    have hadd : onStats (note (.endObject ms.length)) ∘
        (onChildren (addMembers ms) ∘ onStats (note .startObject)) =
          addValue (.object ms) := by
      funext node
      obtain ⟨name, stats, children, arrMembers⟩ := node
      show Node.mk name (note _ (note _ stats)) _ _ = _
      rw [note_object, addValue]
    rw [← hadd, ← atPath_atPath ((keepsName_onChildren _).comp (keepsName_onStats _))]
    rfl

theorem passes_elements : ∀ (vs : List (RJValue F)) (root : Node F) (path : List Step)
    (levels : List Level) (i : ℕ) {g : Node F → Node F}, KeepsName g →
    (∀ node, i ≤ elementCount (g node)) →
    Passes receive (some ⟨atPath path g root, some path, ⟨true, i⟩ :: levels⟩) (elementEvents vs)
      (some ⟨atPath path (onElements (addElements vs i) ∘ g) root, some path,
        ⟨true, i + vs.length⟩ :: levels⟩)
  | [], root, path, levels, i, g, _, _ => by
    have hadd : addElements (F := F) [] i = id := rfl
    rw [hadd, onElements_id]
    exact .nil
  | v :: vs, root, path, levels, i, g, hname, hcount => by
    -- The element is found below the node, and its value is added there.
    have hfound : atPath path (below (.element i) (addValue v))
        (atPath path (find (.element i)) (atPath path g root)) =
          atPath path (onElements (atElement i (addValue v)) ∘ g) root := by
      rw [atPath_atPath hname, atPath_atPath ((keepsName_find _).comp hname)]
      exact congrArg (atPath path · root) (funext fun node => below_find_element _ (hcount node))
    have hcheck : checkArray ⟨atPath path g root, some path, ⟨true, i⟩ :: levels⟩ =
        some ⟨atPath path (find (.element i)) (atPath path g root), some (.element i :: path),
          ⟨true, i + 1⟩ :: levels⟩ := rfl
    have hv := passes_events v hcheck
    have hvs := passes_elements vs root path levels (i + 1)
      (g := onElements (atElement i (addValue v)) ∘ g) ((keepsName_onElements _).comp hname)
      fun node => elementCount_atElement _ (hcount node)
    have hadd : onElements (addElements (v :: vs) i) =
        onElements (addElements vs (i + 1)) ∘ onElements (atElement i (addValue v)) :=
      (onElements_onElements _ _).symm
    rw [← hfound] at hvs
    rw [List.length_cons, Nat.add_comm vs.length 1, ← Nat.add_assoc, hadd]
    exact hv.append hvs

theorem passes_members : ∀ (ms : List (Str × RJValue F)) (root : Node F) (path : List Step)
    (levels : List Level) (i : ℕ) {g : Node F → Node F}, KeepsName g →
    Passes receive (some ⟨atPath path g root, some path, ⟨false, i⟩ :: levels⟩) (memberEvents ms)
      (some ⟨atPath path (onChildren (addMembers ms) ∘ g) root, some path,
        ⟨false, i⟩ :: levels⟩)
  | [], root, path, levels, i, g, _ => by
    have hadd : addMembers (F := F) [] = id := rfl
    rw [hadd, onChildren_id]
    exact .nil
  | (name, v) :: ms, root, path, levels, i, g, hname => by
    have hfound : atPath path (below (.member name) (addValue v))
        (atPath path (find (.member name)) (atPath path g root)) =
          atPath path (onChildren (atChild name (addValue v)) ∘ g) root := by
      rw [atPath_atPath hname, atPath_atPath ((keepsName_find _).comp hname), ← below_find_member]
      rfl
    have hcheck : checkArray ⟨atPath path (find (.member name)) (atPath path g root),
        some (.member name :: path), ⟨false, i⟩ :: levels⟩ =
          some ⟨atPath path (find (.member name)) (atPath path g root), some (.member name :: path),
            ⟨false, i⟩ :: levels⟩ := rfl
    have hv := passes_events v hcheck
    have hms := passes_members ms root path levels i
      (g := onChildren (atChild name (addValue v)) ∘ g) ((keepsName_onChildren _).comp hname)
    have hadd : onChildren (addMembers ((name, v) :: ms)) =
        onChildren (addMembers ms) ∘ onChildren (atChild name (addValue v)) :=
      (onChildren_onChildren _ _).symm
    rw [← hfound] at hms
    rw [hadd]
    exact .cons rfl (hv.append hms)

end

/-- **The statistics of a value**: the handler is at the root before and after it. -/
theorem accumulate_eq (value : Option (RJValue F)) (root : Node F) :
    (AttStatHandler.mk root (some []) []).accumulate value =
      some ⟨value.elim root fun v => addValue v root, some [], []⟩ := by
  cases value with
  | none => rfl
  | some v =>
    have hv := passes_events v (h := ⟨root, some [], []⟩) rfl
    show ((accept receive v (some ⟨root, some [], []⟩)).1).map finishDocument = _
    rw [accept_eq, hv]
    rfl

section Run

variable {D : Type} [Double F] [RapidJsonDocument D F] [AddCommMonoid F] [Aggregator.Library F]

theorem foldlM_accumulate (toPointer : Str) (params : List (IValueProvider D F)) (docs : List D)
    (root : Node F) :
    ∃ root', docs.foldl (fun s json =>
        Aggregator.accumulate (.basic .attStat toPointer params) json s)
          (.basic (.attStat root)) = .basic (.attStat root') ∧
      docs.foldlM (fun h json => h.accumulate (Aggregator.accepted params json))
        (AttStatHandler.mk root (some []) []) = some ⟨root', some [], []⟩ := by
  induction docs generalizing root with
  | nil => exact ⟨root, rfl, rfl⟩
  | cons json docs ih =>
    obtain ⟨root', hfold, hrun⟩ := ih ((Aggregator.accepted params json).elim root (addValue · root))
    refine ⟨root', hfold, ?_⟩
    rw [List.foldlM_cons, accumulate_eq]
    exact hrun

/-- **The handler of an aggregator** holds, after any documents, the statistics that the aggregator has
for them, and no null pointer was followed. -/
theorem run_attStat (toPointer : Str) (params : List (IValueProvider D F)) (docs : List D) :
    ∃ root, Aggregator.run (.basic .attStat toPointer params) docs = .basic (.attStat root) ∧
      docs.foldlM (fun h json => h.accumulate (Aggregator.accepted params json))
        (AttStatHandler.mk (.empty []) (some []) []) = some ⟨root, some [], []⟩ :=
  foldlM_accumulate toPointer params docs (.empty [])

end Run

end Joda.Aggregation.AttStatEvents
