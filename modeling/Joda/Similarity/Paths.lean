import Joda.Values.Events

/-! # The paths of a document

`RJPathsReader` collects the paths of the members of a document from its events. It keeps the names on
the way to the current value on `stack`, and for each open array the index of the current element on
`arrStack`, with `-1` for each open object. Between two values the top of `stack` is the name or index
of the value that is to come, so a value of any kind takes it off and, in an array, puts the next index
on (`passes_events`). -/

namespace Joda.Similarity.Paths

open Joda.Lib.Feed Joda.Values.Value Joda.Values.Events

variable {F : Type}

/-! ### The reader -/

/-- **`RJPathsReader`** The top of a stack is its last element. -/
structure RJPathsReader where
  stack : List Str
  paths : List Str
  arrStack : List ℤ

namespace RJPathsReader

/-- The reader of the constructor, and after `clear`. -/
def new : RJPathsReader := ⟨[], [], []⟩

def addStack (r : RJPathsReader) (str : Str) : RJPathsReader := { r with stack := r.stack ++ [str] }

def popStack (r : RJPathsReader) : RJPathsReader := { r with stack := r.stack.dropLast }

def addArray (r : RJPathsReader) : RJPathsReader :=
  { r with arrStack := r.arrStack ++ [0] }.addStack (ascii (toString (0 : ℤ)))

def incArray (r : RJPathsReader) : RJPathsReader :=
  match r.arrStack.getLast? with
  | none => r
  | some i =>
    if 0 ≤ i then
      { r with arrStack := r.arrStack.dropLast ++ [i + 1] }.addStack (ascii (toString (i + 1)))
    else r

def stopArray (r : RJPathsReader) : RJPathsReader := { r with arrStack := r.arrStack.dropLast }

def addPath (r : RJPathsReader) : RJPathsReader :=
  { r with paths := r.paths ++ [r.stack.flatMap fun item => ascii "/" ++ item] }

/-- `Null`, `Bool`, the numbers and `String`. -/
def scalar (r : RJPathsReader) : RJPathsReader := r.popStack.incArray

def receive (r : RJPathsReader) : Event F → RJPathsReader × Bool
  | .null | .bool _ | .int _ | .uint _ | .int64 _ | .uint64 _ | .double _ | .string _ =>
    (r.scalar, true)
  | .startObject => ({ r with arrStack := r.arrStack ++ [-1] }, true)
  | .key str => ((r.addStack str).addPath, true)
  | .endObject _ => (r.popStack.stopArray.incArray, true)
  | .startArray => (r.addArray, true)
  | .endArray _ => (r.stopArray.popStack.popStack.incArray, true)

def getPaths (r : RJPathsReader) : List Str := r.paths

end RJPathsReader

open RJPathsReader

/-! ### The paths of a value -/

/-- A step from a value to a member or an element of it. -/
inductive Step where
  | member (name : Str)
  | element (i : ℕ)

/-- The name of a member, the index of an element. -/
def Step.text : Step → Str
  | member name => name
  | element i => ascii (toString i)

/-- The steps joined with `/`. -/
def pathText (p : List Step) : Str := p.flatMap fun step => ascii "/" ++ step.text

mutual

/-- The ways from a value to the members of objects in it, in document order. -/
def members : RJValue F → List (List Step)
  | .array vs => elementsFrom 0 vs
  | .object ms => ownMembers ms
  | .null | .bool _ | .number _ | .string _ => []

/-- The ways through the elements of an array from an index on. -/
def elementsFrom (i : ℕ) : List (RJValue F) → List (List Step)
  | [] => []
  | v :: vs => (members v).map (.element i :: ·) ++ elementsFrom (i + 1) vs

/-- Each member of an object and the ways through it. -/
def ownMembers : List (Str × RJValue F) → List (List Step)
  | [] => []
  | (name, v) :: ms => [.member name] :: ((members v).map (.member name :: ·) ++ ownMembers ms)

end

/-! ### The simulation -/

theorem receive_scalar {e : Event F} (he : e.isScalar = true) (r : RJPathsReader) :
    r.receive e = (r.scalar, true) := by
  cases e <;> first | rfl | cases he

/-- The reader with the paths of the ways `ps` added, from the value its stack leads to. -/
def added (r : RJPathsReader) (ps : List (List Step)) : RJPathsReader :=
  { r with paths := r.paths ++ ps.map fun p =>
      r.stack.flatMap (fun item => ascii "/" ++ item) ++ pathText p }

@[simp] theorem added_nil (r : RJPathsReader) : added r [] = r := by simp [added]

theorem added_append (r : RJPathsReader) (ps qs : List (List Step)) :
    added r (ps ++ qs) = added (added r ps) qs := by
  simp [added]

/-- The reader in an array, where the element `i` is to come. -/
def inArray (r : RJPathsReader) (i : ℕ) : RJPathsReader :=
  { r with arrStack := r.arrStack ++ [(i : ℤ)] }.addStack (Step.element i).text

/-- The reader in an object, where a key or the end is to come. -/
def inObject (r : RJPathsReader) : RJPathsReader := { r with arrStack := r.arrStack ++ [-1] }

/-- After an element with the ways `ps` the next one is to come. -/
theorem scalar_inArray (r : RJPathsReader) (i : ℕ) (ps : List (List Step)) :
    (added (inArray r i) ps).scalar = inArray (added r (ps.map (.element i :: ·))) (i + 1) := by
  have hi : (0 : ℤ) ≤ i := Int.natCast_nonneg i
  have htext : toString ((i : ℤ) + 1) = toString (i + 1) := rfl
  simp [inArray, added, scalar, popStack, incArray, addStack, hi, htext, pathText,
    Function.comp_def, Step.text]

/-- After a member with the ways `ps` the next key is to come. -/
theorem scalar_inObject (r : RJPathsReader) (name : Str) (ps : List (List Step)) :
    (added ((inObject r).addStack name).addPath ps).scalar =
      inObject (added r ([.member name] :: ps.map (.member name :: ·))) := by
  simp [inObject, added, scalar, popStack, incArray, addStack, addPath, pathText,
    Function.comp_def, Step.text]

/-- Where an array ends, its index and its own name are taken off. -/
theorem endArray_inArray (r : RJPathsReader) (i : ℕ) :
    (inArray r i).stopArray.popStack.popStack.incArray = r.scalar := by
  simp [inArray, stopArray, popStack, addStack, scalar]

theorem endObject_inObject (r : RJPathsReader) :
    (inObject r).popStack.stopArray.incArray = r.scalar := by
  simp [inObject, stopArray, popStack, scalar]

mutual

/-- **A value takes its name off the stack**, counts in the array it is in, and adds the paths of its
members. The induction is on the value; the reader may be anywhere in a document. -/
theorem passes_events : ∀ (v : RJValue F) (r : RJPathsReader),
    Passes receive r (events v) (added r (members v)).scalar
  | .null, r => by
    rw [members, added_nil]
    exact .single (receive_scalar rfl r)
  | .bool _, r => by
    rw [members, added_nil]
    exact .single (receive_scalar rfl r)
  | .number n, r => by
    rw [members, added_nil]
    exact .single (receive_scalar (isScalar_numberEvent n) r)
  | .string _, r => by
    rw [members, added_nil]
    exact .single (receive_scalar rfl r)
  | .array vs, r => by
    rw [events, members]
    refine .cons (t := inArray r 0) rfl ((passes_elements vs r 0).append (.single ?_))
    exact Prod.ext (endArray_inArray _ _) rfl
  | .object ms, r => by
    rw [events, members]
    refine .cons (t := inObject r) rfl ((passes_members ms r).append (.single ?_))
    exact Prod.ext (endObject_inObject _) rfl

theorem passes_elements : ∀ (vs : List (RJValue F)) (r : RJPathsReader) (i : ℕ),
    Passes receive (inArray r i) (elementEvents vs)
      (inArray (added r (elementsFrom i vs)) (i + vs.length))
  | [], r, i => by
    rw [elementsFrom, added_nil]
    exact .nil
  | v :: vs, r, i => by
    have hv := passes_events v (inArray r i)
    rw [scalar_inArray] at hv
    have hvs := passes_elements vs (added r ((members v).map (.element i :: ·))) (i + 1)
    rw [← added_append] at hvs
    rw [elementsFrom, List.length_cons, Nat.add_comm vs.length 1, ← Nat.add_assoc]
    exact hv.append hvs

theorem passes_members : ∀ (ms : List (Str × RJValue F)) (r : RJPathsReader),
    Passes receive (inObject r) (memberEvents ms) (inObject (added r (ownMembers ms)))
  | [], r => by
    rw [ownMembers, added_nil]
    exact .nil
  | (name, v) :: ms, r => by
    have hv := passes_events v ((inObject r).addStack name).addPath
    rw [scalar_inObject] at hv
    have hms := passes_members ms
      (added r ([.member name] :: (members v).map (.member name :: ·)))
    rw [← added_append] at hms
    rw [ownMembers]
    exact .cons rfl (hv.append hms)

end

/-- **The reader extracts the paths of all members**, each occurrence once and in document order, and
its stacks are empty at the end. -/
theorem getPaths_members (v : RJValue F) :
    ∃ r : RJPathsReader, accept receive v .new = (r, true) ∧
      r.getPaths = (members v).map pathText ∧ r.stack = [] ∧ r.arrStack = [] := by
  refine ⟨added .new (members v), ?_, ?_, rfl, rfl⟩
  · rw [accept_eq]
    exact passes_events v .new
  · simp [getPaths, added, new]

end Joda.Similarity.Paths
