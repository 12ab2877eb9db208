import Joda.Lib.Fuel
import Joda.Values.Pointer

/-! # Views

The documents of a view are not stored. A `ViewLayer` holds a delta document and the pointers it was
written to, its `viewPaths`; they hide what the layers below have there. The layers of a document are
a list, the newest first; the last one has no previous layer.

`Accept` walks down the members of all layers at once (`ViewCursor`) and decides by comparing texts of
pointers whether the members of a value come from one layer (`isBase`), are put together from several
(`isShared`), or whether a pointer is overwritten (`pathOverwritten`). Where virtual objects are enabled,
a layer keeps the values it has put together, and emits them when it comes to the same text again. -/

namespace Joda.Storage.View

open Joda.Values.Value Joda.Values.Pointer

variable {F : Type}

structure ViewLayer (F : Type) where
  doc : RJValue F
  viewPaths : List RJPointer

/-- `JSONContainer::setViews`: a document that is an object or an array has a layer of its own, which
the layers of the views are built on. -/
def setViews (base : RJValue F) (deltas : List (ViewLayer F)) : List (ViewLayer F) :=
  match kind base with
  | .object => deltas ++ [⟨base, [[]]⟩]
  | .array => deltas ++ [⟨base, [[]]⟩]
  | _ => deltas

/-! ### `ViewCursor` -/

def isSpace (c : UInt8) : Bool := c = 32 || (9 ≤ c && c ≤ 13)

/-- `std::stoul`, `none` where it throws. -/
def stoul (s : Str) : Option ℕ :=
  let s := s.dropWhile isSpace
  let negative := s.head? = some 45
  let ds := (if negative ∨ s.head? = some 43 then s.tail else s).takeWhile isDigit
  if ds = [] ∨ 2 ^ 64 ≤ digits ds then none
  else some (if negative then (2 ^ 64 - digits ds) % 2 ^ 64 else digits ds)

def followAtt (val : Option (RJValue F)) (attr : Str) : Option (RJValue F) :=
  match val with
  | some (.object ms) => ms.lookup attr
  | some (.array vs) => (stoul attr).bind fun index => vs[index]?
  | _ => none

/-- `getVal` after the attributes `followed`. -/
def getVal (layer : ViewLayer F) (followed : List Str) : Option (RJValue F) :=
  followed.foldl followAtt (some layer.doc)

/-- `isBase`: there is no layer below, or the pointer starts with the text of a view path. -/
def isBase : List (ViewLayer F) → Str → Bool
  | layer :: _ :: _, currPointer =>
    layer.viewPaths.any fun viewPath => (stringify viewPath).isPrefixOf currPointer
  | _, _ => true

/-- The view paths of the layers down to the base of the pointer start with its text. -/
def anyStartsWith : List (ViewLayer F) → Str → Bool
  | [], _ => false
  | layer :: below, currPointer =>
    layer.viewPaths.any (fun viewPath => currPointer.isPrefixOf (stringify viewPath)) ||
      (!isBase (layer :: below) currPointer && anyStartsWith below currPointer)

def isShared (layers : List (ViewLayer F)) (currPointer : Str) : Bool :=
  !isBase layers currPointer && anyStartsWith layers currPointer

/-! ### `ViewLayer` -/

/-- `path.find(p) == 0` for a view path. -/
def pathOverwritten (layer : ViewLayer F) (path : Str) : Bool :=
  layer.viewPaths.any fun p => (stringify p).isPrefixOf path

def getFrom : List (ViewLayer F) → RJPointer → Str → Option (RJValue F)
  | [], _, _ => none
  | layer :: previous, ptr, ptrStr =>
    if pathOverwritten layer ptrStr then get layer.doc ptr else getFrom previous ptr ptrStr

/-- **`ViewLayer::Get`** -/
def viewGet (layers : List (ViewLayer F)) (ptr : RJPointer) : Option (RJValue F) :=
  getFrom layers ptr (cString (stringify ptr))

/-- A member of a shared object; without a value it is to be put together as well. -/
abbrev ViewObjectMember (F : Type) := Str × Option (RJValue F)

def attPath (curr name : Str) : Str := curr ++ 47 :: name

def isViewPath (viewPaths : List RJPointer) (path : Str) : Bool :=
  viewPaths.any fun viewPath => stringify viewPath = path

/-- The value of the first member with the name. -/
def setMember (name : Str) (val : Option (RJValue F)) :
    List (ViewObjectMember F) → List (ViewObjectMember F)
  | [] => []
  | member :: ms =>
    if member.1 = name then (member.1, val) :: ms else member :: setMember name val ms

def putMember (viewPaths : List RJPointer) (currPath : Str) (ms : List (ViewObjectMember F))
    (m : Str × RJValue F) : List (ViewObjectMember F) :=
  if (ms.lookup m.1).isNone then ms ++ [(m.1, some m.2)]
  else setMember m.1 (if isViewPath viewPaths (attPath currPath m.1) then some m.2 else none) ms

/-- The members of the layers below, changed by those of the delta. -/
def mergeMembers (viewPaths : List RJPointer) (currPath : Str) (val : List (Str × RJValue F))
    (ms : List (ViewObjectMember F)) : List (ViewObjectMember F) :=
  val.foldl (putMember viewPaths currPath) (ms.filter fun member =>
    !(isViewPath viewPaths (attPath currPath member.1) && (val.lookup member.1).isNone))

/-- **`ViewLayer::GetMembers`** -/
def getMembers : List (ViewLayer F) → List Str → Str → List (ViewObjectMember F)
  | [], _, _ => []
  | layer :: previous, followed, currPath =>
    if isBase (layer :: previous) currPath then
      ((getVal layer followed).elim [] members).map fun m => (m.1, some m.2)
    else
      match getVal layer followed with
      | some (.object ms) =>
        mergeMembers layer.viewPaths currPath ms (getMembers previous followed currPath)
      | _ => getMembers previous followed currPath

/-! ### `VirtualObject` -/

/-- What a `VirtualObject` emits. One of the default constructor would follow a null pointer. -/
abbrev VirtualObject (F : Type) := Option (RJValue F)

/-- The `objects` of the layers, by the number of layers from a layer down and by their texts. -/
abbrev Objects (F : Type) := ℕ → Str → Option (VirtualObject F)

namespace Objects

def empty : Objects F := fun _ _ => none

/-- `objects[ptr] = obj` -/
def put (objects : Objects F) (n : ℕ) (ptr : Str) (obj : VirtualObject F) : Objects F := fun k text =>
  if k = n ∧ text = ptr then some obj else objects k text

/-- `objects[ptr]` makes an object of the default constructor if there is none. -/
def add (objects : Objects F) (n : ℕ) (ptr : Str) : Objects F :=
  if (objects n ptr).isNone then objects.put n ptr none else objects

end Objects

/-! ### `Accept` -/

/-- What the loop of `AcceptShared` has done: the members it emitted, and those of the virtual object
if all of these can be emitted. -/
structure Shared (F : Type) where
  emitted : List (Str × RJValue F)
  obj : Option (List (Str × RJValue F))
  objects : Objects F

/-- A member before them. -/
def Shared.cons (s : Shared F) (name : Str) (val : RJValue F) (obj : VirtualObject F) : Shared F :=
  ⟨(name, val) :: s.emitted, obj.bind fun w => s.obj.map ((name, w) :: ·), s.objects⟩

/-- The loop of `AcceptShared`. -/
def acceptMembers (enable_views_vo : Bool) (n : ℕ) (curr : Str)
    (acceptMember : Str → Objects F → Option (RJValue F × Objects F)) :
    List (ViewObjectMember F) → Objects F → Option (Shared F)
  | [], objects => some ⟨[], some [], objects⟩
  | (name, some val) :: ms, objects =>
    (acceptMembers enable_views_vo n curr acceptMember ms objects).map fun s =>
      s.cons name val (some val)
  | (name, none) :: ms, objects =>
    (acceptMember name objects).bind fun res =>
      let objects := if enable_views_vo then res.2.add n (attPath curr name) else res.2
      (acceptMembers enable_views_vo n curr acceptMember ms objects).map fun s =>
        s.cons name res.1 (objects n (attPath curr name)).join

/-- **`ViewLayer::Accept`**, with the cursors after `followed`: the value that is emitted, and the
virtual objects that are kept then. -/
def accept (enable_views_vo : Bool) :
    ℕ → List (ViewLayer F) → List Str → Str → Objects F → Option (RJValue F × Objects F)
  | 0, _, _, _, _ => none
  | _ + 1, [], _, _, objects => some (.null, objects)
  | fuel + 1, layer :: previous, followed, ptr, objects =>
    let n := previous.length + 1
    match objects n ptr with
    | some obj => obj.map fun val => (val, objects)
    | none =>
      if isShared (layer :: previous) ptr then
        (acceptMembers enable_views_vo n ptr
            (fun name => accept enable_views_vo fuel (layer :: previous) (followed ++ [name])
              (attPath ptr name))
            (getMembers (layer :: previous) followed ptr) objects).map fun s =>
          (.object s.emitted,
            if enable_views_vo then s.objects.put n ptr (s.obj.map .object) else s.objects)
      else
        match getVal layer followed with
        | some val => some (val, objects)
        | none => accept enable_views_vo fuel previous followed ptr objects

/-- `setPrefix` and `Accept`. -/
def acceptAt (enable_views_vo : Bool) (layers : List (ViewLayer F)) (ptr : RJPointer)
    (objects : Objects F) (fuel : ℕ) : Option (RJValue F × Objects F) :=
  accept enable_views_vo fuel layers (ptr.map cString) (stringify ptr) objects

end Joda.Storage.View
