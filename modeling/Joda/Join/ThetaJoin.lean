import Joda.Join.JoinProviders

/-! # The equality join and the theta join

Both join executors go through the documents of the inner containers, and for each of them through
those of the outer container. `EqualityJoinExecutor` evaluates its two sides on the two documents,
`ThetaJoinExecutor` its predicate on the document that has them as `left` and `right`.

The equality join materialises the attributes of its sides in views. It does as the theta join where the
documents then read, at the pointers that are followed, as they are written out (`ReadsContent`). -/

namespace Joda.Join.ThetaJoin

open Joda.Values.Value Joda.Values.Pointer Joda.Values.PointerSet Joda.Values.Provider
open Joda.Storage.View
open Joda.Storage.ViewStack
open Joda.Storage.ViewedDocuments
open Joda.Join.JoinProviders
open Joda.Join.JoinProviders.JoinProvider

variable {F : Type}

/-! ### The executors -/

/-- A document that is not one of a view. -/
def stored (v : RJValue F) : ViewedDocument F := ⟨0, .temporary, v, []⟩

/-- The document `{left, right}`. -/
def joined (left right : RJValue F) : RJValue F :=
  .object [(ascii "left", left), (ascii "right", right)]

/-- A container with the attributes of an expression materialised, if it is a view. -/
def materialised (p : JoinProvider F) (stack : Stack F) : Stack F :=
  if isView stack then materializeAttributesIfRequired (p.getAttributes.filterMap parsePointer) stack
  else stack

section Executors

variable [Double F]

/-- `IValueProvider::equal` on two documents. -/
def equal (lhs rhs : JoinProvider F) (json otherJson : ViewedDocument F) : Option Bool :=
  RJValue.equal (getValue json none lhs) (getValue otherJson none rhs)

/-- **`EqualityJoinExecutor::handleOuterContainer`** -/
def equalityJoin (inner outer : JoinProvider F) (innerContainers : List (Stack F)) (cont : Stack F) :
    List (RJValue F) :=
  innerContainers.flatMap fun innerCont =>
    (List.range (size (materialised inner innerCont))).flatMap fun i =>
      (List.range (size (materialised outer cont))).flatMap fun j =>
        if (equal inner outer (documentAt (materialised inner innerCont) i)
            (documentAt (materialised outer cont) j)).getD false then
          [joined (getRaw (materialised inner innerCont) i) (getRaw (materialised outer cont) j)]
        else []

/-- **`ThetaJoinExecutor::handleOuterContainer`** -/
def thetaJoin (predicate : JoinProvider F) (innerContainers : List (Stack F)) (cont : Stack F) :
    List (RJValue F) :=
  innerContainers.flatMap fun innerCont => (List.range (size innerCont)).flatMap fun i =>
    (List.range (size cont)).flatMap fun j =>
      let tmp := joined (getRaw innerCont i) (getRaw cont j)
      if RJValue.asBool (getValue (stored tmp) none predicate) then [tmp] else []

end Executors

/-! ### Pointers with a prefix -/

mutual

/-- The expression with every pointer prefixed that is followed from the document. -/
def withPrefix (pre : Str) : JoinProvider F → JoinProvider F
  | .atom val => .atom val
  | .null => .null
  | .pointer ptrStr => .pointer (pre ++ ptrStr)
  | .prefixedPointer given ptrStr => .prefixedPointer given ptrStr
  | .bool op lhs rhs => .bool op (withPrefix pre lhs) (withPrefix pre rhs)
  | .not sub => .not (withPrefix pre sub)
  | .equality op lhs rhs => .equality op (withPrefix pre lhs) (withPrefix pre rhs)
  | .comparison op lhs rhs => .comparison op (withPrefix pre lhs) (withPrefix pre rhs)
  | .number op lhs rhs => .number op (withPrefix pre lhs) (withPrefix pre rhs)
  | .func f params => .func f (paramsWithPrefix pre params)
  | .accepter f param => .accepter f (withPrefix pre param)
  | .iterator iter state param => .iterator iter (pre ++ state) (withPrefix pre param)

def paramsWithPrefix (pre : Str) : List (JoinProvider F) → List (JoinProvider F)
  | [] => []
  | p :: params => withPrefix pre p :: paramsWithPrefix pre params

end

@[simp] theorem getReturnType_withPrefix (pre : Str) (p : JoinProvider F) :
    getReturnType (withPrefix pre p) = getReturnType p := by
  cases p with
  | iterator iter state param => cases iter <;> rfl
  | _ => rfl

@[simp] theorem isAtom_withPrefix (pre : Str) (p : JoinProvider F) :
    isAtom (withPrefix pre p) = isAtom p := by
  cases p <;> rfl

/-- A prefixed pointer is followed from an element. -/
def Scoped (element : Option Str) : JoinProvider F → Prop
  | .prefixedPointer .. => element.isSome = true
  | _ => True

theorem pointerOf_withPrefix {pre : Str} {element : Option Str} : ∀ {p : JoinProvider F},
    Scoped element p →
      pointerOf (element.map (pre ++ ·)) (withPrefix pre p) = (pointerOf element p).map (pre ++ ·)
  | .prefixedPointer given ptrStr, h => by
    obtain ⟨e, rfl⟩ := Option.isSome_iff_exists.mp h
    simp [withPrefix, pointerOf, prefixedPtr]
  | .atom _, _ => rfl
  | .null, _ => rfl
  | .pointer _, _ => rfl
  | .bool .., _ => rfl
  | .not _, _ => rfl
  | .equality .., _ => rfl
  | .comparison .., _ => rfl
  | .number .., _ => rfl
  | .func .., _ => rfl
  | .accepter .., _ => rfl
  | .iterator .., _ => rfl

theorem scoped_of_pointerOf {element : Option Str} : ∀ {p : JoinProvider F},
    pointerOf element p = none → Scoped element p
  | .atom _, _ => trivial
  | .null, _ => trivial
  | .bool .., _ => trivial
  | .not _, _ => trivial
  | .equality .., _ => trivial
  | .comparison .., _ => trivial
  | .number .., _ => trivial
  | .func .., _ => trivial
  | .accepter .., _ => trivial
  | .iterator .., _ => trivial

/-- A pointer is followed in the document. -/
theorem getValue_of_pointerOf [Double F] (json : ViewedDocument F) {element : Option Str} {ptrStr : Str} :
    ∀ {p : JoinProvider F}, pointerOf element p = some ptrStr →
      getValue json element p = RapidJsonDocument.get json ptrStr ∧ isAtom p = false
  | .pointer _, h => by
    obtain rfl := Option.some.inj h
    exact ⟨by rw [getValue], rfl⟩
  | .prefixedPointer _ _, h => by
    obtain rfl := Option.some.inj h
    exact ⟨by rw [getValue], rfl⟩

/-! ### What is read of a document -/

/-- `Get` finds what the document that is written out has there. -/
def GetsContent (doc : ViewedDocument F) (v : RJValue F) (ptrStr : Str) : Prop :=
  (parsePointer ptrStr).isSome = true ∧
    RapidJsonDocument.get doc ptrStr = RapidJsonDocument.get (stored v) ptrStr

/-- `Accept` sends what the document that is written out has there. -/
def SendsContent (doc : ViewedDocument F) (v : RJValue F) (ptrStr : Str) : Prop :=
  (parsePointer ptrStr).isSome = true ∧
    RapidJsonDocument.accept doc ptrStr = RapidJsonDocument.accept (stored v) ptrStr

/-- A pointer whose events are taken, or an expression that is read. -/
def Sent (doc : ViewedDocument F) (v : RJValue F) (element : Option Str) (p : JoinProvider F)
    (read : Prop) : Prop :=
  (pointerOf element p).elim read fun ptrStr => Scoped element p ∧ SendsContent doc v ptrStr

/-- The parameter of a `UnaryPointerAcceptProvider`: where it takes the events of a pointer that finds a
value, the function makes the same of them as of the value. -/
def Accepted (doc : ViewedDocument F) (v : RJValue F) (element : Option Str) (p : JoinProvider F)
    (f : AcceptCalc F) (read : Prop) : Prop :=
  (pointerOf element p).elim read fun ptrStr =>
    Scoped element p ∧ SendsContent doc v ptrStr ∧
      if objIsPointerEvaluatable doc ptrStr then GetsContent doc v ptrStr
      else ∀ w, RapidJsonDocument.get (stored v) ptrStr = some w → f.accept w = f.pointer (some w)

variable [Double F]

mutual

/-- **An expression reads a document as it is written out**: at the pointers it follows, those from the
elements of iterator functions included. -/
def Reads (doc : ViewedDocument F) (v : RJValue F) (element : Option Str) : JoinProvider F → Prop
  | .atom _ => True
  | .null => True
  | .pointer ptrStr => GetsContent doc v ptrStr
  | .prefixedPointer given ptrStr => element.isSome = true ∧
    GetsContent doc v (prefixedPtr element given ptrStr)
  | .bool _ lhs rhs => Reads doc v element lhs ∧ Reads doc v element rhs
  | .not sub => Reads doc v element sub
  | .equality _ lhs rhs => Reads doc v element lhs ∧ Reads doc v element rhs
  | .comparison _ lhs rhs => Reads doc v element lhs ∧ Reads doc v element rhs
  | .number _ lhs rhs => Reads doc v element lhs ∧ Reads doc v element rhs
  | .func f params => ParamsRead doc v element f.accepts params
  | .accepter f param => Accepted doc v element param f (Reads doc v element param)
  | .iterator .filter state param => GetsContent doc v state ∧
    ∀ vs, RapidJsonDocument.get doc state = some (.array vs) → ∀ i < vs.length,
      Reads doc v (some (elementPrefix state (ascii (ToString.toString i)))) param
  | .iterator _ state param => SendsContent doc v state ∧
    ∀ attr ∈ extracted (RapidJsonDocument.accept doc state),
      Reads doc v (some (elementPrefix state attr)) param

def ParamsRead (doc : ViewedDocument F) (v : RJValue F) (element : Option Str) (accepts : ℕ → Bool) :
    List (JoinProvider F) → Prop
  | [] => True
  | p :: params =>
    (if accepts 0 then Sent doc v element p (Reads doc v element p) else Reads doc v element p) ∧
      ParamsRead doc v element (fun k => accepts (k + 1)) params

end

omit [Double F] in
theorem Reads.sends {doc : ViewedDocument F} {v : RJValue F} {element : Option Str} {iter : IteratorCalc}
    {state : Str} {param : JoinProvider F} (h : Reads doc v element (.iterator iter state param))
    (hiter : iter ≠ .filter) :
    SendsContent doc v state ∧ ∀ attr ∈ extracted (RapidJsonDocument.accept doc state),
      Reads doc v (some (elementPrefix state attr)) param := by
  cases iter with
  | filter => exact absurd rfl hiter
  | _ => exact h

/-! ### Prefixed expressions -/

omit [Double F] in
theorem accept_stored (v : RJValue F) (ptrStr : Str) : RapidJsonDocument.accept (stored v) ptrStr =
    (RapidJsonDocument.get (stored v) ptrStr).getD .null := by
  show (parsePointer ptrStr).elim _ _ = ((parsePointer ptrStr).bind _).getD _
  rcases parsePointer ptrStr with _ | ptr <;> rfl

/-- **What is below a prefix** in a document. -/
def Below (pre : Str) (v tmp : RJValue F) : Prop :=
  ∀ ptrStr, (parsePointer ptrStr).isSome = true →
    RapidJsonDocument.get (stored tmp) (pre ++ ptrStr) = RapidJsonDocument.get (stored v) ptrStr

section Below

variable {pre : Str} {v tmp : RJValue F} (hbelow : Below pre v tmp) {doc : ViewedDocument F}
  {ptrStr : Str}
include hbelow

omit [Double F] in
theorem GetsContent.below (h : GetsContent doc v ptrStr) :
    RapidJsonDocument.get (stored tmp) (pre ++ ptrStr) = RapidJsonDocument.get doc ptrStr := by
  rw [hbelow ptrStr h.1, h.2]

omit [Double F] in
theorem SendsContent.below (h : SendsContent doc v ptrStr) :
    RapidJsonDocument.accept (stored tmp) (pre ++ ptrStr) = RapidJsonDocument.accept doc ptrStr := by
  rw [h.2, accept_stored, accept_stored, hbelow ptrStr h.1]

omit [Double F] in
/-- The events of a parameter. -/
theorem Sent.below {element : Option Str} {p : JoinProvider F} {read : Prop}
    (h : Sent doc v element p read) {value value' : Option (RJValue F)} (hvalue : read → value' = value) :
    (pointerOf (element.map (pre ++ ·)) (withPrefix pre p)).elim (value'.getD .null)
        (RapidJsonDocument.accept (stored tmp)) =
      (pointerOf element p).elim (value.getD .null) (RapidJsonDocument.accept doc) := by
  unfold Sent at h
  rcases hptr : pointerOf element p with _ | ptrStr
  · rw [hptr] at h
    rw [pointerOf_withPrefix (scoped_of_pointerOf hptr), hptr, hvalue h]
    rfl
  · rw [hptr] at h
    rw [pointerOf_withPrefix h.1, hptr]
    exact h.2.below hbelow

/-- The parameter of a `UnaryPointerAcceptProvider`. -/
theorem Accepted.below {element : Option Str} {p : JoinProvider F} {f : AcceptCalc F}
    (h : Accepted doc v element p f (Reads doc v element p))
    (hvalue : Reads doc v element p →
      getValue (stored tmp) (element.map (pre ++ ·)) (withPrefix pre p) = getValue doc element p) :
    calculateAccepter (stored tmp) (pointerOf (element.map (pre ++ ·)) (withPrefix pre p))
        (isAtom (withPrefix pre p)) (getValue (stored tmp) (element.map (pre ++ ·)) (withPrefix pre p)) f =
      calculateAccepter doc (pointerOf element p) (isAtom p) (getValue doc element p) f := by
  unfold Accepted at h
  rcases hptr : pointerOf element p with _ | ptrStr
  · rw [hptr] at h
    rw [pointerOf_withPrefix (scoped_of_pointerOf hptr), hptr, hvalue h, isAtom_withPrefix]
    rfl
  · rw [hptr] at h
    obtain ⟨hscoped, hsends, hread⟩ := h
    have hptr' : pointerOf (element.map (pre ++ ·)) (withPrefix pre p) = some (pre ++ ptrStr) := by
      rw [pointerOf_withPrefix hscoped, hptr, Option.map_some]
    obtain ⟨hval, hatom⟩ := getValue_of_pointerOf doc hptr
    obtain ⟨hval', hatom'⟩ := getValue_of_pointerOf (stored tmp) hptr'
    have haccept := hsends.below hbelow
    have hget := hbelow ptrStr hsends.1
    rw [hptr', hval, hatom, hval', hatom']
    unfold calculateAccepter
    simp only [Bool.false_eq_true, ↓reduceIte, Option.all_some, Option.elim_some, haccept,
      show objIsPointerEvaluatable (stored tmp) (pre ++ ptrStr) = true from rfl]
    by_cases heval : objIsPointerEvaluatable doc ptrStr = true
    · rw [if_pos heval] at hread ⊢
      rw [hread.below hbelow]
    · -- the view takes the events, of the value that the joined document has
      rw [if_neg heval] at hread ⊢
      rcases hw : RapidJsonDocument.get (stored v) ptrStr with _ | w
      · rw [hget, hw]
      · rw [hget, hw]
        have hsent : RapidJsonDocument.accept doc ptrStr = w := by
          rw [hsends.2, accept_stored, hw, Option.getD_some]
        show f.pointer (some w) = f.accept (RapidJsonDocument.accept doc ptrStr)
        rw [hsent, hread w hw]

omit [Double F] in
/-- An iterator function that takes the events of what it goes through. -/
theorem SendsContent.iterator {state : Str} (h : SendsContent doc v state)
    {value value' : Str → Option (RJValue F)}
    (hvalue : ∀ attr ∈ extracted (RapidJsonDocument.accept doc state),
      value' (pre ++ elementPrefix state attr) = value (elementPrefix state attr))
    {iter : IteratorCalc} (hiter : iter ≠ .filter) :
    calculateIterator (stored tmp) (pre ++ state) value' iter = calculateIterator doc state value iter := by
  have hprefix : ∀ attr, elementPrefix (pre ++ state) attr = pre ++ elementPrefix state attr :=
    fun attr => List.append_assoc ..
  cases iter with
  | any =>
    simp only [calculateIterator, h.below hbelow, hprefix, RJValue.bool.injEq]
    rw [Bool.eq_iff_iff, List.any_eq_true, List.any_eq_true]
    exact exists_congr fun attr => and_congr_right fun hattr => by rw [hvalue attr hattr]
  | all =>
    simp only [calculateIterator, h.below hbelow, hprefix, RJValue.bool.injEq]
    rw [Bool.eq_iff_iff, List.all_eq_true, List.all_eq_true]
    exact forall_congr' fun attr => forall_congr' fun hattr => by rw [hvalue attr hattr]
  | map =>
    simp only [calculateIterator, h.below hbelow, hprefix]
    exact congrArg _ (List.filterMap_congr hvalue)
  | filter => exact absurd rfl hiter

omit [Double F] in
/-- `FILTER` looks at the array it goes through. -/
theorem GetsContent.filter {state : Str} (h : GetsContent doc v state)
    {value value' : Str → Option (RJValue F)}
    (hvalue : ∀ vs, RapidJsonDocument.get doc state = some (.array vs) → ∀ i < vs.length,
      value' (pre ++ elementPrefix state (ascii (ToString.toString i))) =
        value (elementPrefix state (ascii (ToString.toString i)))) :
    calculateIterator (stored tmp) (pre ++ state) value' .filter =
      calculateIterator doc state value .filter := by
  have hprefix : ∀ attr, elementPrefix (pre ++ state) attr = pre ++ elementPrefix state attr :=
    fun attr => List.append_assoc ..
  simp only [calculateIterator, h.below hbelow, hprefix]
  rcases hget : RapidJsonDocument.get doc state with _ | w
  · rfl
  · cases w with
    | array vs =>
      refine congrArg (fun es : List (RJValue F × ℕ) => RJValue.array (es.map Prod.fst)) ?_
      refine List.filter_congr fun e he => ?_
      rw [hvalue vs hget e.2 (by simpa using List.snd_lt_of_mem_zipIdx he)]
    | _ => rfl

end Below

mutual

/-- **Prefixing the pointers commutes with evaluation.** -/
theorem getValue_withPrefix {pre : Str} {v tmp : RJValue F} (hbelow : Below pre v tmp)
    {doc : ViewedDocument F} : ∀ {p : JoinProvider F} {element : Option Str}, Reads doc v element p →
      getValue (stored tmp) (element.map (pre ++ ·)) (withPrefix pre p) = getValue doc element p
  | .atom _, _, _ => by rw [withPrefix, getValue, getValue]
  | .null, _, _ => by rw [withPrefix, getValue, getValue]
  | .pointer _, _, h => by
    rw [withPrefix, getValue, getValue]
    exact h.below hbelow
  | .prefixedPointer given ptrStr, _, h => by
    obtain ⟨hsome, h⟩ := h
    obtain ⟨e, rfl⟩ := Option.isSome_iff_exists.mp hsome
    rw [withPrefix, getValue, getValue, Option.map_some, prefixedPtr, List.append_assoc]
    exact GetsContent.below hbelow h
  | .bool _ _ _, _, h => by
    rw [withPrefix, getValue, getValue, getValue_withPrefix hbelow h.1, getValue_withPrefix hbelow h.2]
  | .not sub, _, h => by
    have hsub := getValue_withPrefix hbelow (p := sub) h
    rw [withPrefix, getValue, getValue, hsub]
  | .equality _ _ _, _, h => by
    rw [withPrefix, getValue, getValue, getValue_withPrefix hbelow h.1, getValue_withPrefix hbelow h.2]
  | .comparison _ _ _, _, h => by
    rw [withPrefix, getValue, getValue, getValue_withPrefix hbelow h.1, getValue_withPrefix hbelow h.2]
  | .number _ _ _, _, h => by
    rw [withPrefix, getValue, getValue, getValue_withPrefix hbelow h.1, getValue_withPrefix hbelow h.2]
  | .func _ _, _, h => by
    rw [withPrefix, getValue, getValue, getParams_withPrefix hbelow h]
  | .accepter f param, element, h => by
    rw [withPrefix, getValue, getValue,
      Accepted.below hbelow h fun hread => getValue_withPrefix hbelow hread]
  | .iterator iter state param, _, h => by
    rw [withPrefix, getValue, getValue]
    by_cases hiter : iter = .filter
    · subst hiter
      obtain ⟨hgets, helements⟩ := h
      refine congrArg some (GetsContent.filter hbelow hgets ?_)
      exact fun vs hvs i hi => by exact getValue_withPrefix hbelow (helements vs hvs i hi)
    · obtain ⟨hsends, helements⟩ := h.sends hiter
      refine congrArg some (SendsContent.iterator hbelow hsends ?_ hiter)
      exact fun attr hattr => by exact getValue_withPrefix hbelow (helements attr hattr)

theorem getParams_withPrefix {pre : Str} {v tmp : RJValue F} (hbelow : Below pre v tmp)
    {doc : ViewedDocument F} : ∀ {params : List (JoinProvider F)} {element : Option Str}
      {accepts : ℕ → Bool}, ParamsRead doc v element accepts params →
      getParams (stored tmp) (element.map (pre ++ ·)) accepts (paramsWithPrefix pre params) =
        getParams doc element accepts params
  | [], _, _, _ => by rw [paramsWithPrefix, getParams, getParams]
  | p :: params, element, accepts, h => by
    have hrest := getParams_withPrefix hbelow h.2
    rw [paramsWithPrefix, getParams, getParams, hrest, getReturnType_withPrefix, isAtom_withPrefix]
    have hvalue := h.1
    by_cases haccepts : accepts 0 = true
    · rw [if_pos haccepts] at hvalue
      simp only [haccepts, ↓reduceIte,
        Sent.below hbelow hvalue fun hread => getValue_withPrefix hbelow hread]
    · rw [if_neg haccepts] at hvalue
      simp only [haccepts, Bool.false_eq_true, ↓reduceIte, getValue_withPrefix hbelow hvalue]

end

/-! ### The document of a pair -/

omit [Double F] in
theorem get_joined_left (left right : RJValue F) (ptr : RJPointer) :
    get (joined left right) (ascii "left" :: ptr) = get left ptr := by
  rw [get_cons]
  rfl

omit [Double F] in
theorem get_joined_right (left right : RJValue F) (ptr : RJPointer) :
    get (joined left right) (ascii "right" :: ptr) = get right ptr := by
  rw [get_cons]
  rfl

omit [Double F] in
/-- Below its first token, the document `{left, right}` has the two documents. -/
theorem below_left (left right : RJValue F) : Below (ascii "/left") left (joined left right) := by
  intro ptrStr hp
  obtain ⟨ptr, hptr⟩ := Option.isSome_iff_exists.mp hp
  have hname : unescape (ascii "left") = some (ascii "left") := by decide
  have hpre : parsePointer (ascii "/left" ++ ptrStr) = some (ascii "left" :: ptr) :=
    parsePointer_append (by decide : (47 : UInt8) ∉ ascii "left") (by decide) hname hptr
  show (parsePointer _).bind _ = (parsePointer _).bind _
  rw [hpre, hptr, Option.bind_some, Option.bind_some]
  exact get_joined_left left right ptr

omit [Double F] in
theorem below_right (left right : RJValue F) : Below (ascii "/right") right (joined left right) := by
  intro ptrStr hp
  obtain ⟨ptr, hptr⟩ := Option.isSome_iff_exists.mp hp
  have hname : unescape (ascii "right") = some (ascii "right") := by decide
  have hpre : parsePointer (ascii "/right" ++ ptrStr) = some (ascii "right" :: ptr) :=
    parsePointer_append (by decide : (47 : UInt8) ∉ ascii "right") (by decide) hname hptr
  show (parsePointer _).bind _ = (parsePointer _).bind _
  rw [hpre, hptr, Option.bind_some, Option.bind_some]
  exact get_joined_right left right ptr

/-! ### The joins -/

/-- **The attributes of an expression are materialised without a change**: of each document of the
container it reads what is written out, with the attributes materialised and without. -/
structure ReadsContent (p : JoinProvider F) (stack : Stack F) : Prop where
  reads : ∀ i < size stack, Reads (documentAt (materialised p stack) i) (getRaw stack i) none p
  content : ∀ i < size stack, getRaw (materialised p stack) i = getRaw stack i

omit [Double F] in
theorem size_materialised (p : JoinProvider F) (stack : Stack F) :
    size (materialised p stack) = size stack := by
  unfold materialised
  split_ifs with hview
  · exact size_eq (materializeAttributesIfRequired_headers stack _)
      (materializeAttributesIfRequired_ne_nil fun hnil => by rw [hnil] at hview; cases hview)
  · rfl

/-- On a pair of documents, the predicate of the theta join is the equality. -/
theorem predicate_eq {a b : JoinProvider F} {innerDoc outerDoc : ViewedDocument F}
    {left right : RJValue F} (ha : Reads innerDoc left none a) (hb : Reads outerDoc right none b) :
    RJValue.asBool (getValue (stored (joined left right)) none
        (.equality .equal (withPrefix (ascii "/left") a) (withPrefix (ascii "/right") b))) =
      (equal a b innerDoc outerDoc).getD false := by
  have hleft : getValue (stored (joined left right)) none (withPrefix (ascii "/left") a) =
      getValue innerDoc none a := getValue_withPrefix (below_left left right) ha
  have hright : getValue (stored (joined left right)) none (withPrefix (ascii "/right") b) =
      getValue outerDoc none b := getValue_withPrefix (below_right left right) hb
  rw [getValue, hleft, hright]
  rfl

mutual

/-- An expression of pointers, constants and functions that look at the values of their parameters. -/
def Looks : JoinProvider F → Prop
  | .atom _ => True
  | .null => True
  | .pointer ptrStr => (parsePointer ptrStr).isSome = true
  | .prefixedPointer .. => False
  | .bool _ lhs rhs => Looks lhs ∧ Looks rhs
  | .not sub => Looks sub
  | .equality _ lhs rhs => Looks lhs ∧ Looks rhs
  | .comparison _ lhs rhs => Looks lhs ∧ Looks rhs
  | .number _ lhs rhs => Looks lhs ∧ Looks rhs
  | .func f params => (∀ k, f.accepts k = false) ∧ ParamsLook params
  | .accepter .. => False
  | .iterator .. => False

def ParamsLook : List (JoinProvider F) → Prop
  | [] => True
  | p :: params => Looks p ∧ ParamsLook params

end

omit [Double F] in
theorem getsContent_base (cont : Container F) (i : ℕ) {ptrStr : Str}
    (h : (parsePointer ptrStr).isSome = true) :
    GetsContent (documentAt [cont] i) (getRaw [cont] i) ptrStr := by
  obtain ⟨ptr, hptr⟩ := Option.isSome_iff_exists.mp h
  refine ⟨h, ?_⟩
  have hget : ∀ json : RJValue F, ¬ setViews json [] = [] →
      viewGet (setViews json []) ptr = get json ptr := by
    intro json hne
    have hlayer : viewGet [(⟨json, [[]]⟩ : ViewLayer F)] ptr = get json ptr := rfl
    unfold setViews at hne ⊢
    cases hk : kind json with
    | object => exact hlayer
    | array => exact hlayer
    | _ => rw [hk] at hne; exact absurd rfl hne
  show (parsePointer ptrStr).bind _ = (parsePointer ptrStr).bind _
  rw [hptr, Option.bind_some, Option.bind_some]
  rcases hdoc : cont.docs[i]? with _ | doc
  · simp [getRaw, isView, documentAt, hdoc, RapidJsonDocument.empty, stored]
  · simp [getRaw, isView, documentAt, hdoc, layersOf, stored]
    exact hget doc.json

omit [Double F] in
mutual

/-- **Of a base container such an expression reads the documents as they are.** -/
theorem reads_base (cont : Container F) (i : ℕ) : ∀ {p : JoinProvider F}, Looks p →
    Reads (documentAt [cont] i) (getRaw [cont] i) none p
  | .atom _, _ => trivial
  | .null, _ => trivial
  | .pointer _, h => getsContent_base cont i h
  | .bool _ _ _, h => ⟨reads_base cont i h.1, reads_base cont i h.2⟩
  | .not sub, h => by
    have hsub := reads_base cont i (p := sub) h
    exact hsub
  | .equality _ _ _, h => ⟨reads_base cont i h.1, reads_base cont i h.2⟩
  | .comparison _ _ _, h => ⟨reads_base cont i h.1, reads_base cont i h.2⟩
  | .number _ _ _, h => ⟨reads_base cont i h.1, reads_base cont i h.2⟩
  | .func _ _, h => paramsRead_base cont i h.1 h.2

theorem paramsRead_base (cont : Container F) (i : ℕ) : ∀ {params : List (JoinProvider F)}
    {accepts : ℕ → Bool}, (∀ k, accepts k = false) → ParamsLook params →
      ParamsRead (documentAt [cont] i) (getRaw [cont] i) none accepts params
  | [], _, _, _ => trivial
  | _ :: _, _, haccepts, h => by
    refine ⟨?_, paramsRead_base cont i (fun k => haccepts (k + 1)) h.2⟩
    rw [if_neg (by rw [haccepts 0]; exact Bool.false_ne_true)]
    exact reads_base cont i h.1

end

omit [Double F] in
theorem readsContent_base {p : JoinProvider F} (h : Looks p) (cont : Container F) :
    ReadsContent p [cont] :=
  ⟨fun i _ => reads_base cont i h, fun _ _ => rfl⟩

/-! ### Examples -/

/-- A base container of documents. -/
def baseOf (vs : List (RJValue Float)) : Stack Float := [⟨vs.map fun v => ⟨0, .temporary, v⟩, [], []⟩]

/-- A view with one document on one of a base container. -/
def viewOf (delta : RJValue Float) (viewPaths : List RJPointer) (v : RJValue Float) : Stack Float :=
  ⟨[⟨0, .temporary, delta⟩], [0], viewPaths⟩ :: baseOf [v]

/-- A document with one member. -/
def member (name : String) (v : RJValue Float) : RJValue Float := .object [(ascii name, v)]

/-- A view that changes `/B/x` in `{"B":{"x":true,"y":true}}`. -/
def changed : Stack Float :=
  viewOf (member "B" (member "x" (.bool false))) [[ascii "B", ascii "x"]]
    (member "B" (.object [(ascii "x", .bool true), (ascii "y", .bool true)]))

/-- `ANY('/B', $\'\')` -/
def anyOf : JoinProvider Float := .iterator .any (ascii "/B") (.prefixedPointer none [])

theorem readsContent_changed : ReadsContent anyOf changed := by
  have hzero : ∀ i < size changed, i = 0 := fun i hi => Nat.lt_one_iff.mp hi
  refine ⟨fun i hi => ?_, fun i hi => ?_⟩
  · obtain rfl := hzero i hi
    refine ⟨⟨rfl, rfl⟩, fun attr hattr => ?_⟩
    have hattr' : attr ∈ [ascii "x", ascii "y"] := hattr
    rcases List.mem_cons.mp hattr' with rfl | hattr'
    · exact ⟨rfl, rfl, rfl⟩
    · obtain rfl := List.mem_singleton.mp hattr'
      exact ⟨rfl, rfl, rfl⟩
  · obtain rfl := hzero i hi
    rfl

/-- The text `/A` starts the text `/AB`: in a view that changes `/A`, `Get` does not find what `Populate`
writes at `/AB`, and the joins differ. -/
theorem views_differ :
    let stack := viewOf (member "A" (.bool false)) [[ascii "A"]]
      (.object [(ascii "A", .bool true), (ascii "AB", .bool false)])
    equalityJoin (.pointer (ascii "/AB")) (.pointer (ascii "/AB")) [stack] stack ≠
      thetaJoin (.equality .equal (withPrefix (ascii "/left") (.pointer (ascii "/AB")))
        (withPrefix (ascii "/right") (.pointer (ascii "/AB")))) [stack] stack := by
  intro stack h
  have hlen := congrArg List.length h
  revert hlen
  decide +kernel

end Joda.Join.ThetaJoin
