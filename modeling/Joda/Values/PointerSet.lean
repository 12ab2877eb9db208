import Joda.Lib.Lookup
import Joda.Values.Pointer
import Mathlib.Data.List.Induction

/-! # Setting a value at a pointer

`Pointer::Parse` reads a pointer from its text. `Set` walks down the tokens and makes what is missing:
an object for a name, an array that is long enough for an index; a value that does not fit is
overwritten. Setting at pointers that part on the way gives the same document in either order. -/

namespace Joda.Values.PointerSet

open Joda.Values.Value Joda.Values.Pointer

variable {F : Type}

/-! ### Pointers as texts -/

/-- What is before the first slash, and what is after each of them. -/
def splitSlash : Str → Str × List Str
  | [] => ([], [])
  | c :: s =>
    let r := splitSlash s
    if c = 47 then ([], r.1 :: r.2) else (c :: r.1, r.2)

/-- `~0` stands for `~` and `~1` for a slash. -/
def unescape : Str → Option Str
  | [] => some []
  | c :: s =>
    if c = 126 then
      match s with
      | d :: s =>
        if d = 48 then (unescape s).map (126 :: ·)
        else if d = 49 then (unescape s).map (47 :: ·)
        else none
      | [] => none
    else (unescape s).map (c :: ·)

/-- **`Pointer::Parse`**; `none` is a parse error. -/
def parsePointer (text : Str) : Option RJPointer :=
  let r := splitSlash (cString text)
  if r.1 = [] then r.2.mapM unescape else none

theorem splitSlash_append {name s : Str} (h : (47 : UInt8) ∉ name) :
    splitSlash (name ++ s) = (name ++ (splitSlash s).1, (splitSlash s).2) := by
  induction name with
  | nil => rfl
  | cons c name ih =>
    rw [List.mem_cons, not_or] at h
    rw [List.cons_append, splitSlash, ih h.2, if_neg (Ne.symm h.1)]
    rfl

/-- A pointer with a name in front has the name as its first token. -/
theorem parsePointer_append {name token ptrStr : Str} {ptr : RJPointer}
    (hslash : (47 : UInt8) ∉ name) (hzero : (0 : UInt8) ∉ name) (hname : unescape name = some token)
    (h : parsePointer ptrStr = some ptr) :
    parsePointer (47 :: name ++ ptrStr) = some (token :: ptr) := by
  have hcut : cString (47 :: name ++ ptrStr) = 47 :: (name ++ cString ptrStr) :=
    cString_append (u := 47 :: name) (by simpa using hzero) ptrStr
  unfold parsePointer at h ⊢
  simp only at h ⊢
  split_ifs at h with hfirst
  rw [hcut, splitSlash, splitSlash_append hslash, hfirst, List.append_nil, if_pos rfl, if_pos rfl,
    List.mapM_cons, hname, h]
  rfl

theorem escape_cons (c : UInt8) (token : Str) :
    escape (c :: token) = (if c = 126 then [126, 48] else if c = 47 then [126, 49] else [c]) ++ escape token :=
  List.flatMap_cons

theorem unescape_escape : ∀ token : Str, unescape (escape token) = some token
  | [] => rfl
  | c :: token => by
    have ih := unescape_escape token
    rw [escape_cons]
    split_ifs with htilde hslash
    · subst htilde
      rw [List.cons_append, List.cons_append, List.nil_append, unescape, ih]
      rfl
    · subst hslash
      rw [List.cons_append, List.cons_append, List.nil_append, unescape, ih]
      rfl
    · rw [List.cons_append, List.nil_append, unescape.eq_def]
      simp only [htilde, if_false, ih]
      rfl

theorem slash_notMem_escape (token : Str) : (47 : UInt8) ∉ escape token := by
  induction token with
  | nil => exact List.not_mem_nil
  | cons c token ih =>
    rw [escape_cons, List.mem_append, not_or]
    refine ⟨?_, ih⟩
    split_ifs with htilde hslash
    · decide
    · decide
    · exact fun h => hslash (List.mem_singleton.mp h).symm

theorem splitSlash_stringify : ∀ ptr : RJPointer, splitSlash (stringify ptr) = ([], ptr.map escape)
  | [] => rfl
  | token :: ptr => by
    have hcons : stringify (token :: ptr) = 47 :: (escape token ++ stringify ptr) := rfl
    rw [hcons, splitSlash, if_pos rfl, splitSlash_append (slash_notMem_escape token),
      splitSlash_stringify ptr, List.append_nil]
    rfl

/-- The text of a pointer tells the pointer. -/
theorem stringify_injective {ptr ptr' : RJPointer} (h : stringify ptr = stringify ptr') : ptr = ptr' := by
  have hmap : ptr.map escape = ptr'.map escape := by
    have hsplit := congrArg splitSlash h
    rw [splitSlash_stringify, splitSlash_stringify] at hsplit
    exact (Prod.mk.inj hsplit).2
  refine List.map_injective_iff.mpr (fun token token' he => ?_) hmap
  exact Option.some.inj ((unescape_escape token).symm.trans (he ▸ unescape_escape token'))

/-- The value at a path. -/
def valueAt (path : Str) (doc : RJValue F) : Option (RJValue F) := (parsePointer path).bind (get doc)

/-! ### `Set` -/

/-- The token of the element past the end. -/
def dash : Str := [45]

/-- What `Create` makes of a value for the next token. -/
def coerce (token : Str) (doc : RJValue F) : RJValue F :=
  match arrayIndex token with
  | none =>
    match doc with
    | .object ms => .object ms
    | .array vs => if token = dash then .array (vs ++ [.null]) else .object []
    | _ => .object []
  | some i =>
    match doc with
    | .object ms => .object ms
    | .array vs => .array (vs ++ List.replicate (i + 1 - vs.length) .null)
    | _ => .array (List.replicate (i + 1) .null)

/-- The member with a name is replaced or added. -/
def setMember (name : Str) (w : RJValue F) : List (Str × RJValue F) → List (Str × RJValue F)
  | [] => [(name, w)]
  | m :: ms => if name = m.1 then (name, w) :: ms else m :: setMember name w ms

/-- The child of a value that was made for the token. -/
def putChild (token : Str) (w : RJValue F) : RJValue F → RJValue F
  | .object ms => .object (setMember token w ms)
  | .array vs => .array (vs.set ((arrayIndex token).getD (vs.length - 1)) w)
  | v => v

/-- **`Pointer::Set`** -/
def set : RJPointer → RJValue F → RJValue F → RJValue F
  | [], v, _ => v
  | token :: ptr, v, doc =>
    let doc := coerce token doc
    putChild token (set ptr v ((child doc token).getD .null)) doc

/-! ### The index of a token -/

theorem digits_append (s : Str) (c : UInt8) : digits (s ++ [c]) = 10 * digits s + (c.toNat - 48) := by
  unfold digits
  rw [List.foldl_append]
  rfl

theorem isDigit_toNat {c : UInt8} (h : isDigit c = true) : 48 ≤ c.toNat ∧ c.toNat ≤ 57 := by
  unfold isDigit at h
  rw [Bool.and_eq_true, decide_eq_true_eq, decide_eq_true_eq, UInt8.le_iff_toNat_le,
    UInt8.le_iff_toNat_le] at h
  exact h

/-- A decimal that does not start with 0 is not 0. -/
theorem digits_pos : ∀ (s : Str), s ≠ [] → s.all isDigit = true → s.head? ≠ some 48 → 0 < digits s := by
  intro s
  induction s using List.reverseRecOn with
  | nil => exact fun h _ _ => absurd rfl h
  | append_singleton s c ih =>
    intro _ hall hhead
    rw [List.all_append, Bool.and_eq_true] at hall
    rw [digits_append]
    by_cases hs : s = []
    · subst hs
      have hc := isDigit_toNat (List.all_eq_true.mp hall.2 c List.mem_cons_self)
      have hne : c.toNat ≠ 48 := fun h => hhead (by
        rw [← UInt8.toNat_inj.mp (show c.toNat = (48 : UInt8).toNat from h)]
        rfl)
      omega
    · have hpos := ih hs hall.1 (by rwa [List.head?_append_of_ne_nil _ hs] at hhead)
      omega

/-- Decimals that do not start with 0 are told by their number. -/
theorem digits_injective : ∀ (s t : Str), s.all isDigit = true → t.all isDigit = true →
    s.head? ≠ some 48 → t.head? ≠ some 48 → digits s = digits t → s = t := by
  intro s
  induction s using List.reverseRecOn with
  | nil =>
    intro t _ hall _ hhead heq
    by_contra hne
    have := digits_pos t (Ne.symm hne) hall hhead
    have hzero : digits [] = 0 := rfl
    omega
  | append_singleton s c ih =>
    intro t hs ht hsh hth heq
    have hpos := digits_pos (s ++ [c]) (by simp) hs hsh
    rcases List.eq_nil_or_concat' t with rfl | ⟨t, d, rfl⟩
    · have hzero : digits [] = 0 := rfl
      omega
    · rw [List.all_append, Bool.and_eq_true] at hs ht
      have hc := isDigit_toNat (List.all_eq_true.mp hs.2 c List.mem_cons_self)
      have hd := isDigit_toNat (List.all_eq_true.mp ht.2 d List.mem_cons_self)
      rw [digits_append, digits_append] at heq
      have hcd : c = d := UInt8.toNat_inj.mp (by omega)
      have hst : s = t := by
        refine ih t hs.1 ht.1 ?_ ?_ (by omega)
        · intro h
          exact hsh (by rw [List.head?_append, h]; rfl)
        · intro h
          exact hth (by rw [List.head?_append, h]; rfl)
      rw [hcd, hst]

theorem arrayIndex_injective {t u : Str} {i : ℕ} (ht : arrayIndex t = some i)
    (hu : arrayIndex u = some i) : t = u := by
  unfold arrayIndex at ht hu
  split_ifs at ht hu with h1 h2
  obtain ⟨hne1, hall1, hone1, -⟩ := h1
  obtain ⟨hne2, hall2, hone2, -⟩ := h2
  have heq : digits t = digits u := (Option.some.inj ht).trans (Option.some.inj hu).symm
  by_cases hz1 : t.head? = some 48
  · -- `t` is the single digit 0
    have hlen : t.length = 1 := hone1.resolve_right fun h => h hz1
    obtain ⟨c, rfl⟩ := List.length_eq_one_iff.mp hlen
    obtain rfl : c = 48 := Option.some.inj hz1
    by_cases hz2 : u.head? = some 48
    · have hlen2 : u.length = 1 := hone2.resolve_right fun h => h hz2
      obtain ⟨d, rfl⟩ := List.length_eq_one_iff.mp hlen2
      obtain rfl : d = 48 := Option.some.inj hz2
      rfl
    · have := digits_pos u hne2 hall2 hz2
      have hzero : digits [48] = 0 := rfl
      omega
  · by_cases hz2 : u.head? = some 48
    · have hlen2 : u.length = 1 := hone2.resolve_right fun h => h hz2
      obtain ⟨d, rfl⟩ := List.length_eq_one_iff.mp hlen2
      obtain rfl : d = 48 := Option.some.inj hz2
      have := digits_pos t hne1 hall1 hz1
      have hzero : digits [48] = 0 := rfl
      omega
    · exact digits_injective t u hall1 hall2 hz1 hz2 heq

/-! ### What one step of `Set` does -/

theorem lookup_setMember (name : Str) (w : RJValue F) (u : Str) :
    ∀ ms : List (Str × RJValue F),
      (setMember name w ms).lookup u = if u = name then some w else ms.lookup u
  | [] => Joda.Lib.Lookup.lookup_pair u name w []
  | (n, v) :: ms => by
    have ih := lookup_setMember name w u ms
    unfold setMember
    by_cases hn : name = n
    · subst hn
      rw [if_pos rfl]
      simp only [Joda.Lib.Lookup.lookup_pair]
      by_cases hu : u = name
      · rw [if_pos hu, if_pos hu]
      · rw [if_neg hu, if_neg hu, if_neg hu]
    · rw [if_neg hn]
      simp only [Joda.Lib.Lookup.lookup_pair, ih]
      by_cases hu : u = n
      · rw [if_pos hu, if_pos hu, if_neg fun h => hn (h.symm.trans hu)]
      · rw [if_neg hu, if_neg hu]

/-- The token is not the element past the end of an array. -/
def Plain (token : Str) (doc : RJValue F) : Prop := token = dash → kind doc ≠ .array

theorem arrayIndex_dash : arrayIndex dash = none := by decide

/-- The children an index makes. -/
def padded (token u : Str) : Option (RJValue F) :=
  (arrayIndex token).bind fun i => (arrayIndex u).bind fun j => if j ≤ i then some .null else none

theorem kind_coerce {token : Str} {doc : RJValue F} (ht : Plain token doc) :
    kind (coerce token doc) =
      if Kind.isObject (some (kind doc)) then Kind.object
      else if (arrayIndex token).isSome then Kind.array else Kind.object := by
  unfold coerce
  cases arrayIndex token with
  | none =>
    cases doc with
    | array vs => simp [kind, Kind.isObject, show token ≠ dash from fun h => ht h rfl]
    | _ => simp [kind, Kind.isObject]
  | some i => cases doc <;> simp [kind, Kind.isObject]

theorem child_coerce {token : Str} {doc : RJValue F} (ht : Plain token doc) (u : Str) :
    child (coerce token doc) u =
      if Kind.isObject (some (kind doc)) then child doc u
      else if (arrayIndex token).isSome then (child doc u).or (padded token u) else none := by
  have hpad : ∀ (vs : List (RJValue F)) (i j : ℕ),
      (vs ++ List.replicate (i + 1 - vs.length) RJValue.null)[j]? =
        vs[j]?.or (if j ≤ i then some .null else none) := by
    intro vs i j
    rw [List.getElem?_append]
    by_cases hj : j < vs.length
    · rw [if_pos hj, List.getElem?_eq_getElem hj]
      rfl
    · rw [if_neg hj, List.getElem?_eq_none (Nat.le_of_not_lt hj), Option.none_or,
        List.getElem?_replicate]
      by_cases hi : j ≤ i
      · rw [if_pos hi, if_pos (by omega)]
      · rw [if_neg hi, if_neg (by omega)]
  unfold coerce padded
  cases arrayIndex token with
  | none =>
    cases doc with
    | array vs => simp [kind, Kind.isObject, show token ≠ dash from fun h => ht h rfl, child]
    | _ => simp [kind, Kind.isObject, child]
  | some i =>
    have hscalar : ∀ u : Str, child (.array (List.replicate (i + 1) (.null : RJValue F))) u =
        (arrayIndex u).bind fun j => if j ≤ i then some .null else none := by
      intro u
      simp only [child]
      cases arrayIndex u with
      | none => rfl
      | some j => simpa using hpad [] i j
    cases doc with
    | object ms => simp [kind, Kind.isObject]
    | array vs =>
      simp only [kind, Kind.isObject, child]
      cases arrayIndex u with
      | none => rfl
      | some j => simpa using hpad vs i j
    | null => simpa [kind, Kind.isObject, child] using hscalar u
    | bool b => simpa [kind, Kind.isObject, child] using hscalar u
    | number n => simpa [kind, Kind.isObject, child] using hscalar u
    | string s => simpa [kind, Kind.isObject, child] using hscalar u

theorem kind_putChild (token : Str) (w v : RJValue F) : kind (putChild token w v) = kind v := by
  cases v <;> rfl

/-- The child that was made for the token is replaced. -/
theorem child_putChild {token : Str} {doc : RJValue F} (ht : Plain token doc) (w : RJValue F)
    (u : Str) :
    child (putChild token w (coerce token doc)) u =
      if u = token then some w else child (coerce token doc) u := by
  have harray : ∀ (vs : List (RJValue F)) (i : ℕ), arrayIndex token = some i → i < vs.length →
      child (.array (vs.set i w)) u = if u = token then some w else child (.array vs) u := by
    intro vs i hi hlt
    simp only [child]
    cases hu : arrayIndex u with
    | none =>
      rw [if_neg fun h => by rw [h, hi] at hu; cases hu]
      rfl
    | some j =>
      simp only [Option.bind_some]
      by_cases hut : u = token
      · rw [hut, hi] at hu
        obtain rfl := Option.some.inj hu
        rw [if_pos hut, List.getElem?_set_self hlt]
      · have hij : i ≠ j := fun h => hut (arrayIndex_injective hu (h ▸ hi))
        rw [if_neg hut, List.getElem?_set_ne hij]
  have hobject : ∀ ms : List (Str × RJValue F), child (putChild token w (.object ms)) u =
      if u = token then some w else child (.object ms) u := lookup_setMember token w u
  unfold coerce
  cases hi : arrayIndex token with
  | none =>
    cases doc with
    | object ms => exact hobject ms
    | array vs =>
      simp only [show token ≠ dash from fun h => ht h rfl, if_false]
      exact hobject []
    | _ => exact hobject []
  | some i =>
    cases doc with
    | object ms => exact hobject ms
    | array vs =>
      simp only [putChild, hi, Option.getD_some]
      refine harray _ i hi ?_
      rw [List.length_append, List.length_replicate]
      omega
    | _ =>
      simp only [putChild, hi, Option.getD_some]
      exact harray _ i hi (by simp)

theorem kind_set (token : Str) (ptr : RJPointer) (v doc : RJValue F) :
    kind (set (token :: ptr) v doc) = kind (coerce token doc) :=
  kind_putChild _ _ _

theorem child_set {token : Str} {doc : RJValue F} (ht : Plain token doc) (ptr : RJPointer)
    (v : RJValue F) (u : Str) :
    child (set (token :: ptr) v doc) u =
      if u = token then some (set ptr v ((child (coerce token doc) token).getD .null))
      else child (coerce token doc) u :=
  child_putChild ht _ u

/-! ### Documents as pointers see them -/

/-- **Values that pointers cannot tell apart**: the order of the members does not matter. -/
def Alike (v w : Option (RJValue F)) : Prop := ∀ ptr, kindAt v ptr = kindAt w ptr

theorem Alike.refl (v : Option (RJValue F)) : Alike v v := fun _ => rfl

theorem Alike.symm {v w : Option (RJValue F)} (h : Alike v w) : Alike w v := fun ptr => (h ptr).symm

theorem Alike.trans {u v w : Option (RJValue F)} (h : Alike u v) (h' : Alike v w) : Alike u w :=
  fun ptr => (h ptr).trans (h' ptr)

theorem alike_iff {v w : RJValue F} :
    Alike (some v) (some w) ↔ kind v = kind w ∧ ∀ token, Alike (child v token) (child w token) := by
  constructor
  · intro h
    refine ⟨?_, fun token ptr => ?_⟩
    · have hroot := h []
      rw [kindAt_nil, kindAt_nil] at hroot
      exact Option.some.inj hroot
    · have hptr := h (token :: ptr)
      rwa [kindAt_cons, kindAt_cons] at hptr
  · rintro ⟨hkind, hchild⟩ ptr
    cases ptr with
    | nil => rw [kindAt_nil, kindAt_nil, hkind]
    | cons token ptr =>
      rw [kindAt_cons, kindAt_cons]
      exact hchild token ptr

/-- Both are there, or none is. -/
theorem Alike.cases {v w : Option (RJValue F)} (h : Alike v w) :
    (v = none ∧ w = none) ∨ ∃ a b, v = some a ∧ w = some b ∧ Alike (some a) (some b) := by
  have hroot := h []
  cases v with
  | none =>
    cases w with
    | none => exact Or.inl ⟨rfl, rfl⟩
    | some b => rw [kindAt_none, kindAt_nil] at hroot; cases hroot
  | some a =>
    cases w with
    | none => rw [kindAt_none, kindAt_nil] at hroot; cases hroot
    | some b => exact Or.inr ⟨a, b, rfl, rfl, h⟩

theorem Alike.getD {v w : Option (RJValue F)} (h : Alike v w) (d : RJValue F) :
    Alike (some (v.getD d)) (some (w.getD d)) := by
  rcases h.cases with ⟨rfl, rfl⟩ | ⟨a, b, rfl, rfl, hab⟩
  · exact .refl _
  · exact hab

theorem Alike.or {v w : Option (RJValue F)} (h : Alike v w) (u : Option (RJValue F)) :
    Alike (v.or u) (w.or u) := by
  rcases h.cases with ⟨rfl, rfl⟩ | ⟨a, b, rfl, rfl, hab⟩
  · exact .refl _
  · exact hab

theorem Plain.alike {token : Str} {doc doc' : RJValue F} (ht : Plain token doc)
    (h : Alike (some doc) (some doc')) : Plain token doc' := fun htok => by
  rw [← (alike_iff.mp h).1]
  exact ht htok

theorem Alike.coerce {token : Str} {doc doc' : RJValue F} (ht : Plain token doc)
    (h : Alike (some doc) (some doc')) :
    Alike (some (coerce token doc)) (some (coerce token doc')) := by
  obtain ⟨hkind, hchild⟩ := alike_iff.mp h
  have ht' : Plain token doc' := ht.alike h
  refine alike_iff.mpr ⟨?_, fun u => ?_⟩
  · rw [kind_coerce ht, kind_coerce ht', hkind]
  · rw [child_coerce ht, child_coerce ht', hkind]
    split_ifs
    · exact hchild u
    · exact (hchild u).or _
    · exact .refl _

/-- No element past the end is met on the way. -/
def Avoids : RJPointer → RJValue F → Prop
  | [], _ => True
  | token :: ptr, doc => Plain token doc ∧ ∀ w, child doc token = some w → Avoids ptr w

/-- A value without children is met by no pointer. -/
theorem avoids_of_childless {doc : RJValue F} (hkind : kind doc ≠ .array)
    (hchild : ∀ token, child doc token = none) (ptr : RJPointer) : Avoids ptr doc := by
  cases ptr with
  | nil => trivial
  | cons token ptr =>
    refine ⟨fun _ => hkind, fun w hw => ?_⟩
    rw [hchild] at hw
    cases hw

theorem avoids_null (ptr : RJPointer) : Avoids ptr (.null : RJValue F) :=
  avoids_of_childless (by simp [kind]) (fun _ => rfl) ptr

theorem avoids_empty (ptr : RJPointer) : Avoids ptr (.object [] : RJValue F) :=
  avoids_of_childless (by simp [kind]) (fun _ => rfl) ptr

theorem padded_eq (token u : Str) : padded (F := F) token u = none ∨ padded (F := F) token u = some .null := by
  unfold padded
  cases arrayIndex token with
  | none => exact Or.inl rfl
  | some i =>
    cases arrayIndex u with
    | none => exact Or.inl rfl
    | some j =>
      simp only [Option.bind_some]
      split_ifs
      · exact Or.inr rfl
      · exact Or.inl rfl

/-- What a value has after it was made for a token, it had before, or it is null. -/
theorem child_coerce_eq {token : Str} {doc : RJValue F} (ht : Plain token doc) {u : Str}
    {w : RJValue F} (hw : child (coerce token doc) u = some w) : child doc u = some w ∨ w = .null := by
  rw [child_coerce ht] at hw
  split_ifs at hw
  · exact Or.inl hw
  · rcases Option.or_eq_some_iff.mp hw with h | ⟨-, h⟩
    · exact Or.inl h
    · rcases padded_eq (F := F) token u with hp | hp
      · rw [hp] at h
        cases h
      · rw [hp] at h
        exact Or.inr (Option.some.inj h).symm

theorem Avoids.child {token : Str} {ptr : RJPointer} {doc : RJValue F} (h : Avoids (token :: ptr) doc) :
    Avoids ptr ((child (coerce token doc) token).getD .null) := by
  cases hw : Pointer.child (PointerSet.coerce token doc) token with
  | none => exact avoids_null ptr
  | some w =>
    rcases child_coerce_eq h.1 hw with hold | rfl
    · exact h.2 w hold
    · exact avoids_null ptr

/-- **Setting respects what pointers see.** -/
theorem Alike.set {v : RJValue F} : ∀ {ptr : RJPointer} {doc doc' : RJValue F}, Avoids ptr doc →
    Alike (some doc) (some doc') → Alike (some (set ptr v doc)) (some (set ptr v doc'))
  | [], _, _, _, _ => .refl _
  | token :: ptr, doc, doc', hd, h => by
    have ht : Plain token doc := hd.1
    have ht' : Plain token doc' := ht.alike h
    have hc := h.coerce ht
    refine alike_iff.mpr ⟨?_, fun u => ?_⟩
    · rw [kind_set, kind_set, (alike_iff.mp hc).1]
    · rw [child_set ht, child_set ht']
      split_ifs with hu
      · exact Alike.set hd.child (((alike_iff.mp hc).2 token).getD _)
      · exact (alike_iff.mp hc).2 u

/-! ### Setting in either order -/

/-- **The pointers part on the way**, at two names or at two indices. -/
def Parts : RJPointer → RJPointer → Prop
  | t :: p, u :: q =>
    (t = u ∧ Parts p q) ∨ (t ≠ u ∧ (arrayIndex t).isSome = (arrayIndex u).isSome)
  | _, _ => False

/-- What was made for a token of the same kind is no array where the other is the one past the end. -/
theorem plain_of_same {t u : Str} {doc A : RJValue F} (hu : Plain u doc)
    (hsame : (arrayIndex t).isSome = (arrayIndex u).isSome) (hA : kind A = kind (coerce u doc)) :
    Plain t A := by
  rintro rfl
  rw [arrayIndex_dash] at hsame
  rw [hA, kind_coerce hu, ← hsame]
  simp

/-- A value that was made for a token of the same kind is kept. -/
theorem coerce_coerced {t u : Str} {doc A : RJValue F} (hu : Plain u doc)
    (hsame : (arrayIndex t).isSome = (arrayIndex u).isSome) (hA : kind A = kind (coerce u doc)) :
    kind (coerce t A) = kind A ∧ ∀ x, child (coerce t A) x =
      if Kind.isObject (some (kind A)) then child A x else (child A x).or (padded t x) := by
  have ht : Plain t A := plain_of_same hu hsame hA
  rw [kind_coerce hu] at hA
  rw [kind_coerce ht]
  by_cases hobj : Kind.isObject (some (kind A)) = true
  · refine ⟨?_, fun x => ?_⟩
    · rw [if_pos hobj]
      exact (Option.some.inj (isObject_iff.mp hobj)).symm
    · rw [child_coerce ht, if_pos hobj, if_pos hobj]
  · have hindex : (arrayIndex u).isSome = true := by
      by_contra hn
      rw [if_neg hn] at hA
      split_ifs at hA <;> exact hobj (by rw [hA]; rfl)
    have harray : kind A = .array := by
      rw [if_pos hindex] at hA
      split_ifs at hA
      · exact absurd (by rw [hA]; rfl) hobj
      · exact hA
    refine ⟨?_, fun x => ?_⟩
    · rw [if_neg hobj, if_pos (hsame.trans hindex), harray]
    · rw [child_coerce ht, if_neg hobj, if_neg hobj, if_pos (hsame.trans hindex)]

theorem getD_or_padded (v : Option (RJValue F)) (token u : Str) :
    (v.or (padded token u)).getD .null = v.getD .null := by
  rcases v with _ | v
  · rcases padded_eq (F := F) token u with h | h <;> rw [h] <;> rfl
  · rfl

/-- Tokens of the same kind make the same object. -/
theorem child_coerce_object {t u : Str} {doc : RJValue F} (ht : Plain t doc) (hu : Plain u doc)
    (hsame : (arrayIndex t).isSome = (arrayIndex u).isSome)
    (hobj : Kind.isObject (some (kind (coerce t doc))) = true) (x : Str) :
    child (coerce t doc) x = child (coerce u doc) x := by
  rw [child_coerce ht, child_coerce hu]
  by_cases hdoc : Kind.isObject (some (kind doc)) = true
  · rw [if_pos hdoc, if_pos hdoc]
  · have hindex : ¬ (arrayIndex t).isSome = true := fun hi => by
      rw [kind_coerce ht, if_neg hdoc, if_pos hi] at hobj
      cases hobj
    rw [if_neg hdoc, if_neg hdoc, if_neg hindex, if_neg (hsame ▸ hindex)]

/-- The elements of the arrays that two indices make. -/
theorem child_coerce_array {t u : Str} {doc : RJValue F} (ht : Plain t doc) (hu : Plain u doc)
    (hsame : (arrayIndex t).isSome = (arrayIndex u).isSome)
    (hobj : ¬ Kind.isObject (some (kind (coerce t doc))) = true) (x : Str) :
    child (coerce t doc) x = (child doc x).or (padded t x) ∧
      child (coerce u doc) x = (child doc x).or (padded u x) := by
  rw [kind_coerce ht] at hobj
  by_cases hdoc : Kind.isObject (some (kind doc)) = true
  · rw [if_pos hdoc] at hobj
    exact absurd rfl hobj
  · by_cases hindex : (arrayIndex t).isSome = true
    · rw [child_coerce ht, child_coerce hu, if_neg hdoc, if_neg hdoc, if_pos hindex,
        if_pos (hsame ▸ hindex)]
      exact ⟨rfl, rfl⟩
    · rw [if_neg hdoc, if_neg hindex] at hobj
      exact absurd rfl hobj

/-- **Setting at pointers that part gives the same in either order.** -/
theorem set_comm {v w : RJValue F} : ∀ {p q : RJPointer} (doc : RJValue F), Avoids p doc →
    Avoids q doc → Parts p q → Alike (some (set p v (set q w doc))) (some (set q w (set p v doc)))
  | [], _, _, _, _, h => by simp [Parts] at h
  | _ :: _, [], _, _, _, h => by simp [Parts] at h
  | t :: p, u :: q, doc, hp, hq, h => by
    have ht : Plain t doc := hp.1
    have hu : Plain u doc := hq.1
    have hsame : (arrayIndex t).isSome = (arrayIndex u).isSome := by
      rcases h with ⟨rfl, -⟩ | ⟨-, h⟩
      · rfl
      · exact h
    have hkindA := kind_set u q w doc
    have hkindB := kind_set t p v doc
    have htA := plain_of_same hu hsame hkindA
    have huB := plain_of_same ht hsame.symm hkindB
    obtain ⟨hkA, hcA⟩ := coerce_coerced hu hsame hkindA
    obtain ⟨hkB, hcB⟩ := coerce_coerced ht hsame.symm hkindB
    have hkind : kind (coerce t doc) = kind (coerce u doc) := by
      rw [kind_coerce ht, kind_coerce hu, hsame]
    have hkindAB : kind (set (u :: q) w doc) = kind (set (t :: p) v doc) := by
      rw [hkindA, hkindB, hkind]
    refine alike_iff.mpr ⟨?_, fun x => ?_⟩
    · rw [kind_set, kind_set, hkA, hkB, hkindAB]
    rw [child_set htA, child_set huB, hcA, hcA, hcB, hcB, hkindAB]
    simp only [child_set ht, child_set hu]
    rcases h with ⟨rfl, hparts⟩ | ⟨htu, -⟩
    · by_cases hx : x = t
      · subst hx
        simp only [if_true]
        have ih := set_comm (v := v) (w := w) ((child (coerce x doc) x).getD .null) hp.child hq.child hparts
        split_ifs <;> exact ih
      · simp only [if_neg hx]
        exact .refl _
    · have hut : u ≠ t := Ne.symm htu
      simp only [if_neg htu, if_neg hut]
      by_cases hobj : Kind.isObject (some (kind (set (t :: p) v doc))) = true
      · have hsees := child_coerce_object ht hu hsame (by rwa [hkindB] at hobj)
        simp only [if_pos hobj, hsees]
        by_cases hxt : x = t
        · rw [if_pos hxt, if_neg (hxt ▸ htu), if_pos hxt]
          exact .refl _
        · rw [if_neg hxt, if_neg hxt]
          exact .refl _
      · have hsees := child_coerce_array ht hu hsame (by rwa [hkindB] at hobj)
        simp only [if_neg hobj]
        by_cases hxt : x = t
        · rw [if_pos hxt, if_neg (hxt ▸ htu), if_pos hxt, (hsees t).1, (hsees t).2, Option.some_or,
            getD_or_padded, getD_or_padded, getD_or_padded]
          exact .refl _
        · rw [if_neg hxt, if_neg hxt]
          by_cases hxu : x = u
          · rw [if_pos hxu, if_pos hxu, (hsees u).1, (hsees u).2, Option.some_or, getD_or_padded,
              getD_or_padded, getD_or_padded]
            exact .refl _
          · rw [if_neg hxu, if_neg hxu, (hsees x).1, (hsees x).2]
            rcases padded_eq (F := F) t x with h1 | h1 <;> rcases padded_eq (F := F) u x with h2 | h2
            · rw [h1, h2]
              exact .refl _
            · rw [h1, h2, Option.or_none, Option.or_none]
              exact .refl _
            · rw [h1, h2, Option.or_none, Option.or_none]
              exact .refl _
            · rw [h1, h2]
              exact .refl _

theorem Parts.symm : ∀ {p q : RJPointer}, Parts p q → Parts q p
  | [], _, h => by simp [Parts] at h
  | _ :: _, [], h => by simp [Parts] at h
  | _ :: _, _ :: _, h => by
    rcases h with ⟨rfl, h⟩ | ⟨hne, hsame⟩
    · exact Or.inl ⟨rfl, h.symm⟩
    · exact Or.inr ⟨Ne.symm hne, hsame.symm⟩

/-- A pointer that parts from the one that is set still meets no element past the end. -/
theorem Avoids.set {v : RJValue F} : ∀ {p q : RJPointer} {doc : RJValue F}, Avoids p doc →
    Avoids q doc → Parts p q → Avoids q (set p v doc)
  | [], _, _, _, _, h => by simp [Parts] at h
  | _ :: _, [], _, _, _, h => by simp [Parts] at h
  | t :: p, u :: q, doc, hp, hq, h => by
    have hsame : (arrayIndex t).isSome = (arrayIndex u).isSome := by
      rcases h with ⟨rfl, -⟩ | ⟨-, h⟩
      · rfl
      · exact h
    refine ⟨plain_of_same hp.1 hsame.symm (kind_set t p v doc), fun w hw => ?_⟩
    rw [child_set hp.1] at hw
    split_ifs at hw with hut
    · obtain rfl := Option.some.inj hw
      subst hut
      rcases h with ⟨-, hparts⟩ | ⟨hne, -⟩
      · exact Avoids.set hp.child hq.child hparts
      · exact absurd rfl hne
    · rcases child_coerce_eq hp.1 hw with hold | rfl
      · exact hq.2 w hold
      · exact avoids_null q

/-- Values are set one after the other. -/
def setAll (l : List (RJPointer × RJValue F)) (doc : RJValue F) : RJValue F :=
  l.foldl (fun doc e => set e.1 e.2 doc) doc

theorem setAll_alike : ∀ {l : List (RJPointer × RJValue F)} {doc doc' : RJValue F},
    (∀ e ∈ l, Avoids e.1 doc) → (l.Pairwise fun a b => Parts a.1 b.1) →
      Alike (some doc) (some doc') → Alike (some (setAll l doc)) (some (setAll l doc'))
  | [], _, _, _, _, h => h
  | e :: l, doc, _, hd, hparts, h => by
    obtain ⟨hhead, htail⟩ := List.pairwise_cons.mp hparts
    have he := hd e List.mem_cons_self
    exact setAll_alike (l := l)
      (fun e' he' => he.set (hd e' (List.mem_cons_of_mem _ he')) (hhead e' he')) htail (h.set he)

/-- **The order does not matter** where the pointers part. -/
theorem setAll_perm {l l' : List (RJPointer × RJValue F)} (h : l.Perm l')
    (hparts : l.Pairwise fun a b => Parts a.1 b.1) {doc : RJValue F} (hd : ∀ e ∈ l, Avoids e.1 doc) :
    Alike (some (setAll l doc)) (some (setAll l' doc)) := by
  induction h generalizing doc with
  | nil => exact .refl _
  | cons e _ ih =>
    obtain ⟨hhead, htail⟩ := List.pairwise_cons.mp hparts
    have he := hd e List.mem_cons_self
    exact ih htail fun e' he' =>
      he.set (hd e' (List.mem_cons_of_mem _ he')) (hhead e' he')
  | swap a b l =>
    have ha := hd a (List.mem_cons_of_mem _ List.mem_cons_self)
    have hb := hd b List.mem_cons_self
    obtain ⟨hheadb, hrest⟩ := List.pairwise_cons.mp hparts
    obtain ⟨hheada, htail⟩ := List.pairwise_cons.mp hrest
    have hba : Parts b.1 a.1 := hheadb a List.mem_cons_self
    have hafter : ∀ e ∈ l, Avoids e.1 (set a.1 a.2 (set b.1 b.2 doc)) := fun e he => by
      have hed := hd e (List.mem_cons_of_mem _ (List.mem_cons_of_mem _ he))
      have heb : Avoids e.1 (set b.1 b.2 doc) := hb.set hed (hheadb e (List.mem_cons_of_mem _ he))
      exact (hb.set ha hba).set heb (hheada e he)
    exact setAll_alike hafter htail (set_comm doc ha hb hba.symm)
  | trans h₁ h₂ ih₁ ih₂ =>
    have hparts' := (h₁.pairwise_iff fun hab => Parts.symm hab).mp hparts
    exact (ih₁ hparts hd).trans (ih₂ hparts' fun e he => hd e (h₁.mem_iff.mpr he))

end Joda.Values.PointerSet
