import Joda.Values.Pointer
import Mathlib.Data.Finset.Basic

/-! # The attribute bloom filter

A container keeps a bloom filter of the attributes of its documents. The documents are sent through a
`BloomAttributeHandler`, which puts the paths of the attributes together from the events of the
document. A filter reports what was inserted (`BloomFilter.contains_insert`), but the handler hands over
no path at all (`accept_keeps`): an object puts an entry on the stack of the arrays, and while there is
one no path is added. -/

namespace Joda.Storage.Bloom

open Joda.Values.Value Joda.Values.Pointer

variable {F : Type}

/-! ### `bloom_filter` -/

/-- The bits of the table that are set, and for each salt the bit of a key. -/
structure BloomFilter where
  salt : List (Str → ℕ)
  bitTable : Finset ℕ

namespace BloomFilter

def insert (b : BloomFilter) (key : Str) : BloomFilter :=
  { b with bitTable := b.salt.foldl (fun bits hash => Insert.insert (hash key) bits) b.bitTable }

def contains (b : BloomFilter) (key : Str) : Bool := b.salt.all fun hash => hash key ∈ b.bitTable

/-- A filter that nothing was inserted into reports only what has no bits. -/
theorem contains_fresh (salt : List (Str → ℕ)) (key : Str) :
    (BloomFilter.mk salt ∅).contains key = true ↔ salt = [] := by
  rw [contains, List.all_eq_true]
  constructor
  · intro h
    cases salt with
    | nil => rfl
    | cons hash salt => simpa using h hash List.mem_cons_self
  · rintro rfl
    simp

end BloomFilter

/-! ### `BloomAttributeHandler` -/

/-- The state of the handler; the last entry of a list is the top of the stack. -/
structure BloomAttributeHandler where
  stack : List Str
  arrStack : List ℤ
  paths : List Str

namespace BloomAttributeHandler

def addStack (h : BloomAttributeHandler) (str : Str) : BloomAttributeHandler :=
  { h with stack := h.stack ++ [str] }

def popStack (h : BloomAttributeHandler) : BloomAttributeHandler :=
  { h with stack := h.stack.dropLast }

def addArray (h : BloomAttributeHandler) : BloomAttributeHandler :=
  { h with arrStack := h.arrStack ++ [0] }.addStack (ascii (ToString.toString (0 : ℤ)))

def incArray (h : BloomAttributeHandler) : BloomAttributeHandler :=
  match h.arrStack.getLast? with
  | some i =>
    if 0 ≤ i then
      { h with arrStack := h.arrStack.dropLast ++ [i + 1] }.addStack
        (ascii (ToString.toString (i + 1)))
    else h
  | none => h

def stopArray (h : BloomAttributeHandler) : BloomAttributeHandler :=
  { h with arrStack := h.arrStack.dropLast }

def addPath (h : BloomAttributeHandler) : BloomAttributeHandler :=
  if h.arrStack ≠ [] then h
  else { h with paths := h.paths ++ [h.stack.flatMap fun item => 47 :: item] }

/-- The events of values without parts. -/
def scalar (h : BloomAttributeHandler) : BloomAttributeHandler := h.popStack.incArray

def null (h : BloomAttributeHandler) : BloomAttributeHandler := h.scalar

def bool (h : BloomAttributeHandler) (_b : Bool) : BloomAttributeHandler := h.scalar

def int (h : BloomAttributeHandler) (_i : ℤ) : BloomAttributeHandler := h.scalar

def uint (h : BloomAttributeHandler) (_i : ℤ) : BloomAttributeHandler := h.scalar

def int64 (h : BloomAttributeHandler) (_i : ℤ) : BloomAttributeHandler := h.scalar

def uint64 (h : BloomAttributeHandler) (_i : ℤ) : BloomAttributeHandler := h.scalar

def double (h : BloomAttributeHandler) (_d : F) : BloomAttributeHandler := h.scalar

def string (h : BloomAttributeHandler) (_str : Str) : BloomAttributeHandler := h.scalar

def startObject (h : BloomAttributeHandler) : BloomAttributeHandler :=
  { h with arrStack := h.arrStack ++ [-1] }

def key (h : BloomAttributeHandler) (str : Str) : BloomAttributeHandler := (h.addStack str).addPath

def endObject (h : BloomAttributeHandler) : BloomAttributeHandler :=
  let h := h.popStack
  { h with arrStack := h.arrStack.dropLast }.incArray

def startArray (h : BloomAttributeHandler) : BloomAttributeHandler := h.addArray

def endArray (h : BloomAttributeHandler) : BloomAttributeHandler :=
  h.stopArray.popStack.popStack.incArray

/-- RapidJSON's `Accept` of a number: the event of the smallest type that holds it. -/
def number (h : BloomAttributeHandler) : Number F → BloomAttributeHandler
  | .int z =>
    if -2 ^ 31 ≤ z ∧ z < 2 ^ 31 then h.int z
    else if 0 ≤ z ∧ z < 2 ^ 32 then h.uint z
    else if -2 ^ 63 ≤ z ∧ z < 2 ^ 63 then h.int64 z
    else h.uint64 z
  | .double x => h.double x

mutual

/-- `Accept`: the value is sent as events. -/
def accept : RJValue F → BloomAttributeHandler → BloomAttributeHandler
  | .null, h => h.null
  | .bool b, h => h.bool b
  | .number n, h => h.number n
  | .string s, h => h.string s
  | .array vs, h => (acceptElements vs h.startArray).endArray
  | .object ms, h => (acceptMembers ms h.startObject).endObject

def acceptElements : List (RJValue F) → BloomAttributeHandler → BloomAttributeHandler
  | [], h => h
  | v :: vs, h => acceptElements vs (accept v h)

def acceptMembers : List (Str × RJValue F) → BloomAttributeHandler → BloomAttributeHandler
  | [], h => h
  | (name, v) :: ms, h => acceptMembers ms (accept v (h.key name))

end

/-! ### No path is added -/

/-- The handler has the same paths, and as many arrays are open. -/
def Keeps (h h' : BloomAttributeHandler) : Prop :=
  h'.paths = h.paths ∧ h'.arrStack.length = h.arrStack.length

theorem Keeps.trans {h₁ h₂ h₃ : BloomAttributeHandler} (h : Keeps h₁ h₂) (h' : Keeps h₂ h₃) :
    Keeps h₁ h₃ := ⟨h'.1.trans h.1, h'.2.trans h.2⟩

theorem incArray_keeps (h : BloomAttributeHandler) : Keeps h h.incArray := by
  unfold incArray
  cases hl : h.arrStack.getLast? with
  | none => exact ⟨rfl, rfl⟩
  | some i =>
    have hne : h.arrStack ≠ [] := fun he => by simp [he] at hl
    have hlen := List.length_pos_iff.mpr hne
    simp only
    split_ifs with hi
    · refine ⟨rfl, ?_⟩
      simp only [addStack, List.length_append, List.length_dropLast, List.length_singleton]
      omega
    · exact ⟨rfl, rfl⟩

theorem scalar_keeps (h : BloomAttributeHandler) : Keeps h h.scalar :=
  incArray_keeps h.popStack

theorem number_keeps (h : BloomAttributeHandler) (n : Number F) : Keeps h (h.number n) := by
  unfold number
  cases n with
  | int z =>
    simp only
    split_ifs <;> exact scalar_keeps h
  | double x => exact scalar_keeps h

theorem key_keeps {h : BloomAttributeHandler} (ho : 0 < h.arrStack.length) (name : Str) :
    Keeps h (h.key name) := by
  have hne : (h.addStack name).arrStack ≠ [] := List.length_pos_iff.mp ho
  rw [key, addPath, if_pos hne]
  exact ⟨rfl, rfl⟩

theorem endObject_keeps {h h' : BloomAttributeHandler} (hk : Keeps h.startObject h') :
    Keeps h h'.endObject := by
  obtain ⟨hp, hl⟩ := hk
  simp only [startObject, List.length_append, List.length_singleton] at hl
  have hpop : Keeps h { h'.popStack with arrStack := h'.popStack.arrStack.dropLast } := by
    refine ⟨hp, ?_⟩
    simp only [popStack, List.length_dropLast]
    omega
  exact hpop.trans (incArray_keeps _)

theorem endArray_keeps {h h' : BloomAttributeHandler} (hk : Keeps h.startArray h') :
    Keeps h h'.endArray := by
  obtain ⟨hp, hl⟩ := hk
  simp only [startArray, addArray, addStack, List.length_append, List.length_singleton] at hl
  have hpop : Keeps h h'.stopArray.popStack.popStack := by
    refine ⟨hp, ?_⟩
    simp only [stopArray, popStack, List.length_dropLast]
    omega
  exact hpop.trans (incArray_keeps _)

mutual

/-- The members of an object are sent while the entry of the object is on the stack of the arrays. -/
theorem accept_keeps : ∀ (v : RJValue F) (h : BloomAttributeHandler), Keeps h (accept v h)
  | .null, h => scalar_keeps h
  | .bool _, h => scalar_keeps h
  | .number n, h => number_keeps h n
  | .string _, h => scalar_keeps h
  | .array vs, h => endArray_keeps (acceptElements_keeps vs h.startArray)
  | .object ms, h => by
    refine endObject_keeps (acceptMembers_keeps ms h.startObject ?_)
    simp only [startObject, List.length_append, List.length_singleton]
    omega

theorem acceptElements_keeps : ∀ (vs : List (RJValue F)) (h : BloomAttributeHandler),
    Keeps h (acceptElements vs h)
  | [], _ => ⟨rfl, rfl⟩
  | v :: vs, h => (accept_keeps v h).trans (acceptElements_keeps vs (accept v h))

theorem acceptMembers_keeps : ∀ (ms : List (Str × RJValue F)) (h : BloomAttributeHandler),
    0 < h.arrStack.length → Keeps h (acceptMembers ms h)
  | [], _, _ => ⟨rfl, rfl⟩
  | (name, v) :: ms, h, ho => by
    have hv := (key_keeps ho name).trans (accept_keeps v (h.key name))
    have hms := acceptMembers_keeps ms (accept v (h.key name)) (by rw [hv.2]; exact ho)
    exact hv.trans hms

end

/-- `getPaths` after a document. -/
def pathsOf (v : RJValue F) : List Str := (accept v ⟨[], [], []⟩).paths

theorem pathsOf_eq (v : RJValue F) : pathsOf v = [] := (accept_keeps v ⟨[], [], []⟩).1

end BloomAttributeHandler

/-! ### `JSONContainer` -/

/-- `view` is the value that `Accept` of the document's view emits. -/
structure Document (F : Type) where
  isValid : Bool
  json : RJValue F
  view : RJValue F

structure JSONContainer (F : Type) where
  docs : List (Document F)
  isView : Bool
  attrBloom : BloomFilter
  bloomCalculated : Bool

/-- `config::bloom_enabled`, and the salt of a filter with the `bloom_parameters` that
`config::bloom_count` and `config::bloom_prob` give. -/
structure Config where
  bloomEnabled : Bool
  salt : List (Str → ℕ)

namespace JSONContainer

variable (config : Config)

/-- What the documents of the container hold. -/
def value (cont : JSONContainer F) (doc : Document F) : RJValue F :=
  if cont.isView then doc.view else doc.json

/-- The paths the handler hands over for the documents. -/
def attributes (cont : JSONContainer F) : List Str :=
  cont.docs.flatMap fun doc =>
    if doc.isValid && Kind.isObject (some (kind doc.json)) then
      BloomAttributeHandler.pathsOf (if !cont.isView then doc.json else doc.view)
    else []

def calculateBloom (cont : JSONContainer F) : JSONContainer F :=
  if !config.bloomEnabled || cont.bloomCalculated then cont
  else { cont with
    attrBloom := cont.attributes.foldl .insert ⟨config.salt, ∅⟩
    bloomCalculated := true }

def probContainsAttr (cont : JSONContainer F) (attr : Str) : Bool :=
  !config.bloomEnabled || !cont.bloomCalculated || cont.attrBloom.contains attr

/-- A container before `finalize`. -/
def collected (docs : List (Document F)) (isView : Bool) : JSONContainer F :=
  ⟨docs, isView, ⟨[], ∅⟩, false⟩

theorem attributes_eq (cont : JSONContainer F) : cont.attributes = [] := by
  rw [attributes, List.flatMap_eq_nil_iff]
  intro doc _
  split_ifs <;> first | exact BloomAttributeHandler.pathsOf_eq _ | rfl

theorem probContainsAttr_collected (docs : List (Document F)) (isView : Bool) (attr : Str) :
    ((collected docs isView).calculateBloom config).probContainsAttr config attr = true ↔
      config.bloomEnabled = false ∨ config.salt = [] := by
  cases he : config.bloomEnabled with
  | false => simp [probContainsAttr, he]
  | true =>
    simp only [calculateBloom, probContainsAttr, attributes_eq, collected, he]
    exact (BloomFilter.contains_fresh config.salt attr).trans (by simp)

/-- The documents the pointer `ptr` leads to a value in are not missed. -/
def Reports (cont : JSONContainer F) (ptr : RJPointer) : Prop :=
  (∃ doc ∈ cont.docs, doc.isValid = true ∧ (get (cont.value doc) ptr).isSome = true) →
    (cont.calculateBloom config).probContainsAttr config (stringify ptr) = true

end JSONContainer

/-- There are members or elements. -/
def hasParts : RJValue F → Bool
  | .object ms => !ms.isEmpty
  | .array vs => !vs.isEmpty
  | _ => false

theorem hasParts_iff {v : RJValue F} :
    hasParts v = true ↔ ∃ ptr, ptr ≠ [] ∧ (get v ptr).isSome = true := by
  have hchild : hasParts v = true ↔ ∃ token, (child v token).isSome = true := by
    cases v with
    | object ms =>
      simp only [hasParts, child]
      cases ms with
      | nil => simp
      | cons m ms =>
        refine ⟨fun _ => ⟨m.1, ?_⟩, fun _ => rfl⟩
        rw [List.lookup_cons_self]
        rfl
    | array vs =>
      simp only [hasParts, child]
      cases vs with
      | nil => simp
      | cons w ws => exact ⟨fun _ => ⟨[48], rfl⟩, fun _ => rfl⟩
    | _ => simp [hasParts, child]
  rw [hchild]
  constructor
  · rintro ⟨token, h⟩
    exact ⟨[token], by simp, by simpa using h⟩
  · rintro ⟨ptr, hne, h⟩
    obtain ⟨token, rest, rfl⟩ := List.exists_cons_of_ne_nil hne
    refine ⟨token, ?_⟩
    rw [get_cons] at h
    cases hc : child v token with
    | none => rw [hc] at h; cases h
    | some w => rfl

open JSONContainer in
/-- **What the filter reports.** With the filter in use, the pointers to values of the documents are
all reported only if there is no document, and those below the root only if no document has
parts. -/
theorem reports_iff (config : Config) (docs : List (Document F)) (isView : Bool) :
    let cont := collected docs isView
    ((∀ ptr, Reports config cont ptr) ↔ config.bloomEnabled = false ∨ config.salt = [] ∨
        ∀ doc ∈ docs, doc.isValid = false) ∧
      ((∀ ptr, ptr ≠ [] → Reports config cont ptr) ↔ config.bloomEnabled = false ∨ config.salt = [] ∨
        ∀ doc ∈ docs, doc.isValid = true → hasParts (cont.value doc) = false) := by
  intro cont
  have hreports : ∀ ptr, Reports config cont ptr ↔
      (config.bloomEnabled = false ∨ config.salt = []) ∨ ∀ doc ∈ docs, doc.isValid = true →
        (get (cont.value doc) ptr).isSome = false := by
    intro ptr
    unfold Reports
    rw [probContainsAttr_collected]
    by_cases hoff : config.bloomEnabled = false ∨ config.salt = []
    · simp only [hoff, implies_true, true_or]
    · simp only [hoff, imp_false, false_or, not_exists, not_and, Bool.not_eq_true]
      exact Iff.rfl
  constructor
  · rw [← or_assoc]
    constructor
    · intro h
      refine ((hreports []).mp (h [])).imp_right fun hd doc hdoc => ?_
      by_contra hv
      simpa using hd doc hdoc (by simpa using hv)
    · intro h ptr
      refine (hreports ptr).mpr (h.imp_right fun hd doc hdoc hv => ?_)
      rw [hd doc hdoc] at hv
      cases hv
  · rw [← or_assoc]
    constructor
    · intro h
      by_contra hn
      rw [not_or] at hn
      obtain ⟨hon, hn⟩ := hn
      refine hn fun doc hdoc hv => ?_
      by_contra hp
      obtain ⟨ptr, hne, hs⟩ := hasParts_iff.mp (by simpa using hp)
      have hnone := ((hreports ptr).mp (h ptr hne)).resolve_left hon doc hdoc hv
      rw [hs] at hnone
      cases hnone
    · intro h ptr hne
      refine (hreports ptr).mpr (h.imp_right fun hd doc hdoc hv => ?_)
      by_contra hs
      have hp := hasParts_iff.mpr ⟨ptr, hne, (Bool.not_eq_false _).mp hs⟩
      rw [hd doc hdoc hv] at hp
      cases hp

open JSONContainer in
/-- The attribute `/a` of the document `{"a":1}`. -/
theorem not_reports : ¬ Reports ⟨true, [List.length]⟩
    (collected [(⟨true, .object [([97], .number (.int 1))], .null⟩ : Document Float)] false)
    [[97]] := by
  intro h
  have hr := h ⟨_, List.mem_singleton_self _, rfl, rfl⟩
  rw [probContainsAttr_collected] at hr
  simp at hr

end Joda.Storage.Bloom
