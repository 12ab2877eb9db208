import Joda.Join.JoinManager
import Joda.Lib.Lookup
import Joda.Lib.Runs
import Joda.QueryParsing.Printing
import Mathlib.Data.List.Nodup

/-! # Running joins

A storage collection keeps the joins that run by a name, the text of the value provider in which
every byte but letters, digits, dot and minus is an underscore. A join whose name is that of a running
one gets its manager, and stopping a join ends the one with its name. Joins keep apart exactly as long
as no provider meets a running one of another value whose text differs in such bytes at most
(`joins_apart_iff`); for the expressions of the query language, as long as the providers of one name have
one text that tells them (`joins_apart`). -/

namespace Joda.Join.JoinNames

open Joda.Values.Value Joda.Values.Provider Joda.Lib.Lookup Joda.Lib.Runs
open Joda.QueryParsing.Printing (Told Told.eq)

variable {P D V : Type}

/-- **What the joins use of a value provider**: its text and its value on a document. -/
structure Providers (P D V : Type) where
  toString : P → Str
  getValue : P → D → V

/-- The providers of the query language. -/
def valueProviders (D F : Type) [Double F] [RapidJsonDocument D F] :
    Providers (IValueProvider D F) D (Option (RJValue F)) where
  toString := IValueProvider.toString
  getValue p json := IValueProvider.getValue json p

/-- `[A-Za-z0-9.-]` -/
def kept (c : UInt8) : Bool :=
  (65 ≤ c && c ≤ 90) || (97 ≤ c && c ≤ 122) || (48 ≤ c && c ≤ 57) || c == 46 || c == 45

/-- Every byte of `[^A-Za-z0-9.-]` becomes an underscore. -/
def replaced (text : Str) : Str := text.map fun c => if kept c then c else 95

def getJoinName (E : Providers P D V) (valProv : P) : Str := replaced (E.toString valProv)

/-- **A join manager**, which has the name of its value provider. -/
structure JoinManager (E : Providers P D V) where
  address : ℕ
  inMemory : Bool
  name : Str
  valProv : P
  named : name = getJoinName E valProv

/-- The running joins, and what the calls have returned for which providers. -/
structure Joins (E : Providers P D V) where
  runningJoins : List (Str × JoinManager E)
  created : ℕ
  returned : List (P × JoinManager E)

inductive Call (E : Providers P D V) where
  | getOrStartJoin (valProv : Option P)
  | stopJoin (valProv : P)
  | stopManager (jm : JoinManager E)

namespace Joins

variable {E : Providers P D V}

/-- `std::make_shared` of the class that `storeJson` says. -/
def start (storeJson : Bool) (s : Joins E) (valProv : P) : JoinManager E :=
  { address := s.created
    inMemory := storeJson
    name := getJoinName E valProv
    valProv := valProv
    named := rfl }

/-- The manager `getOrStartJoin` returns. -/
def manager (storeJson : Bool) (s : Joins E) (valProv : P) : JoinManager E :=
  (s.runningJoins.lookup (getJoinName E valProv)).getD (s.start storeJson valProv)

/-- **`getOrStartJoin`** for a provider. -/
def getOrStartJoin (storeJson : Bool) (s : Joins E) (valProv : P) : Joins E :=
  match s.runningJoins.lookup (getJoinName E valProv) with
  | some f => { s with returned := s.returned ++ [(valProv, f)] }
  | none =>
    let jm := s.start storeJson valProv
    { runningJoins := s.runningJoins ++ [(getJoinName E valProv, jm)]
      created := s.created + 1
      returned := s.returned ++ [(valProv, jm)] }

/-- `runningJoins.erase` -/
def erase (s : Joins E) (jName : Str) : Joins E :=
  { s with runningJoins := s.runningJoins.filter fun e => e.1 ≠ jName }

/-- **A call.** -/
def call (storeJson : Bool) (s : Joins E) : Call E → Joins E
  | .getOrStartJoin none => s
  | .getOrStartJoin (some valProv) => s.getOrStartJoin storeJson valProv
  | .stopJoin valProv => s.erase (getJoinName E valProv)
  | .stopManager jm => s.erase jm.name

end Joins

/-- No join runs, and nothing was called. -/
def Initial {E : Providers P D V} (s : Joins E) : Prop := s = ⟨[], 0, []⟩

def Step {E : Providers P D V} (storeJson : Bool) (c : Call E) (s t : Joins E) : Prop :=
  t = s.call storeJson c

/-! ### Calls that keep joins apart -/

/-- The two have the same value on every document. -/
def SameValues (E : Providers P D V) (p q : P) : Prop := ∀ json, E.getValue p json = E.getValue q json

/-- Joins of another value go on. -/
def OthersRun {E : Providers P D V} (storeJson : Bool) (s : Joins E) (c : Call E) (valProv : P) : Prop :=
  ∀ e ∈ s.runningJoins, ¬ SameValues E e.2.valProv valProv → e ∈ (s.call storeJson c).runningJoins

/-- **What a call is to do**: the manager it returns was returned for providers of the same value only,
and stopping a join leaves those of another value running. -/
def Right {E : Providers P D V} (storeJson : Bool) (s : Joins E) : Call E → Prop
  | .getOrStartJoin none => True
  | .getOrStartJoin (some valProv) => ∀ e ∈ s.returned,
      e.2.address = (s.manager storeJson valProv).address → SameValues E e.1 valProv
  | .stopJoin valProv => OthersRun storeJson s (.stopJoin valProv) valProv
  | .stopManager jm => OthersRun storeJson s (.stopManager jm) jm.valProv

/-- The texts have the same length and the same letters, digits, dots and minus signs at the same
places. -/
def Confusable : Str → Str → Prop := List.Forall₂ fun a b => a = b ∨ (kept a = false ∧ kept b = false)

/-- The provider has the value of every running join whose text may be taken for its own. -/
def Apart {E : Providers P D V} (s : Joins E) (valProv : P) : Prop :=
  ∀ e ∈ s.runningJoins, Confusable (E.toString e.2.valProv) (E.toString valProv) →
    SameValues E e.2.valProv valProv

/-- A call for a provider that keeps apart. -/
def KeepsApart {E : Providers P D V} (s : Joins E) : Call E → Prop
  | .getOrStartJoin none => True
  | .getOrStartJoin (some valProv) => Apart s valProv
  | .stopJoin valProv => Apart s valProv
  | .stopManager jm => Apart s jm.valProv

/-- Every running join of the provider's name has its text, which tells the two unless they are one
expression. -/
def ToldApart {D F : Type} [Double F] [RapidJsonDocument D F] (functions : Str → Option (Func D F))
    (s : Joins (valueProviders D F)) (valProv : IValueProvider D F) : Prop :=
  ∀ e ∈ s.runningJoins, Confusable e.2.valProv.toString valProv.toString →
    Told functions e.2.valProv valProv ∧ e.2.valProv.toString = valProv.toString

/-- **The condition on a call** for an expression. -/
def Meets {D F : Type} [Double F] [RapidJsonDocument D F] (functions : Str → Option (Func D F))
    (s : Joins (valueProviders D F)) : Call (valueProviders D F) → Prop
  | .getOrStartJoin none => True
  | .getOrStartJoin (some valProv) => ToldApart functions s valProv
  | .stopJoin valProv => ToldApart functions s valProv
  | .stopManager jm => ToldApart functions s jm.valProv

/-! ### Names -/

theorem kept_underscore : kept 95 = false := by decide

theorem replaced_byte_eq {a b : UInt8} : (if kept a then a else 95) = (if kept b then b else 95) ↔
    a = b ∨ (kept a = false ∧ kept b = false) := by
  by_cases ha : kept a = true
  · by_cases hb : kept b = true
    · simp [ha, hb]
    · simp only [ha, hb, if_true, Bool.true_eq_false, false_and, or_false]
      constructor
      · intro hab
        have h95 : a = 95 := hab
        rw [h95, kept_underscore] at ha
        cases ha
      · rintro rfl
        exact absurd ha hb
  · by_cases hb : kept b = true
    · simp only [ha, hb, if_true, Bool.true_eq_false, and_false, or_false]
      constructor
      · intro hab
        have h95 : 95 = b := hab
        rw [← h95, kept_underscore] at hb
        cases hb
      · rintro rfl
        exact absurd hb ha
    · simp [ha, hb]

/-- **Two texts give one name** exactly if they are confusable. -/
theorem replaced_eq_iff {s t : Str} : replaced s = replaced t ↔ Confusable s t := by
  unfold replaced Confusable
  rw [← List.forall₂_eq_eq_eq, List.forall₂_map_left_iff, List.forall₂_map_right_iff]
  exact ⟨fun h => h.imp fun a b hab => replaced_byte_eq.mp hab,
    fun h => h.imp fun a b hab => replaced_byte_eq.mpr hab⟩

/-! ### The invariant -/

/-- **What holds as long as the calls are right**: a running join was returned for its own provider, and
its manager for providers of that value only. -/
structure Inv {E : Providers P D V} (s : Joins E) : Prop where
  keys : (s.runningJoins.map Prod.fst).Nodup
  named : ∀ e ∈ s.runningJoins, e.1 = e.2.name
  started : ∀ e ∈ s.runningJoins, (e.2.valProv, e.2) ∈ s.returned
  allocated : ∀ e ∈ s.returned, e.2.address < s.created
  same : ∀ e ∈ s.returned, ∀ e' ∈ s.runningJoins, e.2.address = e'.2.address →
    SameValues E e.1 e'.2.valProv

section Runs

variable {E : Providers P D V} {storeJson : Bool} {s : Joins E}

theorem initial_inv (h : Initial s) : Inv s := by
  obtain rfl := h
  exact ⟨List.nodup_nil, by simp, by simp, by simp, by simp⟩

theorem SameValues.symm {p q : P} (h : SameValues E p q) : SameValues E q p := fun json => (h json).symm

theorem SameValues.trans {p q r : P} (h : SameValues E p q) (h' : SameValues E q r) :
    SameValues E p r := fun json => (h json).trans (h' json)

/-- A running join is found by the name of its provider. -/
theorem Inv.lookup (h : Inv s) {e : Str × JoinManager E} (he : e ∈ s.runningJoins) :
    s.runningJoins.lookup (getJoinName E e.2.valProv) = some e.2 := by
  have hname : e.1 = getJoinName E e.2.valProv := (h.named e he).trans e.2.named
  rw [← hname]
  rcases hfind : s.runningJoins.lookup e.1 with _ | m
  · have hno := List.lookup_eq_none_iff.mp hfind e he
    simp at hno
  · have hmem := mem_of_lookup hfind
    have heq : (e.1, m) = e := List.inj_on_of_nodup_map h.keys hmem he rfl
    rw [← heq]

/-- What is found by a name has a provider with that name. -/
theorem Inv.of_lookup (h : Inv s) {jName : Str} {m : JoinManager E}
    (hm : s.runningJoins.lookup jName = some m) :
    (jName, m) ∈ s.runningJoins ∧ getJoinName E m.valProv = jName := by
  have hmem := mem_of_lookup hm
  exact ⟨hmem, m.named.symm.trans (h.named _ hmem).symm⟩

theorem Inv.erase (h : Inv s) (jName : Str) : Inv (s.erase jName) := by
  have hsub : ∀ e ∈ (s.erase jName).runningJoins, e ∈ s.runningJoins := fun e he =>
    List.mem_of_mem_filter he
  exact ⟨h.keys.sublist (List.filter_sublist.map Prod.fst), fun e he => h.named e (hsub e he),
    fun e he => h.started e (hsub e he), h.allocated, fun e he e' he' => h.same e he e' (hsub e' he')⟩

/-- **Step**: a call that is right keeps the invariant. -/
theorem call_inv (h : Inv s) {c : Call E} (hr : Right storeJson s c) : Inv (s.call storeJson c) := by
  rcases c with ⟨_ | valProv⟩ | valProv | jm
  · exact h
  · simp only [Right, Joins.manager] at hr
    simp only [Joins.call, Joins.getOrStartJoin]
    rcases hfind : s.runningJoins.lookup (getJoinName E valProv) with _ | m <;> rw [hfind] at hr
    · have hold : ∀ e ∈ s.runningJoins, e.2.address < s.created := fun e he =>
        h.allocated _ (h.started e he)
      refine ⟨?_, ?_, ?_, ?_, ?_⟩
      · rw [List.map_append, List.map_singleton]
        refine List.nodup_append.mpr ⟨h.keys, List.nodup_singleton _, fun a ha b hb hab => ?_⟩
        obtain ⟨e, he, rfl⟩ := List.mem_map.mp ha
        have hno := List.lookup_eq_none_iff.mp hfind e he
        rw [List.mem_singleton.mp hb] at hab
        simp [hab] at hno
      · intro e he
        rcases List.mem_append.mp he with he | he
        · exact h.named e he
        · obtain rfl := List.mem_singleton.mp he
          rfl
      · intro e he
        rcases List.mem_append.mp he with he | he
        · exact List.mem_append_left _ (h.started e he)
        · obtain rfl := List.mem_singleton.mp he
          exact List.mem_append_right _ List.mem_cons_self
      · intro e he
        rcases List.mem_append.mp he with he | he
        · exact Nat.lt_succ_of_lt (h.allocated e he)
        · obtain rfl := List.mem_singleton.mp he
          exact Nat.lt_succ_self _
      · intro e he e' he' haddr
        rcases List.mem_append.mp he with he | he <;> rcases List.mem_append.mp he' with he' | he'
        · exact h.same e he e' he' haddr
        · obtain rfl := List.mem_singleton.mp he'
          exact absurd haddr (Nat.ne_of_lt (h.allocated e he))
        · obtain rfl := List.mem_singleton.mp he
          exact absurd haddr.symm (Nat.ne_of_lt (hold e' he'))
        · obtain rfl := List.mem_singleton.mp he
          obtain rfl := List.mem_singleton.mp he'
          exact fun _ => rfl
    · obtain ⟨hmem, -⟩ := h.of_lookup hfind
      refine ⟨h.keys, h.named, fun e he => List.mem_append_left _ (h.started e he), ?_, ?_⟩
      · intro e he
        rcases List.mem_append.mp he with he | he
        · exact h.allocated e he
        · obtain rfl := List.mem_singleton.mp he
          exact h.allocated (m.valProv, m) (h.started _ hmem)
      · intro e he e' he' haddr
        rcases List.mem_append.mp he with he | he
        · exact h.same e he e' he' haddr
        · obtain rfl := List.mem_singleton.mp he
          exact (hr _ (h.started e' he') haddr.symm).symm
  · exact h.erase _
  · exact h.erase _

/-- Those of another value go on exactly if no join of another value is erased. -/
theorem othersRun_iff (h : Inv s) {c : Call E} {valProv : P}
    (hc : s.call storeJson c = s.erase (getJoinName E valProv)) :
    OthersRun storeJson s c valProv ↔ Apart s valProv := by
  unfold OthersRun Apart
  rw [hc]
  refine forall₂_congr fun e he => ?_
  have hname : e.1 = getJoinName E e.2.valProv := (h.named e he).trans e.2.named
  have hmem : e ∈ (s.erase (getJoinName E valProv)).runningJoins ↔
      ¬ Confusable (E.toString e.2.valProv) (E.toString valProv) := by
    rw [← replaced_eq_iff]
    simp only [Joins.erase, List.mem_filter, he, true_and, hname, decide_eq_true_eq, ne_eq]
    rfl
  rw [hmem]
  tauto

/-- **One call is right exactly if its provider keeps apart.** -/
theorem right_iff (c : Call E) (h : Inv s) : Right storeJson s c ↔ KeepsApart s c := by
  rcases c with ⟨_ | valProv⟩ | valProv | jm
  · exact Iff.rfl
  · simp only [Right, KeepsApart, Joins.manager, Apart]
    constructor
    · intro hr e he htext
      have hname : getJoinName E e.2.valProv = getJoinName E valProv := replaced_eq_iff.mpr htext
      have hfind := h.lookup he
      rw [hname] at hfind
      rw [hfind] at hr
      exact hr _ (h.started e he) rfl
    · intro hm e he haddr
      rcases hfind : s.runningJoins.lookup (getJoinName E valProv) with _ | m <;> rw [hfind] at haddr
      · exact absurd haddr (Nat.ne_of_lt (h.allocated e he))
      · obtain ⟨hmem, hname⟩ := h.of_lookup hfind
        exact (h.same e he _ hmem haddr).trans (hm _ hmem (replaced_eq_iff.mp hname))
  · exact othersRun_iff h rfl
  · refine othersRun_iff h ?_
    rw [← jm.named]
    rfl

/-- Joins keep apart, in every sequence of calls, exactly as long as no call is made for a provider whose
text may be taken for the one of a running join of another value. -/
theorem joins_apart_iff (E : Providers P D V) (storeJson : Bool) (past : List (Joins E × Call E))
    (s : Joins E) (h : Run Initial (Step storeJson) past s) :
    (∀ p ∈ past, Right storeJson p.1 p.2) ↔ ∀ p ∈ past, KeepsApart p.1 p.2 := by
  refine h.each_iff Inv (Right storeJson) KeepsApart (fun _ hs => initial_inv hs) ?_
    fun c s hs => right_iff c hs
  rintro c s t hs hr rfl
  exact call_inv hs hr

end Runs

/-! ### Expressions -/

section Expressions

variable {D F : Type} [Double F] [RapidJsonDocument D F] {functions : Str → Option (Func D F)}
  {s : Joins (valueProviders D F)}

theorem ToldApart.apart {valProv : IValueProvider D F} (h : ToldApart functions s valProv) :
    Apart s valProv := by
  intro e he hname json
  obtain ⟨htold, htext⟩ := h e he hname
  rw [htold.eq htext]

theorem Meets.keepsApart {c : Call (valueProviders D F)} (h : Meets functions s c) :
    KeepsApart s c := by
  rcases c with ⟨_ | valProv⟩ | valProv | jm
  · exact trivial
  · exact ToldApart.apart h
  · exact ToldApart.apart h
  · exact ToldApart.apart h

/-- **Joins keep apart**, in every sequence of calls for expressions that all meet the condition. -/
theorem joins_apart (functions : Str → Option (Func D F)) (storeJson : Bool)
    (past : List (Joins (valueProviders D F) × Call (valueProviders D F)))
    (s : Joins (valueProviders D F)) (h : Run Initial (Step storeJson) past s)
    (hm : ∀ p ∈ past, Meets functions p.1 p.2) : ∀ p ∈ past, Right storeJson p.1 p.2 := by
  rw [joins_apart_iff (valueProviders D F) storeJson past s h]
  exact fun p hp => (hm p hp).keepsApart

end Expressions

/-! ### Two pointers -/

/-- The provider of a pointer. -/
def pointerTo (ptrStr : String) : IValueProvider (FlatDocument Float) Float := .pointer (ascii ptrStr)

/-- Joins of two pointers run, the second call for `'/a'` gets its running join, and `'/b'` stops. -/
theorem joins_apart_pointers :
    ∃ (past : List (Joins (valueProviders (FlatDocument Float) Float) × Call (valueProviders _ _)))
      (s : Joins (valueProviders (FlatDocument Float) Float)),
      Run Initial (Step true) past s ∧
        past.map Prod.snd = [.stopJoin (pointerTo "/b"), .getOrStartJoin (some (pointerTo "/a")),
          .getOrStartJoin (some (pointerTo "/b")), .getOrStartJoin (some (pointerTo "/a"))] ∧
        s.returned.map (fun e => e.2.address) = [0, 1, 0] ∧ ∀ p ∈ past, Right true p.1 p.2 := by
  have hstart : Run Initial (Step true) []
      (⟨[], 0, []⟩ : Joins (valueProviders (FlatDocument Float) Float)) := .start rfl
  have hfirst := hstart.step (a := .getOrStartJoin (some (pointerTo "/a"))) rfl
  have hsecond := hfirst.step (a := .getOrStartJoin (some (pointerTo "/b"))) rfl
  have hthird := hsecond.step (a := .getOrStartJoin (some (pointerTo "/a"))) rfl
  have hfourth := hthird.step (a := .stopJoin (pointerTo "/b")) rfl
  refine ⟨_, _, hfourth, rfl, rfl, joins_apart (fun _ => none) true _ _ hfourth ?_⟩
  -- the names of `'/a'` and `'/b'` differ
  have hdiffer : ∀ a b : String, replaced (ascii a) ≠ replaced (ascii b) →
      ¬ Confusable (ascii a) (ascii b) := fun a b hne h => hne (replaced_eq_iff.mpr h)
  have hab : ¬ Confusable (pointerTo "/a").toString (pointerTo "/b").toString :=
    hdiffer "'/a'" "'/b'" (by decide)
  have hba : ¬ Confusable (pointerTo "/b").toString (pointerTo "/a").toString :=
    hdiffer "'/b'" "'/a'" (by decide)
  refine List.forall_mem_cons.mpr ⟨?_, List.forall_mem_cons.mpr ⟨?_, List.forall_mem_cons.mpr ⟨?_,
    List.forall_mem_singleton.mpr (List.forall_mem_nil _)⟩⟩⟩
  · refine List.forall_mem_cons.mpr ⟨fun h => absurd h hab, List.forall_mem_singleton.mpr fun _ => ?_⟩
    exact ⟨Or.inl rfl, rfl⟩
  · refine List.forall_mem_cons.mpr ⟨fun _ => ⟨Or.inl rfl, rfl⟩, List.forall_mem_singleton.mpr ?_⟩
    exact fun h => absurd h hba
  · exact List.forall_mem_singleton.mpr fun h => absurd h hab

/-- The joins of `'/a/b'` and `'/a_b'` have one manager. -/
theorem pointers_share_manager : ¬ ∀ (storeJson : Bool)
    (calls : List (Call (valueProviders (FlatDocument Float) Float))),
    ∀ e ∈ (calls.foldl (Joins.call storeJson) ⟨[], 0, []⟩).returned,
      ∀ e' ∈ (calls.foldl (Joins.call storeJson) ⟨[], 0, []⟩).returned,
        e.2.address = e'.2.address → SameValues (valueProviders (FlatDocument Float) Float) e.1 e'.1 := by
  intro h
  have hsame := h true [.getOrStartJoin (some (pointerTo "/a/b")),
    .getOrStartJoin (some (pointerTo "/a_b"))] (pointerTo "/a/b", _) List.mem_cons_self
    (pointerTo "/a_b", _) (List.mem_cons_of_mem _ List.mem_cons_self) rfl
    ⟨[(ascii "/a/b", .null)]⟩
  have hleft : (valueProviders (FlatDocument Float) Float).getValue (pointerTo "/a/b")
      ⟨[(ascii "/a/b", .null)]⟩ = some .null := by
    simp [valueProviders, pointerTo, IValueProvider.getValue, RapidJsonDocument.get]
  have hright : (valueProviders (FlatDocument Float) Float).getValue (pointerTo "/a_b")
      ⟨[(ascii "/a/b", .null)]⟩ = none := by
    have hne : ascii "/a_b" ≠ ascii "/a/b" := by decide
    simp only [valueProviders, pointerTo, IValueProvider.getValue, RapidJsonDocument.get, lookup_pair,
      if_neg hne, List.lookup_nil]
  rw [hleft, hright] at hsame
  cases hsame

end Joda.Join.JoinNames
