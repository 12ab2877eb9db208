import Joda.Index.LastUsed
import Joda.Lib.Fuel
import Joda.Text

/-! # Making room

`MemoryManager::isAvailable` subtracts unsigned 64-bit numbers: it only says no where the bytes asked
for end exactly at the total. `free` counts the elements from the oldest on until their sizes are
enough, and then takes out what it may on the way back, the most recent of them first. -/

namespace Joda.Index.MemoryManager

open Joda.Lib.Chain Joda.Lib.Fuel Joda.Index.LastUsed

/-! ### The code -/

inductive ManagedDataType where
  | UnionTreeNodeData | AdaptiveTrieData | NumberIndexData
  deriving DecidableEq, Repr

variable {ι : Type} [DecidableEq ι]

/-- The managed elements: their node and their kind. -/
structure Elements (ι : Type) where
  jsonPath : ι → Str
  dataType : ι → ManagedDataType

/-- The memory of the system with the managed elements; `evicted` is what was removed so far, one
after the other. -/
structure Memory (ι : Type) where
  managed : Managed ι
  used : ℕ
  evicted : List ι

/-- What does not change: the elements, the total memory and the buffer. -/
structure System (ι : Type) where
  elements : Elements ι
  total : ℕ
  buffer : ℕ

/-- `isAvailable`, on unsigned 64-bit numbers -/
def isAvailable (sys : System ι) (used size : ℕ) : Bool :=
  0 < ((sys.total : ℤ) - used - size - sys.buffer) % 2 ^ 64

/-- Whether an element is not directly related to the one that asks. -/
def evictable (sys : System ι) (callingElement : Option ι) (e : ι) : Bool :=
  match callingElement with
  | none => true
  | some c =>
    sys.elements.jsonPath e != sys.elements.jsonPath c ||
      (sys.elements.dataType e != .UnionTreeNodeData &&
        sys.elements.dataType e != sys.elements.dataType c)

/-- The memory used without the element. -/
def lower (memorySize : ι → ℕ) (used : ℕ) (e : ι) : ℕ :=
  (((used : ℤ) - memorySize e) % 2 ^ 64).toNat

/-- What can be freed, with one more element. -/
def addFreeable (sys : System ι) (callingElement : Option ι) (memorySize : ι → ℕ) (freeAble : ℕ)
    (e : ι) : ℕ :=
  if evictable sys callingElement e then (freeAble + memorySize e) % 2 ^ 64 else freeAble

/-- The element is taken out of the list. -/
def unlink (m : Managed ι) (e : ι) : Managed ι :=
  match m.previous e, m.next e with
  -- between two elements
  | some p, some n =>
    { m with
      next := Function.update m.next p (some n), previous := Function.update m.previous n (some p) }
  -- recent element with older elements
  | some p, none => { m with next := Function.update m.next p none, recentlyUsedElement := some p }
  -- left with more recent elements
  | none, some n =>
    { m with oldestUsedElement := some n, previous := Function.update m.previous n none }
  -- last element left in the chain
  | none, none => { m with oldestUsedElement := none, recentlyUsedElement := none }

/-- The element is taken out and removed, which frees its memory. -/
def evict (s : Memory ι) (e : ι) : Memory ι :=
  ⟨unlink s.managed e, lower s.managed.memorySize s.used e, s.evicted ++ [e]⟩

section Code

variable (sys : System ι) (size : ℕ) (callingElement : Option ι)

/-- The walk from the oldest element on: how much can be freed, and the element it ends at. -/
def count (m : Managed ι) : ℕ → ℕ → Option ι → Option (ℕ × Option ι)
  | 0, _, _ => none
  | fuel + 1, freeAble, managedElement =>
    if freeAble < size then
      match managedElement with
      | some e =>
        count m fuel (addFreeable sys callingElement m.memorySize freeAble e) (m.next e)
      | none => some (freeAble, none)
    else some (freeAble, managedElement)

/-- The walk back from an element, which removes what it may. -/
def evictBack : ℕ → Option ι → Memory ι → Option (Memory ι)
  | 0, _, _ => none
  | _ + 1, none, s => some s
  | fuel + 1, some e, s =>
    let s' := if evictable sys callingElement e then evict s e else s
    evictBack fuel (s'.managed.previous e) s'

def freeLoop : ℕ → Option ι → Memory ι → Option (Memory ι)
  | 0, _, _ => none
  | fuel + 1, managedElement, s =>
    if isAvailable sys s.used size then some s
    else
      (evictBack sys callingElement fuel (managedElement.or s.managed.oldestUsedElement) s).bind
        (freeLoop fuel none)

/-- **`MemoryManager::free`** -/
def free (fuel : ℕ) (s : Memory ι) : Option (Bool × Memory ι) :=
  (count sys size callingElement s.managed fuel 0 s.managed.oldestUsedElement).bind
    fun (freeAble, managedElement) =>
      if freeAble < size then some (false, s)
      else
        (freeLoop sys size callingElement fuel
          (managedElement.or s.managed.recentlyUsedElement) s).map fun s => (true, s)

/-- **`MemoryManager::ensureMemory`** -/
def ensureMemory (s : Memory ι) (fuel : ℕ) : Option (Bool × Memory ι) :=
  if isAvailable sys s.used size then some (true, s) else free sys size callingElement fuel s

end Code

/-! ### On lists -/

/-- The pointers are those of the list. -/
def Lists (m : Managed ι) (l : List ι) : Prop :=
  Linked m.previous m.next m.oldestUsedElement m.recentlyUsedElement l

theorem Lists.remove {m : Managed ι} {u v : List ι} {e : ι} (h : Lists m (u ++ e :: v)) :
    Lists (unlink m e) (u ++ v) ∧ (unlink m e).previous e = u.getLast? := by
  obtain ⟨hp, hn⟩ := Linked.neighbours h
  have hr := Linked.remove h
  have hfirst := Linked.first h
  have hlast := Linked.last h
  have hnodup := Linked.nodup h
  rw [List.nodup_append] at hnodup
  have hself : put m.previous v.head? u.getLast? e = u.getLast? := by
    rw [put_other, hp]
    exact fun hs => (List.nodup_cons.mp hnodup.2.1).1 (List.mem_of_mem_head? hs)
  unfold Lists unlink
  cases hu : u.getLast? with
  | none =>
    have hnil : u = [] := List.getLast?_eq_none_iff.mp hu
    subst hnil
    cases v with
    | nil => exact ⟨by simpa [hp, hn, put] using hr, by simp [hp, hn]⟩
    | cons n v =>
      rw [hu] at hp hself
      simp only [List.head?_cons] at hn hself
      simp only [hp, hn]
      refine ⟨?_, hself⟩
      have hlast' : m.recentlyUsedElement = (n :: v).getLast?.or none := by
        rw [hlast, Option.or_none]
        simp
      rw [hlast']
      exact hr
  | some p =>
    obtain ⟨w, hw⟩ := List.getLast?_eq_some_iff.mp hu
    have hfirst' : m.oldestUsedElement = u.head?.or v.head? := by
      rw [hfirst, hw]
      cases w <;> simp
    rw [hu] at hp hself hr
    cases v with
    | nil =>
      simp only [hp, hn, List.head?_nil] at hr ⊢
      refine ⟨?_, trivial⟩
      rw [hfirst']
      exact hr
    | cons n v =>
      simp only [List.head?_cons] at hn hself
      simp only [hp, hn]
      refine ⟨?_, hself⟩
      have hlast' : m.recentlyUsedElement = (n :: v).getLast?.or (some p) := by
        rw [hlast, List.getLast?_append]
        cases hv : (n :: v).getLast? with
        | none => simp at hv
        | some r => rw [List.getLast?_cons_cons, hv]; rfl
      rw [hfirst', hlast']
      exact hr

theorem unlink_memorySize (m : Managed ι) (e : ι) : (unlink m e).memorySize = m.memorySize := by
  unfold unlink
  split <;> rfl

section Lists

variable (sys : System ι) (size : ℕ) (callingElement : Option ι) (memorySize : ι → ℕ)

/-- The count on a list: how much can be freed, the elements up to the one after those counted, and
the others. -/
def reach : ℕ → List ι → ℕ × List ι × List ι
  | freeAble, [] => (freeAble, [], [])
  | freeAble, e :: l =>
    if freeAble < size then
      let r := reach (addFreeable sys callingElement memorySize freeAble e) l
      (r.1, e :: r.2.1, r.2.2)
    else (freeAble, [e], l)

/-- The elements that are removed from the oldest on, one by one, until there is room, `none` if this
never ends. -/
def oneByOne : ℕ → List ι → Option (List ι)
  | used, [] => if isAvailable sys used size then some [] else none
  | used, e :: l =>
    if isAvailable sys used size then some []
    else if evictable sys callingElement e then
      (oneByOne (lower memorySize used e) l).map (e :: ·)
    else none

end Lists

variable (sys : System ι) (size : ℕ) (callingElement : Option ι)

omit [DecidableEq ι] in
theorem reach_append (memorySize : ι → ℕ) : ∀ (l : List ι) (freeAble : ℕ),
    (reach sys size callingElement memorySize freeAble l).2.1 ++
      (reach sys size callingElement memorySize freeAble l).2.2 = l
  | [], _ => rfl
  | e :: l, freeAble => by
    rw [reach]
    by_cases h : freeAble < size
    · rw [if_pos h]
      exact congrArg (e :: ·) (reach_append memorySize l _)
    · rw [if_neg h]
      rfl

/-! ### The loops -/

omit [DecidableEq ι] in
/-- The count ends behind the elements it has counted. -/
theorem count_returns {m : Managed ι} : ∀ {l : List ι} {o : Option ι} (freeAble : ℕ)
    (p : Option ι), Walk m.next o l →
    ∃ o', Returns (fun n => count sys size callingElement m n freeAble o)
        ((reach sys size callingElement m.memorySize freeAble l).1, o') ∧
      o'.or (l.getLast?.or p) =
        (reach sys size callingElement m.memorySize freeAble l).2.1.getLast?.or p
  | [], _, freeAble, p, .stop => by
    refine ⟨none, Returns.of_succ (g := fun _ => some (freeAble, none)) (fun n => ?_)
      (Returns.pure _), rfl⟩
    rw [count]
    split_ifs <;> rfl
  | e :: l, _, freeAble, p, .step h => by
    have hcons : ∀ w : List ι, (e :: w).getLast?.or p = w.getLast?.or (some e) := fun w => by
      rw [List.getLast?_cons]
      cases w.getLast? <;> rfl
    rw [reach]
    by_cases hlt : freeAble < size
    · rw [if_pos hlt]
      obtain ⟨o', h1, h2⟩ := count_returns
        (addFreeable sys callingElement m.memorySize freeAble e) (some e) h
      refine ⟨o', Returns.of_succ (fun n => ?_) h1, ?_⟩
      · rw [count, if_pos hlt]
      · rw [hcons, hcons]
        exact h2
    · rw [if_neg hlt]
      refine ⟨some e, Returns.of_succ (g := fun _ => some (freeAble, some e)) (fun n => ?_)
        (Returns.pure _), rfl⟩
      rw [count, if_neg hlt]

/-- **The walk back** removes what it may, the most recent element first. -/
theorem evictBack_returns (u : List ι) : ∀ (v : List ι) (s : Memory ι), Lists s.managed (u ++ v) →
    ∃ s', Returns (fun n => evictBack sys callingElement n u.getLast? s) s' ∧
      Lists s'.managed (u.filter (fun e => !evictable sys callingElement e) ++ v) ∧
      s'.evicted = s.evicted ++ (u.filter (evictable sys callingElement)).reverse ∧
      s'.used = (u.filter (evictable sys callingElement)).reverse.foldl
        (lower s.managed.memorySize) s.used ∧
      s'.managed.memorySize = s.managed.memorySize := by
  induction u using List.reverseRecOn with
  | nil =>
    intro v s h
    exact ⟨s, Returns.of_succ (g := fun _ => some s) (fun n => rfl) (Returns.pure _), h, by simp,
      rfl, rfl⟩
  | append_singleton w e ih =>
    intro v s h
    have hassoc : w ++ [e] ++ v = w ++ e :: v := by simp
    rw [hassoc] at h
    cases he : evictable sys callingElement e with
    | true =>
      obtain ⟨h1, h2⟩ := h.remove
      obtain ⟨s', hret, g1, g2, g3, g4⟩ := ih v (evict s e) h1
      have hm : (evict s e).managed.memorySize = s.managed.memorySize := unlink_memorySize _ _
      refine ⟨s', Returns.of_succ (fun n => ?_) hret, ?_, ?_, ?_, g4.trans hm⟩
      · rw [List.getLast?_concat, evictBack, he, if_pos rfl]
        exact congrArg (fun o => evictBack sys callingElement n o (evict s e)) h2
      · rw [List.filter_append, List.filter_singleton, he]
        simpa using g1
      · rw [List.filter_append, List.filter_singleton, he, g2]
        simp [evict]
      · rw [List.filter_append, List.filter_singleton, he, g3, hm]
        simp [evict]
    | false =>
      obtain ⟨s', hret, g1, g2, g3, g4⟩ := ih (e :: v) s h
      refine ⟨s', Returns.of_succ (fun n => ?_) hret, ?_, ?_, ?_, g4⟩
      · rw [List.getLast?_concat, evictBack, he, if_neg (by simp)]
        exact congrArg (fun o => evictBack sys callingElement n o s) h.neighbours.1
      · rw [List.filter_append, List.filter_singleton, he]
        simpa using g1
      · rw [List.filter_append, List.filter_singleton, he, g2]
        simp
      · rw [List.filter_append, List.filter_singleton, he, g3]
        simp

/-- Only more is removed. -/
theorem evictBack_evicted : ∀ {n : ℕ} {o : Option ι} {s s' : Memory ι},
    evictBack sys callingElement n o s = some s' → s.evicted <+: s'.evicted
  | 0, _, _, _, h => by simp [evictBack] at h
  | n + 1, none, s, s', h => by
    rw [evictBack] at h
    exact Option.some.inj h ▸ List.prefix_rfl
  | n + 1, some e, s, s', h => by
    rw [evictBack] at h
    refine List.IsPrefix.trans ?_ (evictBack_evicted h)
    split_ifs
    · exact List.prefix_append _ _
    · exact List.prefix_rfl

theorem freeLoop_evicted : ∀ {n : ℕ} {o : Option ι} {s s' : Memory ι},
    freeLoop sys size callingElement n o s = some s' → s.evicted <+: s'.evicted
  | 0, _, _, _, h => by simp [freeLoop] at h
  | n + 1, o, s, s', h => by
    rw [freeLoop] at h
    split_ifs at h
    · exact Option.some.inj h ▸ List.prefix_rfl
    · obtain ⟨t, h1, h2⟩ := Option.bind_eq_some_iff.mp h
      exact (evictBack_evicted sys callingElement h1).trans (freeLoop_evicted h2)

/-- From the oldest element the walk back ends at once. -/
theorem evictBack_oldest {l : List ι} {e : ι} {s : Memory ι} (h : Lists s.managed (e :: l)) (n : ℕ) :
    evictBack sys callingElement n (some e) s = none ∨
      evictBack sys callingElement n (some e) s =
        some (if evictable sys callingElement e then evict s e else s) := by
  match n with
  | 0 => exact Or.inl rfl
  | 1 => exact Or.inl rfl
  | n + 2 =>
    right
    have hprevious : (if evictable sys callingElement e then evict s e else s).managed.previous e =
        none := by
      split_ifs
      · exact (Lists.remove (u := []) h).2
      · exact (Linked.neighbours (u := []) h).1
    rw [evictBack, hprevious, evictBack]

theorem freeLoop_returns : ∀ {l r : List ι} {s : Memory ι}, Lists s.managed l →
    oneByOne sys size callingElement s.managed.memorySize s.used l = some r →
    ∃ s' v, Returns (fun n => freeLoop sys size callingElement n none s) s' ∧ l = r ++ v ∧
      Lists s'.managed v ∧ s'.evicted = s.evicted ++ r ∧ isAvailable sys s'.used size = true ∧
      ∀ e ∈ r, evictable sys callingElement e = true := by
  intro l
  induction l with
  | nil =>
    intro r s h hr
    unfold oneByOne at hr
    split_ifs at hr with ha
    obtain rfl := Option.some.inj hr
    refine ⟨s, [], Returns.of_succ (g := fun _ => some s) (fun n => ?_) (Returns.pure _), rfl, h,
      by simp, ha, by simp⟩
    rw [freeLoop, if_pos ha]
  | cons e l ih =>
    intro r s h hr
    unfold oneByOne at hr
    split_ifs at hr with ha he
    · obtain rfl := Option.some.inj hr
      refine ⟨s, e :: l, Returns.of_succ (g := fun _ => some s) (fun n => ?_) (Returns.pure _), rfl,
        h, by simp, ha, by simp⟩
      rw [freeLoop, if_pos ha]
    · obtain ⟨r', hr', rfl⟩ := Option.map_eq_some_iff.mp hr
      have hrest : Lists (evict s e).managed l := (Lists.remove (u := []) h).1
      have hm : (evict s e).managed.memorySize = s.managed.memorySize := unlink_memorySize _ _
      obtain ⟨s', v, h1, h2, h3, h4, h5, h6⟩ := ih (s := evict s e) hrest (by rw [hm]; exact hr')
      have hback : Returns (fun n => evictBack sys callingElement n (some e) s) (evict s e) := by
        refine ⟨2, fun n hn => ?_⟩
        rcases evictBack_oldest sys callingElement h n with hnone | hsome
        · obtain ⟨k, rfl⟩ : ∃ k, n = k + 2 := ⟨n - 2, by omega⟩
          have hprevious : (evict s e).managed.previous e = none := (Lists.remove (u := []) h).2
          rw [evictBack, he, if_pos rfl, hprevious, evictBack] at hnone
          cases hnone
        · rw [he, if_pos rfl] at hsome
          exact hsome
      refine ⟨s', v, Returns.of_succ (fun n => ?_) (hback.bind h1), by rw [h2]; rfl, h3, ?_, h5,
        List.forall_mem_cons.mpr ⟨he, h6⟩⟩
      · rw [freeLoop, if_neg ha, Option.none_or, Linked.first h]
        rfl
      · rw [h4]
        simp [evict]

/-- The loop goes on for ever at an element it may not remove, and with no element left. -/
theorem freeLoop_diverges : ∀ {l : List ι} {s : Memory ι}, Lists s.managed l →
    oneByOne sys size callingElement s.managed.memorySize s.used l = none →
    ∀ n, freeLoop sys size callingElement n none s = none := by
  intro l
  induction l with
  | nil =>
    intro s h hr n
    unfold oneByOne at hr
    split_ifs at hr with ha
    induction n with
    | zero => rfl
    | succ n ih =>
      rw [freeLoop, if_neg ha, Option.none_or, Linked.first h]
      cases n with
      | zero => rfl
      | succ n => exact ih
  | cons e l ih =>
    intro s h hr n
    unfold oneByOne at hr
    split_ifs at hr with ha he
    · rw [Option.map_eq_none_iff] at hr
      cases n with
      | zero => rfl
      | succ n =>
        rw [freeLoop, if_neg ha, Option.none_or, Linked.first h, List.head?_cons]
        rcases evictBack_oldest sys callingElement h n with hnone | hsome
        · rw [hnone, Option.bind_none]
        · rw [hsome, he, if_pos rfl, Option.bind_some]
          refine ih (s := evict s e) (Lists.remove (u := []) h).1 ?_ n
          rw [show (evict s e).managed.memorySize = s.managed.memorySize from unlink_memorySize _ _]
          exact hr
    · induction n with
      | zero => rfl
      | succ n ihn =>
        rw [freeLoop, if_neg ha, Option.none_or, Linked.first h, List.head?_cons]
        rcases evictBack_oldest sys callingElement h n with hnone | hsome
        · rw [hnone, Option.bind_none]
        · rw [hsome, if_neg he, Option.bind_some]
          exact ihn

/-! ### One request -/

variable {sys size callingElement}

/-- The element belongs to the node of the one that asks, which needs it. -/
def Own (sys : System ι) (callingElement : Option ι) (e : ι) : Prop :=
  ∃ c, callingElement = some c ∧ sys.elements.jsonPath e = sys.elements.jsonPath c ∧
    (sys.elements.dataType e = .UnionTreeNodeData ∨
      sys.elements.dataType e = sys.elements.dataType c)

omit [DecidableEq ι] in
theorem evictable_iff (e : ι) : evictable sys callingElement e = true ↔ ¬ Own sys callingElement e := by
  cases callingElement with
  | none => simp [evictable, Own]
  | some c =>
    simp only [evictable, Own, Bool.or_eq_true, Bool.and_eq_true, bne_iff_ne, ne_eq,
      Option.some.injEq, exists_eq_left']
    tauto

/-- **What a request should do**, with `l` the list of the elements. -/
structure MakesRoom (sys : System ι) (size : ℕ) (callingElement : Option ι) (m : Managed ι)
    (used : ℕ) (l : List ι) : Prop where
  /-- There is room only if the bytes fit. -/
  fits : isAvailable sys used size = true → used + size + sys.buffer < sys.total
  /-- The request returns, with room if it says so; what it evicts is none of its own, goes from the
  least recently used element on, and is what is gone from the list afterwards. -/
  returns : ∃ ret s', Returns (ensureMemory sys size callingElement ⟨m, used, []⟩) (ret, s') ∧
    (ret = true → isAvailable sys s'.used size = true) ∧
    (∀ e ∈ s'.evicted, ¬ Own sys callingElement e) ∧
    s'.evicted <+: l.filter (evictable sys callingElement) ∧
    Lists s'.managed (l.filter (· ∉ s'.evicted))

/-- **The condition**: the bytes fit; or the unsigned difference is zero, and what can be freed is not
enough, or the walk back has one element to remove at most and removing from the oldest on then makes
room. -/
def Orderly (sys : System ι) (size : ℕ) (callingElement : Option ι) (m : Managed ι) (used : ℕ)
    (l : List ι) : Prop :=
  if isAvailable sys used size then used + size + sys.buffer < sys.total
  else
    let r := reach sys size callingElement m.memorySize 0 l
    let back := r.2.1.filter (evictable sys callingElement)
    r.1 < size ∨ back.length ≤ 1 ∧
      (oneByOne sys size callingElement m.memorySize (back.foldl (lower m.memorySize) used)
        (r.2.1.filter (fun e => !evictable sys callingElement e) ++ r.2.2)).isSome

theorem filter_none {l : List ι} : l.filter (· ∉ ([] : List ι)) = l := by simp

omit [DecidableEq ι] in
/-- A list that is removed from its end on in the order of the list has one element at most. -/
theorem length_le_one_of_reverse {back r : List ι} (hnodup : back.Nodup)
    (h : back.reverse <+: back ++ r) : back.length ≤ 1 := by
  have heq : back.reverse = back :=
    (List.prefix_of_prefix_length_le h (List.prefix_append back r) (by simp)).eq_of_length (by simp)
  match back with
  | [] => simp
  | [_] => simp
  | a :: b :: w =>
    exfalso
    have hlast : (a :: b :: w).getLast? = some a := by
      rw [← List.head?_reverse, heq]
      rfl
    rw [List.getLast?_cons_cons] at hlast
    exact (List.nodup_cons.mp hnodup).1 (List.mem_of_getLast? hlast)

/-- The list without what is removed from `u` and from the front of what is left. -/
theorem filter_removed {u v r w : List ι} (ev : ι → Bool) (hnodup : (u ++ v).Nodup)
    (h : u.filter (fun e => !ev e) ++ v = r ++ w) :
    (u ++ v).filter (· ∉ u.filter ev ++ r) = w := by
  obtain ⟨hu, hv, hdis⟩ := List.nodup_append.mp hnodup
  have hfirst : (u ++ v).filter (· ∉ u.filter ev) = r ++ w := by
    rw [← h, List.filter_append]
    congr 1
    · refine List.filter_congr fun e he => ?_
      simp [List.mem_filter, he]
    · refine List.filter_eq_self.mpr fun e he => ?_
      have hne : e ∉ u.filter ev := fun hm => hdis e (List.mem_of_mem_filter hm) e he rfl
      exact decide_eq_true hne
  have hrest : (r ++ w).Nodup := hfirst ▸ hnodup.filter _
  obtain ⟨-, -, hdis'⟩ := List.nodup_append.mp hrest
  have hboth : (u ++ v).filter (· ∉ u.filter ev ++ r) =
      ((u ++ v).filter (· ∉ u.filter ev)).filter (· ∉ r) := by
    rw [List.filter_filter]
    refine List.filter_congr fun e _ => ?_
    simp only [List.mem_append, not_or, Bool.decide_and]
    exact Bool.and_comm _ _
  rw [hboth, hfirst, List.filter_append]
  have hr : r.filter (· ∉ r) = [] := by simp
  have hw : w.filter (· ∉ r) = w := List.filter_eq_self.mpr fun e he => by
    simpa using fun hr => hdis' e hr e he rfl
  rw [hr, hw, List.nil_append]

omit [DecidableEq ι] in
/-- What is removed from the front of what is left comes after what was removed before. -/
theorem removed_oldest {u v r w : List ι} (ev : ι → Bool) (hr : ∀ e ∈ r, ev e = true)
    (h : u.filter (fun e => !ev e) ++ v = r ++ w) :
    u.filter ev ++ r <+: (u ++ v).filter ev := by
  rw [List.filter_append, List.prefix_append_right_inj]
  cases hn : u.filter (fun e => !ev e) with
  | nil =>
    rw [hn, List.nil_append] at h
    rw [h, List.filter_append, List.filter_eq_self.mpr hr]
    exact List.prefix_append _ _
  | cons a x =>
    cases r with
    | nil => exact List.nil_prefix
    | cons b r =>
      rw [hn] at h
      obtain rfl : a = b := (List.cons.inj h).1
      have hmem : a ∈ u.filter (fun e => !ev e) := by rw [hn]; exact List.mem_cons_self
      have := (List.mem_filter.mp hmem).2
      rw [hr a List.mem_cons_self] at this
      cases this

section Request

variable {m : Managed ι} {used : ℕ} {l : List ι}

/-- The request when there is room. -/
theorem makesRoom_of_available (h : Lists m l) (ha : isAvailable sys used size = true) :
    MakesRoom sys size callingElement m used l ↔ used + size + sys.buffer < sys.total := by
  refine ⟨fun hm => hm.fits ha, fun hfits => ⟨fun _ => hfits, true, ⟨m, used, []⟩, ?_, fun _ => ha,
    by simp, List.nil_prefix, by rw [filter_none]; exact h⟩⟩
  refine ⟨0, fun n _ => ?_⟩
  rw [ensureMemory, if_pos ha]

/-- The request when what can be freed is not enough. -/
theorem makesRoom_of_lt (h : Lists m l) (ha : ¬ isAvailable sys used size = true)
    (hlt : (reach sys size callingElement m.memorySize 0 l).1 < size) :
    MakesRoom sys size callingElement m used l := by
  obtain ⟨o', hcount, -⟩ := count_returns sys size callingElement 0 none (Linked.walk h)
  refine ⟨fun h => absurd h ha, false, ⟨m, used, []⟩, ?_, by simp, by simp, List.nil_prefix,
    by rw [filter_none]; exact h⟩
  obtain ⟨N, hN⟩ := hcount
  refine ⟨N, fun n hn => ?_⟩
  rw [ensureMemory, if_neg ha, free]
  have hN' : count sys size callingElement m n 0 m.oldestUsedElement =
      some ((reach sys size callingElement m.memorySize 0 l).1, o') := hN n hn
  dsimp only
  rw [hN', Option.bind_some]
  exact if_pos hlt

/-- The request that frees memory: the walk back, and then from the oldest element on. -/
theorem ensureMemory_frees (h : Lists m l) :
    ∃ o s', Returns (fun n => count sys size callingElement m n 0 m.oldestUsedElement)
        ((reach sys size callingElement m.memorySize 0 l).1, o) ∧
      Returns (fun n => evictBack sys callingElement n
        ((o.or m.recentlyUsedElement).or m.oldestUsedElement) ⟨m, used, []⟩) s' ∧
      Lists s'.managed ((reach sys size callingElement m.memorySize 0 l).2.1.filter
          (fun e => !evictable sys callingElement e) ++
        (reach sys size callingElement m.memorySize 0 l).2.2) ∧
      s'.evicted = ((reach sys size callingElement m.memorySize 0 l).2.1.filter
        (evictable sys callingElement)).reverse ∧
      s'.used = ((reach sys size callingElement m.memorySize 0 l).2.1.filter
        (evictable sys callingElement)).reverse.foldl (lower m.memorySize) used ∧
      s'.managed.memorySize = m.memorySize := by
  obtain ⟨o, hcount, ho⟩ := count_returns sys size callingElement 0 none (Linked.walk h)
  have happ := reach_append sys size callingElement m.memorySize l 0
  obtain ⟨s', h1, h2, h3, h4, h5⟩ := evictBack_returns sys callingElement
    (reach sys size callingElement m.memorySize 0 l).2.1
    (reach sys size callingElement m.memorySize 0 l).2.2 ⟨m, used, []⟩ (by rw [happ]; exact h)
  rw [Option.or_none, Option.or_none, ← Linked.last h] at ho
  refine ⟨o, s', hcount, ?_, h2, by simpa using h3, h4, h5⟩
  rw [ho]
  cases hl : (reach sys size callingElement m.memorySize 0 l).2.1.getLast? with
  | some e =>
    rw [hl] at h1
    exact h1
  | none =>
    -- nothing was counted: there is no element
    have hnil : m.recentlyUsedElement = none := by
      rw [hl] at ho
      exact (Option.or_eq_none_iff.mp ho).2
    have hempty : l = [] := List.getLast?_eq_none_iff.mp ((Linked.last h).symm.trans hnil)
    have hold : m.oldestUsedElement = none := by
      rw [Linked.first h, hempty]
      rfl
    rw [hl] at h1
    rw [hold]
    exact h1

/-- What a request that frees memory returns is what the loop returns after the walk back. -/
theorem ensureMemory_iff {o : Option ι} {s' : Memory ι} (ha : ¬ isAvailable sys used size = true)
    (hge : ¬ (reach sys size callingElement m.memorySize 0 l).1 < size)
    (hcount : Returns (fun n => count sys size callingElement m n 0 m.oldestUsedElement)
      ((reach sys size callingElement m.memorySize 0 l).1, o))
    (hback : Returns (fun n => evictBack sys callingElement n
      ((o.or m.recentlyUsedElement).or m.oldestUsedElement) ⟨m, used, []⟩) s')
    (ret : Bool) (t : Memory ι) :
    Returns (ensureMemory sys size callingElement ⟨m, used, []⟩) (ret, t) ↔
      ret = true ∧ Returns (fun n => freeLoop sys size callingElement n none s') t := by
  obtain ⟨N, hN⟩ := hcount
  obtain ⟨M, hM⟩ := hback
  have hrequest : ∀ n, N + M ≤ n → ensureMemory sys size callingElement ⟨m, used, []⟩ (n + 1) =
      (freeLoop sys size callingElement n none s').map fun s => (true, s) := fun n hn => by
    have hcount' : count sys size callingElement m (n + 1) 0 m.oldestUsedElement =
        some ((reach sys size callingElement m.memorySize 0 l).1, o) := hN (n + 1) (by omega)
    have hback' : evictBack sys callingElement n
        ((o.or m.recentlyUsedElement).or m.oldestUsedElement) ⟨m, used, []⟩ = some s' :=
      hM n (by omega)
    unfold ensureMemory free
    dsimp only
    rw [if_neg ha, hcount', Option.bind_some, if_neg hge, freeLoop, if_neg ha, hback',
      Option.bind_some]
  constructor
  · rintro ⟨K, hK⟩
    have hloop : ∀ n, N + M + K ≤ n →
        (freeLoop sys size callingElement n none s').map (fun s => (true, s)) = some (ret, t) :=
      fun n hn => (hrequest n (by omega)).symm.trans (hK (n + 1) (by omega))
    have hret : ret = true := by
      obtain ⟨a, -, h⟩ := Option.map_eq_some_iff.mp (hloop (N + M + K) le_rfl)
      exact (congrArg Prod.fst h).symm
    refine ⟨hret, N + M + K, fun n hn => ?_⟩
    obtain ⟨a, h1, h2⟩ := Option.map_eq_some_iff.mp (hloop n hn)
    exact h1.trans (congrArg some (congrArg Prod.snd h2))
  · rintro ⟨rfl, K, hK⟩
    have hK' : ∀ n, K ≤ n → freeLoop sys size callingElement n none s' = some t := hK
    refine ⟨N + M + K + 1, fun n hn => ?_⟩
    obtain ⟨k, rfl⟩ : ∃ k, n = k + 1 := ⟨n - 1, by omega⟩
    rw [hrequest k (by omega), hK' k (by omega), Option.map_some]

/-- The request when it has to free memory. -/
theorem makesRoom_of_ge (h : Lists m l) (ha : ¬ isAvailable sys used size = true)
    (hge : ¬ (reach sys size callingElement m.memorySize 0 l).1 < size) :
    MakesRoom sys size callingElement m used l ↔
      ((reach sys size callingElement m.memorySize 0 l).2.1.filter
        (evictable sys callingElement)).length ≤ 1 ∧
      (oneByOne sys size callingElement m.memorySize
        (((reach sys size callingElement m.memorySize 0 l).2.1.filter
          (evictable sys callingElement)).foldl (lower m.memorySize) used)
        ((reach sys size callingElement m.memorySize 0 l).2.1.filter
          (fun e => !evictable sys callingElement e) ++
          (reach sys size callingElement m.memorySize 0 l).2.2)).isSome := by
  obtain ⟨o, s', hcount, hback, hlist, hevicted, hused, hsizes⟩ :=
    @ensureMemory_frees ι _ sys size callingElement m used l h
  have happ := reach_append sys size callingElement m.memorySize l 0
  have hreturns := ensureMemory_iff ha hge hcount hback
  revert hge hcount hback hlist hevicted hused hreturns happ
  generalize reach sys size callingElement m.memorySize 0 l = r
  intro _ _ _ hlist hevicted hused happ hreturns
  have hnodup : (r.2.1 ++ r.2.2).Nodup := happ ▸ Linked.nodup h
  have hback : (r.2.1.filter (evictable sys callingElement)).Nodup :=
    (List.nodup_append.mp hnodup).1.filter _
  -- with one element at most there is only one order
  have horder : (r.2.1.filter (evictable sys callingElement)).length ≤ 1 →
      (r.2.1.filter (evictable sys callingElement)).reverse =
        r.2.1.filter (evictable sys callingElement) := fun hle => by
    match hw : r.2.1.filter (evictable sys callingElement), hle with
    | [], _ => rfl
    | [_], _ => rfl
  constructor
  · rintro ⟨-, ret, t, hret, -, -, hprefix, -⟩
    obtain ⟨-, hloop⟩ := (hreturns ret t).mp hret
    have hle : (r.2.1.filter (evictable sys callingElement)).length ≤ 1 := by
      obtain ⟨K, hK⟩ := hloop
      have hgrows : s'.evicted <+: t.evicted :=
        freeLoop_evicted sys size callingElement (hK K le_rfl)
      refine length_le_one_of_reverse (r := r.2.2.filter (evictable sys callingElement)) hback ?_
      rw [← hevicted, ← List.filter_append, happ]
      exact hgrows.trans hprefix
    refine ⟨hle, Option.isSome_iff_ne_none.mpr fun hnone => ?_⟩
    rw [← horder hle, ← hused, ← hsizes] at hnone
    exact not_returns_of_none (freeLoop_diverges sys size callingElement hlist hnone) t hloop
  · rintro ⟨hle, hsome⟩
    obtain ⟨removed, hremoved⟩ := Option.isSome_iff_exists.mp hsome
    rw [← horder hle, ← hused, ← hsizes] at hremoved
    obtain ⟨t, v, hloop, hv, hlists, hev, hroom, hall⟩ :=
      freeLoop_returns sys size callingElement hlist hremoved
    rw [hevicted, horder hle] at hev
    refine ⟨fun hroom => absurd hroom ha, true, t, (hreturns true t).mpr ⟨rfl, hloop⟩,
      fun _ => hroom, fun e he => ?_, ?_, ?_⟩
    · rw [hev] at he
      rw [← evictable_iff]
      rcases List.mem_append.mp he with hb | hr
      · exact (List.mem_filter.mp hb).2
      · exact hall e hr
    · rw [hev, ← happ]
      exact removed_oldest _ hall hv
    · rw [hev, ← happ, filter_removed _ hnodup hv]
      exact hlists

/-- **A request makes room** as it should if and only if the bytes fit, or there is zero left and the
walk back has one element to remove at most, with the rest removed from the oldest on. -/
theorem makesRoom_iff (h : Lists m l) :
    MakesRoom sys size callingElement m used l ↔ Orderly sys size callingElement m used l := by
  unfold Orderly
  by_cases ha : isAvailable sys used size = true
  · rw [if_pos ha]
    exact makesRoom_of_available h ha
  · rw [if_neg ha]
    dsimp only
    by_cases hlt : (reach sys size callingElement m.memorySize 0 l).1 < size
    · exact iff_of_true (makesRoom_of_lt h ha hlt) (Or.inl hlt)
    · rw [makesRoom_of_ge h ha hlt]
      exact (or_iff_right hlt).symm

end Request

/-- 100 bytes; the elements 1 and 3 are of one path, the others of another. -/
def twoPaths : System ℕ :=
  ⟨⟨fun e => if e % 2 = 1 then ascii "/a" else ascii "/b", fun _ => .UnionTreeNodeData⟩, 100, 0⟩

/-- Four elements of 20 bytes, in the order of their numbers. -/
def four : Managed ℕ where
  memorySize _ := 20
  previous e := if 2 ≤ e ∧ e ≤ 4 then some (e - 1) else none
  next e := if 1 ≤ e ∧ e ≤ 3 then some (e + 1) else none
  recentlyUsedElement := some 4
  oldestUsedElement := some 1

theorem four_lists : Lists four [1, 2, 3, 4] :=
  ⟨by decide, rfl, rfl, rfl, rfl, rfl, rfl, rfl, rfl, rfl, rfl, trivial⟩

/-- With 90 bytes used there is no room for 10 more of the element 1: of the elements 1, 2 and 3 that are
walked to and back, only 2 may be removed. -/
theorem makesRoom_four : MakesRoom twoPaths 10 (some 1) four 90 [1, 2, 3, 4] ∧
    (ensureMemory twoPaths 10 (some 1) ⟨four, 90, []⟩ 6).map (fun r => (r.1, r.2.used, r.2.evicted)) =
      some (true, 70, [2]) := by
  refine ⟨(makesRoom_iff four_lists).mpr ?_, by decide⟩
  unfold Orderly
  rw [if_neg (by decide)]
  exact Or.inr (by decide)

/-- 100 bytes, with the nodes of one path. -/
def hundred : System ℕ := ⟨⟨fun _ => [], fun _ => .UnionTreeNodeData⟩, 100, 0⟩

/-- One element of 20 bytes. -/
def single : Managed ℕ := ⟨fun _ => 20, fun _ => none, fun _ => none, some 1, some 1⟩

theorem single_lists : Lists single [1] := ⟨by simp, rfl, rfl, rfl, rfl, trivial⟩

/-- With 90 bytes used there is room for 20 more: the difference wraps around. -/
theorem not_makesRoom_hundred : ¬ ∀ (sys : System ℕ) (size : ℕ) (callingElement : Option ℕ)
    (m : Managed ℕ) (used : ℕ) (l : List ℕ), Lists m l →
    MakesRoom sys size callingElement m used l := fun h =>
  absurd ((h hundred 20 none single 90 [1] single_lists).fits (by decide)) (by decide)

end Joda.Index.MemoryManager
