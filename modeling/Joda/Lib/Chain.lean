import Mathlib.Data.List.Nodup
import Mathlib.Logic.Function.Basic
import Mathlib.Order.Nat
import Mathlib.Tactic.Common

/-! # Doubly linked lists

Elements that point to the one before and the one after them. `Linked` says that the pointers and the
two ends are those of a list without repetitions; `Linked.push` and `Linked.remove` are the rules of
putting an element at the end and of taking one out. -/

namespace Joda.Lib.Chain

variable {ι : Type*}

/-- The pointers along a part of a list, between `p` and `t`. -/
def Segment (previous next : ι → Option ι) : Option ι → List ι → Option ι → Prop
  | _, [], _ => True
  | p, a :: l, t => previous a = p ∧ next a = l.head?.or t ∧ Segment previous next (some a) l t

/-- **The pointers and the ends of a list.** -/
structure Linked (previous next : ι → Option ι) (first last : Option ι) (l : List ι) : Prop where
  nodup : l.Nodup
  first : first = l.head?
  last : last = l.getLast?
  segment : Segment previous next none l none

/-- Following the pointers up to the end. -/
inductive Walk (next : ι → Option ι) : Option ι → List ι → Prop
  | stop : Walk next none []
  | step {a : ι} {l : List ι} (h : Walk next (next a) l) : Walk next (some a) (a :: l)

variable {previous next : ι → Option ι} {p t first last : Option ι} {l u v : List ι}

/-! ### Parts -/

theorem segment_append : ∀ {u : List ι} {p : Option ι}, Segment previous next p (u ++ v) t ↔
    Segment previous next p u (v.head?.or t) ∧ Segment previous next (u.getLast?.or p) v t
  | [], p => by simp [Segment]
  | a :: u, p => by
    have hhead : (u ++ v).head?.or t = u.head?.or (v.head?.or t) := by
      cases u <;> simp
    have hlast : u.getLast?.or (some a) = (a :: u).getLast?.or p := by
      rw [List.getLast?_cons]
      cases u.getLast? <;> rfl
    rw [List.cons_append, Segment, Segment, segment_append, hhead, hlast]
    tauto

theorem Segment.congr {previous' next' : ι → Option ι} : ∀ {l : List ι} {p : Option ι},
    (∀ a ∈ l, previous' a = previous a ∧ next' a = next a) → Segment previous next p l t →
    Segment previous' next' p l t
  | [], _, _, _ => trivial
  | a :: l, p, h, hs => by
    obtain ⟨ha, hl⟩ := List.forall_mem_cons.mp h
    obtain ⟨h1, h2, h3⟩ := hs
    exact ⟨ha.1.trans h1, ha.2.trans h2, h3.congr hl⟩

theorem segment_concat {r : ι} : Segment previous next p (u ++ [r]) t ↔
    Segment previous next p u (some r) ∧ previous r = u.getLast?.or p ∧ next r = t := by
  rw [segment_append]
  simp [Segment]

/-- A pointer that may be missing is set. -/
def put [DecidableEq ι] (f : ι → Option ι) (o t : Option ι) : ι → Option ι :=
  match o with
  | some a => Function.update f a t
  | none => f

section Pointers

variable [DecidableEq ι]

theorem put_other {f : ι → Option ι} {o : Option ι} {a : ι} (h : o ≠ some a) : put f o t a = f a := by
  cases o with
  | none => rfl
  | some b => exact Function.update_of_ne (fun he => h (congrArg some he.symm)) _ _

/-- The last element is led elsewhere. -/
theorem Segment.lead (h : Segment previous next p u t) (hu : u.Nodup) (t' : Option ι) :
    Segment previous (put next u.getLast? t') p u t' := by
  rcases List.eq_nil_or_concat u with rfl | ⟨w, r, rfl⟩
  · trivial
  · rw [List.concat_eq_append] at *
    have hr : r ∉ w := fun hr => (List.nodup_append.mp hu).2.2 r hr r (by simp) rfl
    obtain ⟨h1, h2, -⟩ := segment_concat.mp h
    rw [List.getLast?_concat]
    refine segment_concat.mpr ⟨h1.congr fun a ha => ⟨rfl, put_other ?_⟩, h2, ?_⟩
    · rintro ⟨⟩
      exact hr ha
    · exact Function.update_self _ _ _

/-- The first element is led back elsewhere. -/
theorem Segment.leadBack (h : Segment previous next p v t) (hv : v.Nodup) (p' : Option ι) :
    Segment (put previous v.head? p') next p' v t := by
  cases v with
  | nil => trivial
  | cons s v =>
    obtain ⟨-, h2, h3⟩ := h
    refine ⟨Function.update_self _ _ _, h2, h3.congr fun a ha => ⟨put_other ?_, rfl⟩⟩
    rintro ⟨⟩
    exact (List.nodup_cons.mp hv).1 ha

/-! ### The list -/

/-- **An element is put at the end.** -/
theorem Linked.push (h : Linked previous next first last l) {e : ι} (he : e ∉ l)
    (hnext : next e = none) :
    Linked (Function.update previous e last) (put next last (some e)) (first.or (some e)) (some e)
      (l ++ [e]) := by
  obtain ⟨h1, rfl, rfl, h4⟩ := h
  refine ⟨?_, ?_, by simp, ?_⟩
  · exact List.nodup_append.mpr ⟨h1, List.nodup_singleton e, fun a ha b hb => by
      rw [List.mem_singleton.mp hb]
      rintro rfl
      exact he ha⟩
  · cases l <;> simp
  · refine segment_concat.mpr ⟨(h4.lead h1 (some e)).congr fun a ha => ⟨?_, rfl⟩, ?_, ?_⟩
    · refine Function.update_of_ne ?_ _ _
      rintro rfl
      exact he ha
    · rw [Function.update_self, Option.or_none]
    · rw [put_other, hnext]
      intro hl
      exact he (List.mem_of_getLast? hl)

/-- **An element is taken out.** -/
theorem Linked.remove {e : ι} (h : Linked previous next first last (u ++ e :: v)) :
    Linked (put previous v.head? u.getLast?) (put next u.getLast? v.head?) (u.head?.or v.head?)
      (v.getLast?.or u.getLast?) (u ++ v) := by
  obtain ⟨h1, -, -, h4⟩ := h
  obtain ⟨hu, hv, hdis⟩ := List.nodup_append.mp h1
  obtain ⟨-, hv'⟩ := List.nodup_cons.mp hv
  obtain ⟨g1, -, -, g4⟩ := segment_append.mp h4
  refine ⟨List.nodup_append.mpr ⟨hu, hv', fun a ha b hb => hdis a ha b (List.mem_cons_of_mem e hb)⟩,
    ?_, ?_, segment_append.mpr ⟨?_, ?_⟩⟩
  · cases u <;> simp
  · rw [List.getLast?_append]
  · rw [Option.or_none]
    refine (g1.lead hu v.head?).congr fun a ha => ⟨put_other fun hs => ?_, rfl⟩
    exact hdis a ha a (List.mem_cons_of_mem e (List.mem_of_mem_head? hs)) rfl
  · rw [Option.or_none]
    refine (g4.leadBack hv' u.getLast?).congr fun a ha => ⟨rfl, put_other fun hs => ?_⟩
    exact hdis a (List.mem_of_getLast? hs) a (List.mem_cons_of_mem e ha) rfl

end Pointers

theorem Linked.neighbours {e : ι} (h : Linked previous next first last (u ++ e :: v)) :
    previous e = u.getLast? ∧ next e = v.head? := by
  obtain ⟨-, h2, h3, -⟩ := segment_append.mp h.segment
  exact ⟨by rw [h2, Option.or_none], by rw [h3, Option.or_none]⟩

theorem walk_of_segment : ∀ {l : List ι} {p : Option ι}, Segment previous next p l none →
    Walk next l.head? l
  | [], _, _ => .stop
  | a :: l, p, ⟨_, h2, h3⟩ => by
    rw [Option.or_none] at h2
    exact .step (h2 ▸ walk_of_segment h3)

/-- Following the pointers from the first element visits the list. -/
theorem Linked.walk (h : Linked previous next first last l) : Walk next first l := by
  rw [h.first]
  exact walk_of_segment h.segment

theorem walkBack_of_segment : ∀ {l : List ι} {p : Option ι} {w : List ι},
    Segment previous next p l t → Walk previous p w →
    Walk previous (l.getLast?.or p) (l.reverse ++ w)
  | [], _, _, _, hw => hw
  | a :: l, p, w, ⟨h1, _, h3⟩, hw => by
    have hlast : (a :: l).getLast?.or p = l.getLast?.or (some a) := by
      rw [List.getLast?_cons]
      cases l.getLast? <;> rfl
    rw [hlast, List.reverse_cons, List.append_assoc]
    exact walkBack_of_segment h3 (.step (h1 ▸ hw))

/-- Following the pointers back from the last element visits it the other way round. -/
theorem Linked.walkBack (h : Linked previous next first last l) : Walk previous last l.reverse := by
  have := walkBack_of_segment h.segment .stop
  rwa [Option.or_none, List.append_nil, ← h.last] at this

/-- The last element points to none. -/
theorem Linked.next_last (h : Linked previous next first last l) {a : ι} (ha : last = some a) :
    next a = none := by
  rw [h.last] at ha
  obtain ⟨w, rfl⟩ := List.getLast?_eq_some_iff.mp ha
  exact h.neighbours.2

/-- **The pointers back are the inverse of the pointers on.** -/
theorem Linked.inverse (h : Linked previous next first last l) {a b : ι} (ha : a ∈ l) (hb : b ∈ l) :
    next a = some b ↔ previous b = some a := by
  constructor
  · intro hn
    obtain ⟨u, v, rfl⟩ := List.append_of_mem ha
    have hv := h.neighbours.2
    rw [hn] at hv
    cases v with
    | nil => cases hv
    | cons c v =>
      cases hv
      have hsplit : u ++ a :: b :: v = (u ++ [a]) ++ b :: v := by simp
      rw [hsplit] at h
      rw [h.neighbours.1, List.getLast?_concat]
  · intro hp
    obtain ⟨u, v, rfl⟩ := List.append_of_mem hb
    have hu := h.neighbours.1
    rw [hp] at hu
    obtain ⟨w, rfl⟩ := List.getLast?_eq_some_iff.mp hu.symm
    have hsplit : w ++ [a] ++ b :: v = w ++ a :: b :: v := by simp
    rw [hsplit] at h
    exact h.neighbours.2

end Joda.Lib.Chain
