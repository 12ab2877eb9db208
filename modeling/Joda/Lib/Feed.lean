import Mathlib.Tactic.Common

/-! # Event machines

A machine receives events one by one and may stop the sender by answering `false`. `feed` is what
becomes of it on a list of events; it *passes* a list if it ends up in a state without stopping. The
rules `Passes.cons` and `Passes.append` follow the shape of the list, so that what a machine does on
the events of a tree is proved along the tree. -/

namespace Joda.Lib.Feed

variable {ε σ : Type*} (receive : σ → ε → σ × Bool)

/-- What follows is only done where the machine has not stopped. -/
def andThen (r : σ × Bool) (next : σ → σ × Bool) : σ × Bool := if r.2 then next r.1 else r

/-- The machine after the events up to the one it stopped at, and whether it took them all. -/
def feed (s : σ) : List ε → σ × Bool
  | [] => (s, true)
  | e :: es => andThen (receive s e) fun t => feed t es

/-- **The machine passes the events**, from one state to the other. -/
def Passes (s : σ) (es : List ε) (t : σ) : Prop := feed receive s es = (t, true)

theorem andThen_assoc (r : σ × Bool) (f g : σ → σ × Bool) :
    andThen (andThen r f) g = andThen r fun s => andThen (f s) g := by
  unfold andThen
  by_cases hr : r.2 = true
  · rw [if_pos hr, if_pos hr]
  · rw [if_neg hr, if_neg hr, if_neg hr]

theorem feed_single (s : σ) (e : ε) : feed receive s [e] = receive s e := by
  show andThen (receive s e) (fun t => (t, true)) = receive s e
  unfold andThen
  by_cases he : (receive s e).2 = true
  · rw [if_pos he, ← he]
  · rw [if_neg he]

/-- What comes after the first events is only sent if the machine took these. -/
theorem feed_append (es' : List ε) : ∀ (es : List ε) (s : σ),
    feed receive s (es ++ es') = andThen (feed receive s es) fun t => feed receive t es'
  | [], _ => rfl
  | e :: es, s => by
    rw [List.cons_append, feed, feed, andThen_assoc]
    congr 1
    funext t
    exact feed_append es' es t

variable {receive} {s t u : σ} {e : ε} {es es' : List ε}

theorem Passes.nil : Passes receive s [] s := rfl

theorem Passes.cons (he : receive s e = (t, true)) (hes : Passes receive t es u) :
    Passes receive s (e :: es) u := by
  rw [Passes, feed, he]
  exact hes

theorem Passes.single (he : receive s e = (t, true)) : Passes receive s [e] t := .cons he .nil

theorem Passes.append (hes : Passes receive s es t) (hes' : Passes receive t es' u) :
    Passes receive s (es ++ es') u := by
  rw [Passes, feed_append, hes]
  exact hes'

/-- A machine that stops at once. -/
theorem feed_stop (he : receive s e = (t, false)) : feed receive s (e :: es) = (t, false) := by
  rw [feed, he]
  rfl

end Joda.Lib.Feed
