import Joda.Lib.Feed
import Joda.Values.Value

/-! # The events of a value

`Accept` of a RapidJSON value sends its events to a handler and stops when the handler answers
`false`. What becomes of the handler is what becomes of it on the list of the events of the value
(`accept_eq`). -/

namespace Joda.Values.Events

open Joda.Lib.Feed Joda.Values.Value

variable {F σ : Type}

/-- The events of a handler. -/
inductive Event (F : Type) where
  | null
  | bool (b : Bool)
  | int (i : ℤ)
  | uint (i : ℤ)
  | int64 (i : ℤ)
  | uint64 (i : ℤ)
  | double (d : F)
  | string (str : Str)
  | startObject
  | key (str : Str)
  | endObject (memberCount : ℕ)
  | startArray
  | endArray (elementCount : ℕ)

/-- The event of a number: the first of `IsDouble`, `IsInt`, `IsUint`, `IsInt64` that holds. -/
def numberEvent : Number F → Event F
  | .double x => .double x
  | .int z =>
    if -2 ^ 31 ≤ z ∧ z < 2 ^ 31 then .int z
    else if 0 ≤ z ∧ z < 2 ^ 32 then .uint z
    else if -2 ^ 63 ≤ z ∧ z < 2 ^ 63 then .int64 z
    else .uint64 z

/-- The events of a whole value that is neither an array nor an object. -/
def Event.isScalar : Event F → Bool
  | .null | .bool _ | .int _ | .uint _ | .int64 _ | .uint64 _ | .double _ | .string _ => true
  | _ => false

@[simp] theorem isScalar_numberEvent (n : Number F) : (numberEvent n).isScalar = true := by
  rcases n with z | x
  · simp only [numberEvent]
    split_ifs <;> rfl
  · rfl

mutual

/-- **The events of a value.** -/
def events : RJValue F → List (Event F)
  | .null => [.null]
  | .bool b => [.bool b]
  | .number n => [numberEvent n]
  | .string s => [.string s]
  | .array vs => .startArray :: (elementEvents vs ++ [.endArray vs.length])
  | .object ms => .startObject :: (memberEvents ms ++ [.endObject ms.length])

def elementEvents : List (RJValue F) → List (Event F)
  | [] => []
  | v :: vs => events v ++ elementEvents vs

def memberEvents : List (Str × RJValue F) → List (Event F)
  | [] => []
  | (name, v) :: ms => .key name :: (events v ++ memberEvents ms)

end

section Accept

variable (receive : σ → Event F → σ × Bool)

mutual

/-- **`GenericValue::Accept`** -/
def accept : RJValue F → σ → σ × Bool
  | .null, h => receive h .null
  | .bool b, h => receive h (.bool b)
  | .number n, h => receive h (numberEvent n)
  | .string s, h => receive h (.string s)
  | .array vs, h =>
    andThen (andThen (receive h .startArray) (acceptElements vs))
      fun h => receive h (.endArray vs.length)
  | .object ms, h =>
    andThen (andThen (receive h .startObject) (acceptMembers ms))
      fun h => receive h (.endObject ms.length)

def acceptElements : List (RJValue F) → σ → σ × Bool
  | [], h => (h, true)
  | v :: vs, h => andThen (accept v h) (acceptElements vs)

def acceptMembers : List (Str × RJValue F) → σ → σ × Bool
  | [], h => (h, true)
  | (name, v) :: ms, h => andThen (andThen (receive h (.key name)) (accept v)) (acceptMembers ms)

end

mutual

/-- **`Accept` sends the events of the value**, up to the one the handler stops at. -/
theorem accept_eq : ∀ (v : RJValue F) (h : σ), accept receive v h = feed receive h (events v)
  | .null, h => (feed_single receive h _).symm
  | .bool _, h => (feed_single receive h _).symm
  | .number _, h => (feed_single receive h _).symm
  | .string _, h => (feed_single receive h _).symm
  | .array vs, h => by
    rw [accept, events, feed, andThen_assoc]
    congr 1
    funext h
    rw [acceptElements_eq vs h, feed_append]
    simp only [feed_single]
  | .object ms, h => by
    rw [accept, events, feed, andThen_assoc]
    congr 1
    funext h
    rw [acceptMembers_eq ms h, feed_append]
    simp only [feed_single]

theorem acceptElements_eq : ∀ (vs : List (RJValue F)) (h : σ),
    acceptElements receive vs h = feed receive h (elementEvents vs)
  | [], _ => rfl
  | v :: vs, h => by
    rw [acceptElements, elementEvents, accept_eq v, feed_append]
    congr 1
    funext h
    exact acceptElements_eq vs h

theorem acceptMembers_eq : ∀ (ms : List (Str × RJValue F)) (h : σ),
    acceptMembers receive ms h = feed receive h (memberEvents ms)
  | [], _ => rfl
  | (name, v) :: ms, h => by
    rw [acceptMembers, memberEvents, feed, andThen_assoc]
    congr 1
    funext h
    rw [accept_eq v, feed_append]
    congr 1
    funext h
    exact acceptMembers_eq ms h

end

end Accept

end Joda.Values.Events
