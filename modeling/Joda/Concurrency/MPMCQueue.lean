import Joda.Lib.Custody
import Joda.Lib.Runs
import Mathlib.Logic.Function.Basic
import Mathlib.Data.List.Nodup
import Mathlib.Tactic.Ring

/-! # The bounded queue between two tasks

`MPMCQueue` is a ring of slots. A producer takes the next ticket from `head_`, a consumer from `tail_`;
the ticket names a slot and the turn at which it may be used, and a slot counts its turns: it is even
where the slot waits for a producer and odd where it holds an element.

The threads run interleaved, one access to shared memory a step. An element is constructed where there
is none and moved or destroyed where there is one; a step that would do otherwise is not possible, so
that a thread which can always go on never misuses the storage. The state carries a history: the
elements in the order of the producers' tickets, and what the consumers returned, with their tickets.

`head_`, `tail_` and the turns are of type `size_t`; here they are natural numbers, so a run stands for one
that takes fewer than `2 ^ 64` tickets. -/

namespace Joda.Concurrency.MPMCQueue

open Joda.Lib.Custody Joda.Lib.Runs

/-- What the constructor checks. -/
structure Config where
  capacity : ℕ
  pos : 1 ≤ capacity

namespace Config

variable (cfg : Config)

def idx (i : ℕ) : Fin cfg.capacity := ⟨i % cfg.capacity, Nat.mod_lt _ cfg.pos⟩

def turn (i : ℕ) : ℕ := i / cfg.capacity

variable {cfg}

theorem ticket_eq {t u : ℕ} (hidx : cfg.idx t = cfg.idx u) (hturn : cfg.turn t = cfg.turn u) : t = u := by
  have hmod : t % cfg.capacity = u % cfg.capacity := congrArg Fin.val hidx
  rw [← Nat.div_add_mod t cfg.capacity, ← Nat.div_add_mod u cfg.capacity, hmod]
  exact congrArg (cfg.capacity * · + u % cfg.capacity) hturn

end Config

/-! ### The calls of a thread -/

inductive Call (T : Type) where
  | emplace (v : T)
  | tryEmplace (v : T)
  | pop
  | tryPop

inductive Return (T : Type) where
  | emplace
  | tryEmplace (success : Bool)
  | pop (v : T)
  | tryPop (v : Option T)

/-- Whether the ticket was taken by a call that waits for its turn or by one that only tries. -/
inductive Mode where
  | waiting | trying
  deriving DecidableEq

variable {ι T : Type}

def Mode.emplaced : Mode → Return T
  | .waiting => .emplace
  | .trying => .tryEmplace true

def Mode.popped (v : T) : Mode → Return T
  | .waiting => .pop v
  | .trying => .tryPop (some v)

/-- **Where a thread is**, with its local variables. -/
inductive Pc (T : Type) where
  /-- in no call, with what the last one returned -/
  | outside (last : Option (Return T))
  /-- at `head_.fetch_add(1)` -/
  | emplace (v : T)
  /-- at `while (turn(head) * 2 != slot.turn.load(..))` -/
  | emplaceWait (v : T) (head : ℕ)
  /-- at `auto head = head_.load(..)` -/
  | tryEmplace (v : T)
  /-- at `if (turn(head) * 2 == slot.turn.load(..))` -/
  | tryEmplaceTurn (v : T) (head : ℕ)
  /-- at `head_.compare_exchange_strong(head, head + 1)` -/
  | tryEmplaceClaim (v : T) (head : ℕ)
  /-- at `head = head_.load(..)` in the `else` -/
  | tryEmplaceAgain (v : T) (prevHead : ℕ)
  /-- at `slot.construct(..)` -/
  | construct (v : T) (head : ℕ) (mode : Mode)
  /-- at `slot.turn.store(turn(head) * 2 + 1, ..)` -/
  | publish (v : T) (head : ℕ) (mode : Mode)
  /-- at `tail_.fetch_add(1)` -/
  | pop
  | popWait (tail : ℕ)
  | tryPop
  | tryPopTurn (tail : ℕ)
  | tryPopClaim (tail : ℕ)
  | tryPopAgain (prevTail : ℕ)
  /-- at `v = slot.move()` -/
  | move (tail : ℕ) (mode : Mode)
  /-- at `slot.destroy()` -/
  | destroy (v : T) (tail : ℕ) (mode : Mode)
  /-- at `slot.turn.store(turn(tail) * 2 + 2, ..)` -/
  | release (v : T) (tail : ℕ) (mode : Mode)

def Call.entry : Call T → Pc T
  | .emplace v => .emplace v
  | .tryEmplace v => .tryEmplace v
  | .pop => .pop
  | .tryPop => .tryPop

def Pc.inside : Pc T → Bool
  | .outside _ => false
  | _ => true

structure Slot (T : Type) where
  turn : ℕ
  storage : Option T

structure State (cfg : Config) (ι T : Type) where
  head : ℕ
  tail : ℕ
  slots : Fin cfg.capacity → Slot T
  pc : ι → Pc T
  pushed : List T
  popped : List (ℕ × T)

variable {cfg : Config}

namespace State

def goto [DecidableEq ι] (s : State cfg ι T) (i : ι) (pc : Pc T) : State cfg ι T :=
  { s with pc := Function.update s.pc i pc }

def takeHead (s : State cfg ι T) (v : T) : State cfg ι T :=
  { s with head := s.head + 1, pushed := s.pushed ++ [v] }

def takeTail (s : State cfg ι T) : State cfg ι T := { s with tail := s.tail + 1 }

def addPopped (s : State cfg ι T) (t : ℕ) (v : T) : State cfg ι T :=
  { s with popped := s.popped ++ [(t, v)] }

def setStorage (s : State cfg ι T) (j : Fin cfg.capacity) (o : Option T) : State cfg ι T :=
  { s with slots := Function.update s.slots j { s.slots j with storage := o } }

def setTurn (s : State cfg ι T) (j : Fin cfg.capacity) (n : ℕ) : State cfg ι T :=
  { s with slots := Function.update s.slots j { s.slots j with turn := n } }

/-- the turn of the slot a ticket names -/
def turnOf (s : State cfg ι T) (t : ℕ) : ℕ := (s.slots (cfg.idx t)).turn

def storageOf (s : State cfg ι T) (t : ℕ) : Option T := (s.slots (cfg.idx t)).storage

end State

/-- **One step of a thread** inside a call. -/
def exec [DecidableEq ι] (s : State cfg ι T) (i : ι) : Option (State cfg ι T) :=
  match s.pc i with
  | .outside _ => some s
  | .emplace v => some ((s.takeHead v).goto i (.emplaceWait v s.head))
  | .emplaceWait v head =>
    some (if cfg.turn head * 2 ≠ s.turnOf head then s else s.goto i (.construct v head .waiting))
  | .tryEmplace v => some (s.goto i (.tryEmplaceTurn v s.head))
  | .tryEmplaceTurn v head =>
    some (if cfg.turn head * 2 = s.turnOf head then s.goto i (.tryEmplaceClaim v head)
      else s.goto i (.tryEmplaceAgain v head))
  | .tryEmplaceClaim v head =>
    some (if s.head = head then (s.takeHead v).goto i (.construct v head .trying)
      else s.goto i (.tryEmplaceTurn v s.head))
  | .tryEmplaceAgain v prevHead =>
    some (if s.head = prevHead then s.goto i (.outside (some (.tryEmplace false)))
      else s.goto i (.tryEmplaceTurn v s.head))
  | .construct v head mode =>
    match s.storageOf head with
    | none => some ((s.setStorage (cfg.idx head) (some v)).goto i (.publish v head mode))
    | some _ => none
  | .publish _ head mode =>
    some ((s.setTurn (cfg.idx head) (cfg.turn head * 2 + 1)).goto i (.outside (some mode.emplaced)))
  | .pop => some (s.takeTail.goto i (.popWait s.tail))
  | .popWait tail =>
    some (if cfg.turn tail * 2 + 1 ≠ s.turnOf tail then s else s.goto i (.move tail .waiting))
  | .tryPop => some (s.goto i (.tryPopTurn s.tail))
  | .tryPopTurn tail =>
    some (if cfg.turn tail * 2 + 1 = s.turnOf tail then s.goto i (.tryPopClaim tail)
      else s.goto i (.tryPopAgain tail))
  | .tryPopClaim tail =>
    some (if s.tail = tail then s.takeTail.goto i (.move tail .trying)
      else s.goto i (.tryPopTurn s.tail))
  | .tryPopAgain prevTail =>
    some (if s.tail = prevTail then s.goto i (.outside (some (.tryPop none)))
      else s.goto i (.tryPopTurn s.tail))
  | .move tail mode =>
    match s.storageOf tail with
    | some v => some (s.goto i (.destroy v tail mode))
    | none => none
  | .destroy v tail mode =>
    match s.storageOf tail with
    | some _ => some ((s.setStorage (cfg.idx tail) none).goto i (.release v tail mode))
    | none => none
  | .release v tail mode =>
    some (((s.setTurn (cfg.idx tail) (cfg.turn tail * 2 + 2)).addPopped tail v).goto i
      (.outside (some (mode.popped v))))

inductive Action (T : Type) where
  | call (c : Call T)
  | run

/-- A thread that is in no call may make one; one that is inside takes its next step. -/
def Step [DecidableEq ι] : ι × Action T → State cfg ι T → State cfg ι T → Prop
  | (i, .call c), s, t => (s.pc i).inside = false ∧ t = s.goto i c.entry
  | (i, .run), s, t => (s.pc i).inside = true ∧ exec s i = some t

def Init (s : State cfg ι T) : Prop :=
  s = ⟨0, 0, fun _ => ⟨0, none⟩, fun _ => .outside none, [], []⟩

/-! ### Tickets and turns -/

/-- The ticket of the call that puts an element into the queue, with the element. -/
def Pc.writes : Pc T → Option (ℕ × T)
  | .emplaceWait v head => some (head, v)
  | .construct v head _ => some (head, v)
  | .publish v head _ => some (head, v)
  | _ => none

/-- The ticket of the call that takes an element out. -/
def Pc.reads : Pc T → Option ℕ
  | .popWait tail => some tail
  | .move tail _ => some tail
  | .destroy _ tail _ => some tail
  | .release _ tail _ => some tail
  | _ => none

/-- The ticket of the slot that is the thread's own. -/
def Pc.owns : Pc T → Option ℕ
  | .construct _ head _ => some head
  | .publish _ head _ => some head
  | .move tail _ => some tail
  | .destroy _ tail _ => some tail
  | .release _ tail _ => some tail
  | _ => none

/-- The element is constructed, the slot not yet given on. -/
def Pc.filled : Pc T → Option ℕ
  | .publish _ head _ => some head
  | _ => none

/-- The element is destroyed, the slot not yet given on. -/
def Pc.emptied : Pc T → Option ℕ
  | .release _ tail _ => some tail
  | _ => none

def Written (s : State cfg ι T) (t : ℕ) : Prop := cfg.turn t * 2 < s.turnOf t

def Consumed (s : State cfg ι T) (t : ℕ) : Prop := cfg.turn t * 2 + 1 < s.turnOf t

/-- What a thread knows of the slot of its ticket. Before it has the ticket it knows that the slot's
turn has come, with the ticket also that it has not passed. -/
def Knows (s : State cfg ι T) : Pc T → Prop
  | .tryEmplaceClaim _ head => cfg.turn head * 2 ≤ s.turnOf head
  | .construct _ head _ => s.turnOf head = cfg.turn head * 2
  | .publish v head _ => s.turnOf head = cfg.turn head * 2 ∧ s.storageOf head = some v
  | .tryPopClaim tail => cfg.turn tail * 2 + 1 ≤ s.turnOf tail
  | .move tail _ => s.turnOf tail = cfg.turn tail * 2 + 1
  | .destroy v tail _ => s.turnOf tail = cfg.turn tail * 2 + 1 ∧ s.storageOf tail = some v ∧
      s.pushed[tail]? = some v
  | .release v tail _ => s.turnOf tail = cfg.turn tail * 2 + 1 ∧ s.storageOf tail = none ∧
      s.pushed[tail]? = some v
  | _ => True

def writer (s : State cfg ι T) (i : ι) : Option ℕ := (s.pc i).writes.map Prod.fst

def reader (s : State cfg ι T) (i : ι) : Option ℕ := (s.pc i).reads

/-- **The invariant**: every ticket that is taken is in the hands of one thread until its turn has
passed, and the turn of a slot says what is in it, except while the thread of its ticket is about to
give it on. -/
structure Inv (s : State cfg ι T) : Prop where
  length : s.pushed.length = s.head
  written_lt : ∀ t, Written s t → t < s.head
  consumed_lt : ∀ t, Consumed s t → t < s.tail
  writers : Handed (writer s) fun t => t < s.head ∧ ¬ Written s t
  readers : Handed (reader s) fun t => t < s.tail ∧ ¬ Consumed s t
  wrote : ∀ i t v, (s.pc i).writes = some (t, v) → s.pushed[t]? = some v
  knows : ∀ i, Knows s (s.pc i)
  empty : ∀ t, s.turnOf t = cfg.turn t * 2 → s.storageOf t = none ∨ ∃ i, (s.pc i).filled = some t
  full : ∀ t, s.turnOf t = cfg.turn t * 2 + 1 →
    s.storageOf t = s.pushed[t]? ∨ ∃ i, (s.pc i).emptied = some t
  popped_iff : ∀ t, t ∈ s.popped.map Prod.fst ↔ Consumed s t
  popped_once : (s.popped.map Prod.fst).Nodup
  popped_value : ∀ p ∈ s.popped, s.pushed[p.1]? = some p.2

section pcs

variable {pc : Pc T} {t : ℕ}

theorem Pc.writes_of_filled (h : pc.filled = some t) : pc.writes.map Prod.fst = some t := by
  cases pc <;> cases h
  rfl

theorem Pc.reads_of_emptied (h : pc.emptied = some t) : pc.reads = some t := by
  cases pc <;> cases h
  rfl

/-- A slot is a thread's own at the turn of a producer or at the turn of a consumer. -/
theorem Pc.owns_cases {s : State cfg ι T} (h : pc.owns = some t) (hk : Knows s pc) :
    (s.turnOf t = cfg.turn t * 2 ∧ pc.writes.map Prod.fst = some t) ∨
      (s.turnOf t = cfg.turn t * 2 + 1 ∧ pc.reads = some t) := by
  cases pc <;> cases h
  · exact Or.inl ⟨hk, rfl⟩
  · exact Or.inl ⟨hk.1, rfl⟩
  · exact Or.inr ⟨hk, rfl⟩
  · exact Or.inr ⟨hk.1, rfl⟩
  · exact Or.inr ⟨hk.1, rfl⟩

/-- What a thread knows it still knows when turns have gone on, except at its own slot. -/
theorem Knows.frame {s s' : State cfg ι T} (h : Knows s pc)
    (hpushed : ∀ (t : ℕ) (v : T), s.pushed[t]? = some v → s'.pushed[t]? = some v)
    (hmono : ∀ t, s.turnOf t ≤ s'.turnOf t)
    (hown : ∀ t, pc.owns = some t → s'.turnOf t = s.turnOf t ∧ s'.storageOf t = s.storageOf t) :
    Knows s' pc := by
  cases pc with
  | tryEmplaceClaim v head => exact le_trans h (hmono _)
  | tryPopClaim tail => exact le_trans h (hmono _)
  | construct v head mode => exact (hown _ rfl).1.trans h
  | publish v head mode => exact ⟨(hown _ rfl).1.trans h.1, (hown _ rfl).2.trans h.2⟩
  | move tail mode => exact (hown _ rfl).1.trans h
  | destroy v tail mode =>
    exact ⟨(hown _ rfl).1.trans h.1, (hown _ rfl).2.trans h.2.1, hpushed _ _ h.2.2⟩
  | release v tail mode =>
    exact ⟨(hown _ rfl).1.trans h.1, (hown _ rfl).2.trans h.2.1, hpushed _ _ h.2.2⟩
  | _ => trivial

end pcs

/-! ### What a step does to the fields -/

section fields

variable (s : State cfg ι T) (j : Fin cfg.capacity)

@[simp] theorem turnOf_setStorage (o : Option T) (t : ℕ) :
    (s.setStorage j o).turnOf t = s.turnOf t := by
  simp only [State.turnOf, State.setStorage, Function.update_apply]
  split_ifs with h
  · rw [h]
  · rfl

@[simp] theorem storageOf_setStorage (o : Option T) (t : ℕ) :
    (s.setStorage j o).storageOf t = if cfg.idx t = j then o else s.storageOf t := by
  simp only [State.storageOf, State.setStorage, Function.update_apply]
  split_ifs with h <;> rfl

@[simp] theorem turnOf_setTurn (n t : ℕ) :
    (s.setTurn j n).turnOf t = if cfg.idx t = j then n else s.turnOf t := by
  simp only [State.turnOf, State.setTurn, Function.update_apply]
  split_ifs with h <;> rfl

@[simp] theorem storageOf_setTurn (n t : ℕ) : (s.setTurn j n).storageOf t = s.storageOf t := by
  simp only [State.storageOf, State.setTurn, Function.update_apply]
  split_ifs with h
  · rw [h]
  · rfl

variable [DecidableEq ι] (i : ι) (pc : Pc T)

@[simp] theorem goto_head : (s.goto i pc).head = s.head := rfl

@[simp] theorem goto_tail : (s.goto i pc).tail = s.tail := rfl

@[simp] theorem goto_pushed : (s.goto i pc).pushed = s.pushed := rfl

@[simp] theorem goto_popped : (s.goto i pc).popped = s.popped := rfl

@[simp] theorem turnOf_goto (t : ℕ) : (s.goto i pc).turnOf t = s.turnOf t := rfl

@[simp] theorem storageOf_goto (t : ℕ) : (s.goto i pc).storageOf t = s.storageOf t := rfl

@[simp] theorem pc_goto (k : ι) : (s.goto i pc).pc k = if k = i then pc else s.pc k :=
  Function.update_apply ..

end fields

/-! ### What the invariant says of two threads at one slot -/

section slots

variable {s : State cfg ι T}

/-- A turn of a slot belongs to one ticket. -/
theorem ticket_unique {t u n : ℕ} (hidx : cfg.idx t = cfg.idx u) (ht : s.turnOf t = cfg.turn t * 2 + n)
    (hu : s.turnOf u = cfg.turn u * 2 + n) : t = u := by
  have hsame : s.turnOf t = s.turnOf u := by rw [State.turnOf, State.turnOf, hidx]
  exact Config.ticket_eq hidx (by omega)

/-- **No slot is the own of two threads.** -/
theorem Inv.apart (h : Inv s) {i j : ι} {t u : ℕ} (ht : (s.pc i).owns = some t)
    (hu : (s.pc j).owns = some u) (hidx : cfg.idx t = cfg.idx u) : i = j := by
  have hsame : s.turnOf t = s.turnOf u := by rw [State.turnOf, State.turnOf, hidx]
  rcases Pc.owns_cases ht (h.knows i) with ⟨ht, hwt⟩ | ⟨ht, hrt⟩ <;>
    rcases Pc.owns_cases hu (h.knows j) with ⟨hu, hwu⟩ | ⟨hu, hru⟩
  · rw [ticket_unique (n := 0) hidx ht hu] at hwt
    exact h.writers.unique i j u hwt hwu
  · omega
  · omega
  · rw [ticket_unique hidx ht hu] at hrt
    exact h.readers.unique i j u hrt hru

theorem Inv.empty_slot (h : Inv s) {i : ι} {v : T} {t : ℕ} {mode : Mode}
    (hpc : s.pc i = .construct v t mode) : s.storageOf t = none := by
  have hk : s.turnOf t = cfg.turn t * 2 := by simpa only [hpc, Knows] using h.knows i
  refine (h.empty t hk).resolve_right ?_
  rintro ⟨j, hj⟩
  have hij : i = j := h.writers.unique i j t (by rw [writer, hpc]; rfl) (Pc.writes_of_filled hj)
  rw [← hij, hpc] at hj
  cases hj

theorem Inv.full_slot (h : Inv s) {i : ι} {t : ℕ} {mode : Mode} (hpc : s.pc i = .move t mode) :
    ∃ v, s.storageOf t = some v ∧ s.pushed[t]? = some v := by
  have hk : s.turnOf t = cfg.turn t * 2 + 1 := by simpa only [hpc, Knows] using h.knows i
  have hstorage : s.storageOf t = s.pushed[t]? := by
    refine (h.full t hk).resolve_right ?_
    rintro ⟨j, hj⟩
    have hij : i = j := h.readers.unique i j t (by rw [reader, hpc]; rfl) (Pc.reads_of_emptied hj)
    rw [← hij, hpc] at hj
    cases hj
  have hlt : t < s.pushed.length := by
    rw [h.length]
    exact h.written_lt t (by rw [Written]; omega)
  exact ⟨s.pushed[t], by rw [hstorage, List.getElem?_eq_getElem hlt], List.getElem?_eq_getElem hlt⟩

end slots

/-! ### The steps keep the invariant -/

variable [DecidableEq ι] {s : State cfg ι T} {i : ι} {p pc : Pc T}

theorem writer_goto (k : ι) :
    writer (s.goto i pc) k = if k = i then pc.writes.map Prod.fst else writer s k := by
  rw [writer, pc_goto]
  split_ifs <;> rfl

theorem reader_goto (k : ι) : reader (s.goto i pc) k = if k = i then pc.reads else reader s k := by
  rw [reader, pc_goto]
  split_ifs <;> rfl

/-- The other threads know what they knew, when nothing was done to a slot that is another's own. -/
theorem Inv.knows_goto (h : Inv s) {s' : State cfg ι T} (hpc : s'.pc = s.pc)
    (hpushed : ∀ (t : ℕ) (v : T), s.pushed[t]? = some v → s'.pushed[t]? = some v)
    (hmono : ∀ t, s.turnOf t ≤ s'.turnOf t)
    (hown : ∀ t, (∀ u, (s.pc i).owns = some u → cfg.idx t ≠ cfg.idx u) →
      s'.turnOf t = s.turnOf t ∧ s'.storageOf t = s.storageOf t)
    (hk : Knows s' pc) (k : ι) : Knows (s'.goto i pc) ((s'.goto i pc).pc k) := by
  rw [pc_goto]
  split_ifs with hki
  · exact hk
  · rw [hpc]
    refine (h.knows k).frame hpushed hmono fun t ht => hown t fun u hu hidx => ?_
    exact hki (h.apart ht hu hidx)

/-- A step that only goes on in the thread. -/
theorem Inv.goto (h : Inv s) (hpc : s.pc i = p) (hw : pc.writes = p.writes) (hr : pc.reads = p.reads)
    (hf : p.filled = none) (he : p.emptied = none) (hk : Knows s pc) : Inv (s.goto i pc) := by
  subst hpc
  have other {k : ι} (hki : k ≠ i) : (s.goto i pc).pc k = s.pc k := by rw [pc_goto, if_neg hki]
  exact {
    h with
    writers := h.writers.congr (fun k => by rw [writer_goto, hw, writer]; split_ifs with hki <;> [rw [hki]; rfl])
      fun t => Iff.rfl
    readers := h.readers.congr (fun k => by rw [reader_goto, hr, reader]; split_ifs with hki <;> [rw [hki]; rfl])
      fun t => Iff.rfl
    wrote := fun k t v hkw => by
      rw [pc_goto] at hkw
      split_ifs at hkw with hki
      · exact h.wrote i t v (by rw [← hw, hkw])
      · exact h.wrote k t v hkw
    knows := h.knows_goto rfl (fun _ _ => id) (fun _ => le_rfl) (fun _ _ => ⟨rfl, rfl⟩) hk
    empty := fun t ht => (h.empty t ht).imp_right fun ⟨k, hkt⟩ => by
      refine ⟨k, ?_⟩
      rw [other (by rintro rfl; rw [hf] at hkt; cases hkt)]
      exact hkt
    full := fun t ht => (h.full t ht).imp_right fun ⟨k, hkt⟩ => by
      refine ⟨k, ?_⟩
      rw [other (by rintro rfl; rw [he] at hkt; cases hkt)]
      exact hkt }

omit [DecidableEq ι] in
theorem getElem?_takeHead (w : T) (t : ℕ) (v : T) (h : s.pushed[t]? = some v) :
    (s.takeHead w).pushed[t]? = some v := by
  obtain ⟨hlt, -⟩ := List.getElem?_eq_some_iff.mp h
  exact (List.getElem?_append_left hlt).trans h

/-- A producer takes its ticket. -/
theorem Inv.takeHead (h : Inv s) (hpc : s.pc i = p) {v : T} (hw : p.writes = none) (hr : p.reads = none)
    (hw' : pc.writes = some (s.head, v)) (hr' : pc.reads = none) (hk : Knows s pc) :
    Inv ((s.takeHead v).goto i pc) := by
  subst hpc
  have fresh : ¬ Written s s.head := fun hwritten => absurd (h.written_lt _ hwritten) (lt_irrefl _)
  have other {k : ι} (hki : k ≠ i) : ((s.takeHead v).goto i pc).pc k = s.pc k := by
    rw [pc_goto, if_neg hki]
    rfl
  have hself : writer s i = none := by rw [writer, hw]; rfl
  refine {
    length := by rw [goto_pushed, goto_head, State.takeHead, List.length_append, h.length]; rfl
    written_lt := fun t ht => (h.written_lt t ht).trans (Nat.lt_succ_self _)
    consumed_lt := h.consumed_lt
    writers := h.writers.take hself (fun hlt => absurd hlt.1 (lt_irrefl s.head)) ?_ ?_ fun t => ?_
    readers := h.readers.congr (fun k => ?_) fun t => Iff.rfl
    wrote := fun k t w hkw => ?_
    knows := h.knows_goto rfl (getElem?_takeHead v) (fun _ => le_rfl) (fun _ _ => ⟨rfl, rfl⟩) ?_
    empty := fun t ht => ?_
    full := fun t ht => ?_
    popped_iff := h.popped_iff
    popped_once := h.popped_once
    popped_value := fun p hp => getElem?_takeHead v _ _ (h.popped_value p hp) }
  · rw [writer_goto, if_pos rfl, hw']
    rfl
  · intro k hki
    rw [writer_goto, if_neg hki]
    rfl
  · change t < s.head + 1 ∧ ¬ Written s t ↔ _
    rw [Nat.lt_succ_iff_lt_or_eq, or_and_right]
    exact or_congr_right ⟨And.left, fun ht => ⟨ht, ht ▸ fresh⟩⟩
  · rw [reader_goto, hr']
    split_ifs with hki
    · rw [hki, reader, hr]
    · rfl
  · rw [pc_goto] at hkw
    split_ifs at hkw
    · rw [hw'] at hkw
      cases hkw
      change (s.pushed ++ [v])[s.head]? = some v
      rw [← h.length, List.getElem?_concat_length]
    · exact getElem?_takeHead v _ _ (h.wrote k t w hkw)
  · exact hk.frame (getElem?_takeHead v) (fun _ => le_rfl) fun _ _ => ⟨rfl, rfl⟩
  · refine (h.empty t ht).imp_right fun ⟨k, hkt⟩ => ⟨k, ?_⟩
    rw [other, hkt]
    rintro rfl
    have := Pc.writes_of_filled hkt
    rw [hw] at this
    cases this
  · refine (h.full t ht).imp (fun hst => ?_) fun ⟨k, hkt⟩ => ⟨k, ?_⟩
    · have hlt : t < s.pushed.length := by
        rw [h.length]
        exact h.written_lt t (lt_of_lt_of_eq (Nat.lt_succ_self _) ht.symm)
      exact hst.trans (List.getElem?_append_left hlt).symm
    · rw [other, hkt]
      rintro rfl
      have := Pc.reads_of_emptied hkt
      rw [hr] at this
      cases this

/-- A consumer takes its ticket. -/
theorem Inv.takeTail (h : Inv s) (hpc : s.pc i = p) (hw : p.writes = none) (hr : p.reads = none)
    (hw' : pc.writes = none) (hr' : pc.reads = some s.tail) (hk : Knows s pc) :
    Inv (s.takeTail.goto i pc) := by
  subst hpc
  have fresh : ¬ Consumed s s.tail := fun hconsumed => absurd (h.consumed_lt _ hconsumed) (lt_irrefl _)
  have other {k : ι} (hki : k ≠ i) : (s.takeTail.goto i pc).pc k = s.pc k := by
    rw [pc_goto, if_neg hki]
    rfl
  refine {
    length := h.length
    written_lt := h.written_lt
    consumed_lt := fun t ht => (h.consumed_lt t ht).trans (Nat.lt_succ_self _)
    writers := h.writers.congr (fun k => ?_) fun t => Iff.rfl
    readers := h.readers.take hr (fun hlt => absurd hlt.1 (lt_irrefl s.tail)) ?_ ?_ fun t => ?_
    wrote := fun k t w hkw => ?_
    knows := h.knows_goto rfl (fun _ _ => id) (fun _ => le_rfl) (fun _ _ => ⟨rfl, rfl⟩) ?_
    empty := fun t ht => (h.empty t ht).imp_right fun ⟨k, hkt⟩ => ⟨k, ?_⟩
    full := fun t ht => (h.full t ht).imp_right fun ⟨k, hkt⟩ => ⟨k, ?_⟩
    popped_iff := h.popped_iff
    popped_once := h.popped_once
    popped_value := h.popped_value }
  · rw [writer_goto, hw']
    split_ifs with hki
    · rw [hki, writer, hw]
    · rfl
  · rw [reader_goto, if_pos rfl, hr']
  · intro k hki
    rw [reader_goto, if_neg hki]
    rfl
  · change t < s.tail + 1 ∧ ¬ Consumed s t ↔ _
    rw [Nat.lt_succ_iff_lt_or_eq, or_and_right]
    exact or_congr_right ⟨And.left, fun ht => ⟨ht, ht ▸ fresh⟩⟩
  · rw [pc_goto] at hkw
    split_ifs at hkw
    · rw [hw'] at hkw
      cases hkw
    · exact h.wrote k t w hkw
  · exact hk.frame (fun _ _ => id) (fun _ => le_rfl) fun _ _ => ⟨rfl, rfl⟩
  · rw [other, hkt]
    rintro rfl
    have := Pc.writes_of_filled hkt
    rw [hw] at this
    cases this
  · rw [other, hkt]
    rintro rfl
    have := Pc.reads_of_emptied hkt
    rw [hr] at this
    cases this

/-- Something is constructed or destroyed, by the thread whose own the slot is. -/
theorem Inv.setStorage (h : Inv s) (hpc : s.pc i = p) {t : ℕ} {o : Option T} (hown : p.owns = some t)
    (hw : pc.writes = p.writes) (hr : pc.reads = p.reads) (hf : p.filled = none) (he : p.emptied = none)
    (hk : Knows (s.setStorage (cfg.idx t) o) pc)
    (hempty : s.turnOf t = cfg.turn t * 2 → o = none ∨ pc.filled = some t)
    (hfull : s.turnOf t = cfg.turn t * 2 + 1 → o = s.pushed[t]? ∨ pc.emptied = some t) :
    Inv ((s.setStorage (cfg.idx t) o).goto i pc) := by
  subst hpc
  have self : ((s.setStorage (cfg.idx t) o).goto i pc).pc i = pc := by rw [pc_goto, if_pos rfl]
  have other {k : ι} (hki : k ≠ i) : ((s.setStorage (cfg.idx t) o).goto i pc).pc k = s.pc k := by
    rw [pc_goto, if_neg hki]
    rfl
  have turns (u : ℕ) : (s.setStorage (cfg.idx t) o).turnOf u = s.turnOf u := turnOf_setStorage s _ _ u
  have written (u : ℕ) : Written ((s.setStorage (cfg.idx t) o).goto i pc) u ↔ Written s u := by
    rw [Written, turnOf_goto, turns, Written]
  have consumed (u : ℕ) : Consumed ((s.setStorage (cfg.idx t) o).goto i pc) u ↔ Consumed s u := by
    rw [Consumed, turnOf_goto, turns, Consumed]
  have same {u : ℕ} (hidx : cfg.idx u = cfg.idx t) : s.turnOf u = s.turnOf t := by
    rw [State.turnOf, State.turnOf, hidx]
  refine {
    length := h.length
    written_lt := fun u hu => h.written_lt u ((written u).mp hu)
    consumed_lt := fun u hu => h.consumed_lt u ((consumed u).mp hu)
    writers := h.writers.congr (fun k => ?_) fun u => and_congr_right fun _ => not_congr (written u)
    readers := h.readers.congr (fun k => ?_) fun u => and_congr_right fun _ => not_congr (consumed u)
    wrote := fun k u w hkw => ?_
    knows := h.knows_goto rfl (fun _ _ => id) (fun u => (turns u).ge) (fun u hu => ⟨turns u, ?_⟩) hk
    empty := fun u hu => ?_
    full := fun u hu => ?_
    popped_iff := fun u => (h.popped_iff u).trans (consumed u).symm
    popped_once := h.popped_once
    popped_value := h.popped_value }
  · rw [writer_goto, hw]
    split_ifs with hki
    · rw [hki, writer]
    · rfl
  · rw [reader_goto, hr]
    split_ifs with hki
    · rw [hki, reader]
    · rfl
  · rw [pc_goto] at hkw
    split_ifs at hkw
    · exact h.wrote i u w (by rw [← hw, hkw])
    · exact h.wrote k u w hkw
  · rw [storageOf_setStorage, if_neg (hu t hown)]
  · rw [turnOf_goto, turns] at hu
    rw [storageOf_goto, storageOf_setStorage]
    split_ifs with hidx
    · rcases Pc.owns_cases hown (h.knows i) with ⟨ht, -⟩ | ⟨ht, -⟩
      · rw [ticket_unique (n := 0) hidx hu ht]
        exact (hempty ht).imp_right fun hfilled => ⟨i, by rw [self, hfilled]⟩
      · have := same hidx
        omega
    · refine (h.empty u hu).imp_right fun ⟨k, hku⟩ => ⟨k, ?_⟩
      rw [other, hku]
      rintro rfl
      rw [hf] at hku
      cases hku
  · rw [turnOf_goto, turns] at hu
    rw [storageOf_goto, storageOf_setStorage]
    split_ifs with hidx
    · rcases Pc.owns_cases hown (h.knows i) with ⟨ht, -⟩ | ⟨ht, -⟩
      · have := same hidx
        omega
      · rw [ticket_unique hidx hu ht]
        exact (hfull ht).imp_right fun hemptied => ⟨i, by rw [self, hemptied]⟩
    · refine (h.full u hu).imp_right fun ⟨k, hku⟩ => ⟨k, ?_⟩
      rw [other, hku]
      rintro rfl
      rw [he] at hku
      cases hku

/-- The producer gives the slot on. -/
theorem Inv.publish (h : Inv s) {v : T} {t : ℕ} {mode : Mode} (hpc : s.pc i = .publish v t mode) :
    Inv ((s.setTurn (cfg.idx t) (cfg.turn t * 2 + 1)).goto i (.outside (some mode.emplaced))) := by
  set s' := (s.setTurn (cfg.idx t) (cfg.turn t * 2 + 1)).goto i (.outside (some mode.emplaced)) with hs'
  obtain ⟨hk, hstorage⟩ : s.turnOf t = cfg.turn t * 2 ∧ s.storageOf t = some v := by
    simpa only [hpc, Knows] using h.knows i
  have other {k : ι} (hki : k ≠ i) : s'.pc k = s.pc k := by
    rw [hs', pc_goto, if_neg hki]
    rfl
  have hwriter : writer s i = some t := by rw [writer, hpc]; rfl
  have turns (u : ℕ) : s'.turnOf u = if cfg.idx u = cfg.idx t then cfg.turn t * 2 + 1 else s.turnOf u := by
    rw [hs', turnOf_goto, turnOf_setTurn]
  have same {u : ℕ} (hidx : cfg.idx u = cfg.idx t) : s.turnOf u = cfg.turn t * 2 := by
    rw [State.turnOf, hidx]
    exact hk
  have written (u : ℕ) : Written s' u ↔ Written s u ∨ u = t := by
    rw [Written, turns, Written]
    split_ifs with hidx
    · rw [same hidx]
      constructor
      · intro hlt
        rcases Nat.lt_or_ge (cfg.turn u) (cfg.turn t) with hlt' | hge
        · exact Or.inl (by omega)
        · exact Or.inr (Config.ticket_eq hidx (by omega))
      · rintro (hlt | rfl) <;> omega
    · exact ⟨Or.inl, Or.rec id fun hut => absurd (congrArg cfg.idx hut) hidx⟩
  have consumed (u : ℕ) : Consumed s' u ↔ Consumed s u := by
    rw [Consumed, turns, Consumed]
    split_ifs with hidx
    · rw [same hidx]
      omega
    · rfl
  refine {
    length := h.length
    written_lt := fun u hu => ?_
    consumed_lt := fun u hu => h.consumed_lt u ((consumed u).mp hu)
    writers := h.writers.give hwriter ?_ ?_ fun u => ?_
    readers := h.readers.congr (fun k => ?_) fun u => and_congr_right fun _ => not_congr (consumed u)
    wrote := fun k u w hkw => ?_
    knows := h.knows_goto rfl (fun _ _ => id) (fun u => ?_) (fun u hu => ?_) trivial
    empty := fun u hu => ?_
    full := fun u hu => ?_
    popped_iff := fun u => (h.popped_iff u).trans (consumed u).symm
    popped_once := h.popped_once
    popped_value := h.popped_value }
  · rcases (written u).mp hu with hu | rfl
    · exact h.written_lt u hu
    · exact (h.writers.out i u hwriter).1
  · rw [hs', writer_goto, if_pos rfl]
    rfl
  · intro k hki
    rw [hs', writer_goto, if_neg hki]
    rfl
  · rw [written]
    change u < s.head ∧ _ ↔ _
    rw [not_or, and_assoc]
  · rw [hs', reader_goto]
    split_ifs with hki
    · rw [hki, reader, hpc]
      rfl
    · rfl
  · by_cases hki : k = i
    · rw [hki, hs', pc_goto, if_pos rfl] at hkw
      cases hkw
    · exact h.wrote k u w (by rw [← other hki, hkw])
  · rw [turnOf_setTurn]
    split_ifs with hidx
    · rw [same hidx]
      exact Nat.le_succ _
    · exact le_rfl
  · have hidx : ¬ cfg.idx u = cfg.idx t := hu t (by rw [hpc]; rfl)
    exact ⟨by rw [turnOf_setTurn, if_neg hidx], storageOf_setTurn s _ _ u⟩
  · rw [turns] at hu
    split_ifs at hu with hidx
    · omega
    · refine (h.empty u hu).imp (fun hst => (storageOf_setTurn s _ _ u).trans hst) fun ⟨k, hku⟩ => ⟨k, ?_⟩
      rw [other, hku]
      rintro rfl
      rw [hpc] at hku
      exact hidx (congrArg cfg.idx (Option.some.inj hku).symm)
  · rw [turns] at hu
    split_ifs at hu with hidx
    · have hut : u = t := Config.ticket_eq hidx (by omega)
      refine Or.inl ?_
      rw [hut]
      exact (storageOf_setTurn s _ _ t).trans (hstorage.trans (h.wrote i t v (by rw [hpc]; rfl)).symm)
    · refine (h.full u hu).imp (fun hst => (storageOf_setTurn s _ _ u).trans hst) fun ⟨k, hku⟩ => ⟨k, ?_⟩
      rw [other, hku]
      rintro rfl
      rw [hpc] at hku
      cases hku

/-- The consumer gives the slot on. -/
theorem Inv.release (h : Inv s) {v : T} {t : ℕ} {mode : Mode} (hpc : s.pc i = .release v t mode) :
    Inv (((s.setTurn (cfg.idx t) (cfg.turn t * 2 + 2)).addPopped t v).goto i
      (.outside (some (mode.popped v)))) := by
  set s' := ((s.setTurn (cfg.idx t) (cfg.turn t * 2 + 2)).addPopped t v).goto i
    (.outside (some (mode.popped v))) with hs'
  obtain ⟨hk, hstorage, hvalue⟩ : s.turnOf t = cfg.turn t * 2 + 1 ∧ s.storageOf t = none ∧
      s.pushed[t]? = some v := by
    simpa only [hpc, Knows] using h.knows i
  have other {k : ι} (hki : k ≠ i) : s'.pc k = s.pc k := by
    rw [hs', pc_goto, if_neg hki]
    rfl
  have hreader : reader s i = some t := by rw [reader, hpc]; rfl
  have turns (u : ℕ) : s'.turnOf u = if cfg.idx u = cfg.idx t then cfg.turn t * 2 + 2 else s.turnOf u :=
    turnOf_setTurn s _ _ u
  have same {u : ℕ} (hidx : cfg.idx u = cfg.idx t) : s.turnOf u = cfg.turn t * 2 + 1 := by
    rw [State.turnOf, hidx]
    exact hk
  have written (u : ℕ) : Written s' u ↔ Written s u := by
    rw [Written, turns, Written]
    split_ifs with hidx
    · rw [same hidx]
      omega
    · rfl
  have consumed (u : ℕ) : Consumed s' u ↔ Consumed s u ∨ u = t := by
    rw [Consumed, turns, Consumed]
    split_ifs with hidx
    · rw [same hidx]
      constructor
      · intro hlt
        rcases Nat.lt_or_ge (cfg.turn u) (cfg.turn t) with hlt' | hge
        · exact Or.inl (by omega)
        · exact Or.inr (Config.ticket_eq hidx (by omega))
      · rintro (hlt | rfl) <;> omega
    · exact ⟨Or.inl, Or.rec id fun hut => absurd (congrArg cfg.idx hut) hidx⟩
  refine {
    length := h.length
    written_lt := fun u hu => h.written_lt u ((written u).mp hu)
    consumed_lt := fun u hu => ?_
    writers := h.writers.congr (fun k => ?_) fun u => and_congr_right fun _ => not_congr (written u)
    readers := h.readers.give hreader ?_ ?_ fun u => ?_
    wrote := fun k u w hkw => ?_
    knows := h.knows_goto rfl (fun _ _ => id) (fun u => ?_) (fun u hu => ?_) trivial
    empty := fun u hu => ?_
    full := fun u hu => ?_
    popped_iff := fun u => ?_
    popped_once := ?_
    popped_value := fun p hp => ?_ }
  · rcases (consumed u).mp hu with hu | rfl
    · exact h.consumed_lt u hu
    · exact (h.readers.out i u hreader).1
  · rw [hs', writer_goto]
    split_ifs with hki
    · rw [hki, writer, hpc]
      rfl
    · rfl
  · rw [hs', reader_goto, if_pos rfl]
    rfl
  · intro k hki
    rw [hs', reader_goto, if_neg hki]
    rfl
  · rw [consumed]
    change u < s.tail ∧ _ ↔ _
    rw [not_or, and_assoc]
  · by_cases hki : k = i
    · rw [hki, hs', pc_goto, if_pos rfl] at hkw
      cases hkw
    · exact h.wrote k u w (by rw [← other hki, hkw])
  · change s.turnOf u ≤ s'.turnOf u
    rw [turns]
    split_ifs with hidx
    · rw [same hidx]
      exact Nat.le_succ _
    · exact le_rfl
  · have hidx : ¬ cfg.idx u = cfg.idx t := hu t (by rw [hpc]; rfl)
    exact ⟨(turns u).trans (if_neg hidx), storageOf_setTurn s _ _ u⟩
  · have hst : s'.storageOf u = s.storageOf u := storageOf_setTurn s _ _ u
    rw [turns] at hu
    split_ifs at hu with hidx
    · left
      rw [hst, State.storageOf, hidx]
      exact hstorage
    · refine (h.empty u hu).imp (hst.trans ·) fun ⟨k, hku⟩ => ⟨k, ?_⟩
      rw [other, hku]
      rintro rfl
      rw [hpc] at hku
      cases hku
  · have hst : s'.storageOf u = s.storageOf u := storageOf_setTurn s _ _ u
    rw [turns] at hu
    split_ifs at hu with hidx
    · omega
    · refine (h.full u hu).imp (hst.trans ·) fun ⟨k, hku⟩ => ⟨k, ?_⟩
      rw [other, hku]
      rintro rfl
      rw [hpc] at hku
      exact hidx (congrArg cfg.idx (Option.some.inj hku).symm)
  · rw [consumed, ← h.popped_iff u, hs', goto_popped, State.addPopped, List.map_append, List.mem_append]
    exact or_congr_right (by rw [List.map_singleton, List.mem_singleton])
  · rw [hs', goto_popped, State.addPopped, List.map_append, List.nodup_append]
    refine ⟨h.popped_once, List.nodup_singleton _, fun a ha b hb => ?_⟩
    rw [List.map_singleton, List.mem_singleton] at hb
    rintro rfl
    rw [hb] at ha
    exact (h.readers.out i t hreader).2 ((h.popped_iff t).mp ha)
  · rcases List.mem_append.mp hp with hp | hp
    · exact h.popped_value p hp
    · rw [List.mem_singleton.mp hp]
      exact hvalue

/-- **A step of a thread keeps the invariant.** -/
theorem exec_inv (h : Inv s) {s' : State cfg ι T} (hs : exec s i = some s') : Inv s' := by
  have hk := h.knows i
  cases hpc : s.pc i with
  | «outside» last =>
    simp only [exec, hpc, Option.some.injEq] at hs
    exact hs ▸ h
  | emplace v =>
    simp only [exec, hpc, Option.some.injEq] at hs
    rw [← hs]
    exact h.takeHead hpc rfl rfl rfl rfl trivial
  | emplaceWait v head =>
    simp only [exec, hpc, Option.some.injEq] at hs
    rw [← hs]
    split_ifs with hturn
    · exact h
    · rw [not_not] at hturn
      exact h.goto hpc rfl rfl rfl rfl hturn.symm
  | tryEmplace v =>
    simp only [exec, hpc, Option.some.injEq] at hs
    rw [← hs]
    exact h.goto hpc rfl rfl rfl rfl trivial
  | tryEmplaceTurn v head =>
    simp only [exec, hpc, Option.some.injEq] at hs
    rw [← hs]
    split_ifs with hturn
    · exact h.goto hpc rfl rfl rfl rfl hturn.le
    · exact h.goto hpc rfl rfl rfl rfl trivial
  | tryEmplaceClaim v head =>
    simp only [exec, hpc, Option.some.injEq] at hs
    rw [hpc, Knows] at hk
    rw [← hs]
    split_ifs with hhead
    · have hfresh : ¬ Written s head := fun hw => absurd (h.written_lt _ hw) (by omega)
      have hturn : s.turnOf head = cfg.turn head * 2 := by
        rw [Written] at hfresh
        omega
      exact h.takeHead hpc rfl rfl (by rw [hhead]; rfl) rfl hturn
    · exact h.goto hpc rfl rfl rfl rfl trivial
  | tryEmplaceAgain v prevHead =>
    simp only [exec, hpc, Option.some.injEq] at hs
    rw [← hs]
    split_ifs with hhead <;>
      exact h.goto hpc rfl rfl rfl rfl trivial
  | construct v head mode =>
    have hempty := h.empty_slot hpc
    simp only [exec, hpc, hempty, Option.some.injEq] at hs
    rw [hpc, Knows] at hk
    rw [← hs]
    refine h.setStorage hpc rfl rfl rfl rfl rfl ⟨?_, ?_⟩ (fun _ => Or.inr rfl) fun hodd => by omega
    · rw [turnOf_setStorage, hk]
    · rw [storageOf_setStorage, if_pos rfl]
  | publish v head mode =>
    simp only [exec, hpc, Option.some.injEq] at hs
    rw [← hs]
    exact h.publish hpc
  | pop =>
    simp only [exec, hpc, Option.some.injEq] at hs
    rw [← hs]
    exact h.takeTail hpc rfl rfl rfl rfl trivial
  | popWait tail =>
    simp only [exec, hpc, Option.some.injEq] at hs
    rw [← hs]
    split_ifs with hturn
    · exact h
    · rw [not_not] at hturn
      exact h.goto hpc rfl rfl rfl rfl hturn.symm
  | tryPop =>
    simp only [exec, hpc, Option.some.injEq] at hs
    rw [← hs]
    exact h.goto hpc rfl rfl rfl rfl trivial
  | tryPopTurn tail =>
    simp only [exec, hpc, Option.some.injEq] at hs
    rw [← hs]
    split_ifs with hturn
    · exact h.goto hpc rfl rfl rfl rfl hturn.le
    · exact h.goto hpc rfl rfl rfl rfl trivial
  | tryPopClaim tail =>
    simp only [exec, hpc, Option.some.injEq] at hs
    rw [hpc, Knows] at hk
    rw [← hs]
    split_ifs with htail
    · have hfresh : ¬ Consumed s tail := fun hc => absurd (h.consumed_lt _ hc) (by omega)
      have hturn : s.turnOf tail = cfg.turn tail * 2 + 1 := by
        rw [Consumed] at hfresh
        omega
      exact h.takeTail hpc rfl rfl rfl (by rw [htail]; rfl) hturn
    · exact h.goto hpc rfl rfl rfl rfl trivial
  | tryPopAgain prevTail =>
    simp only [exec, hpc, Option.some.injEq] at hs
    rw [← hs]
    split_ifs with htail <;>
      exact h.goto hpc rfl rfl rfl rfl trivial
  | move tail mode =>
    obtain ⟨v, hstorage, hvalue⟩ := h.full_slot hpc
    simp only [exec, hpc, hstorage, Option.some.injEq] at hs
    rw [hpc, Knows] at hk
    rw [← hs]
    exact h.goto hpc rfl rfl rfl rfl ⟨hk, hstorage, hvalue⟩
  | destroy v tail mode =>
    rw [hpc, Knows] at hk
    simp only [exec, hpc, hk.2.1, Option.some.injEq] at hs
    rw [← hs]
    refine h.setStorage hpc rfl rfl rfl rfl rfl ⟨?_, ?_, hk.2.2⟩ (fun _ => Or.inl rfl) fun _ => Or.inr rfl
    · rw [turnOf_setStorage, hk.1]
    · rw [storageOf_setStorage, if_pos rfl]
  | release v tail mode =>
    simp only [exec, hpc, Option.some.injEq] at hs
    rw [← hs]
    exact h.release hpc

end Joda.Concurrency.MPMCQueue
