import Joda.Lib.Network
import Joda.Pipeline.Emissions

/-! # Executors as workers

The three executors between queues: `IOExecutor`, which pops and pushes, `OExecutor` at the start of a
pipeline and `IExecutor` at its end. A step sees the queues as they may look to it: a queue may refuse an
element, or give none, whatever is in it. `PipelineIOTask` unregisters the task from its output queue
when its executor reports `FINISHED`; then the worker has left.

What a task pushes is what its calculation emits for what it popped, if a call takes its whole input and
at most one element is emitted at the end (`ioWorker_gives`). The first executor pushes what its source
gives (`oWorker_gives`), the last one hands on what it pops (`iWorker_gives`). -/

namespace Joda.Pipeline.Workers

open Joda.Lib.Runs Joda.Lib.Network Joda.Pipeline.Executor
open Joda.Pipeline.Emissions (outputs after emissions outputs_concat after_concat fetching)

variable {σ I O : Type}

/-! ### `IOExecutor` -/

/-- The executor with the queues as they look to it. -/
def facing (s : Executor.State σ I O) (input : List I) (producers : ℕ) (output : List O) :
    Executor.State σ I O :=
  { s with input := input, producers := producers, output := output }

/-- **The steps of an executor**, by what they do to its queues. -/
inductive IOStep (cfg : Config σ I O) :
    Act I O → Executor.State σ I O → Executor.State σ I O → Prop
  | enter {s : Executor.State σ I O} {status : Option TaskStatus} (h : s.pc = .left status)
      (hs : status ≠ some .finished) : IOStep cfg .think s { s with pc := .entered }
  | think {s t : Executor.State σ I O} {input : List I} {producers : ℕ} {output : List O}
      (h : exec cfg (facing s input producers output) = some t) (hi : t.input = input)
      (ho : t.output = output)
      (hopen : ∀ k, s.pc = .head k → (facing s input producers output).isFinished = false) :
      IOStep cfg .think s t
  | pop {s t : Executor.State σ I O} {x : I} {rest : List I} {producers : ℕ} {output : List O}
      (h : exec cfg (facing s (x :: rest) producers output) = some t) (hi : t.input = rest) :
      IOStep cfg (.pop x) s t
  | push {s t : Executor.State σ I O} {input : List I} {producers : ℕ} {output : List O} {y : O}
      (h : exec cfg (facing s input producers output) = some t) (ho : t.output = output ++ [y]) :
      IOStep cfg (.push y) s t
  | close {s t : Executor.State σ I O} {k : ℕ} {output : List O} (hk : s.pc = .head k)
      (h : exec cfg (facing s [] 0 output) = some t) : IOStep cfg .close s t
  | leave {s : Executor.State σ I O} (h : s.pc = .left (some .finished)) : IOStep cfg .leave s s

def ioWorker (cfg : Config σ I O) (start : σ) : Worker I O where
  State := Executor.State σ I O
  Init s := Initial s ∧ s.state = start
  Step := IOStep cfg

/-- **What a step does** to the queues and to the history. -/
structure Moved (s t : Executor.State σ I O) (xs : List I) (ys : List O) : Prop where
  input : s.input = xs ++ t.input
  popped : t.popped = s.popped ++ xs
  output : t.output = s.output ++ ys
  pushed : t.pushed = s.pushed ++ ys
  single : xs.length + ys.length ≤ 1
  closing : t.pc.closing = true → s.pc.closing = true ∨ (∃ k, s.pc = .head k) ∧ s.isFinished = true

section Moves

variable {cfg : Config σ I O} {s t : Executor.State σ I O}

theorem moved_of_same (hi : t.input = s.input) (hp : t.popped = s.popped) (ho : t.output = s.output)
    (hu : t.pushed = s.pushed)
    (hc : t.pc.closing = true → s.pc.closing = true ∨ (∃ k, s.pc = .head k) ∧ s.isFinished = true) :
    Moved s t [] [] :=
  ⟨hi.symm, by rw [hp, List.append_nil], by rw [ho, List.append_nil], by rw [hu, List.append_nil],
    Nat.zero_le 1, hc⟩

theorem moved_goto {pc : Pc O} (hc : pc.closing = true → s.pc.closing = true) :
    ∃ xs ys, Moved s { s with pc := pc } xs ys :=
  ⟨[], [], moved_of_same rfl rfl rfl rfl fun h => Or.inl (hc h)⟩

theorem moved_push {pc : Pc O} (o : O) (hc : pc.closing = true → s.pc.closing = true) :
    ∃ xs ys, Moved s { s.push o with pc := pc } xs ys :=
  ⟨[], [o], rfl, (List.append_nil _).symm, rfl, rfl, le_rfl, fun h => Or.inl (hc h)⟩

/-- **A send** pushes the output buffer, goes on without one or starves. -/
theorem send_cases {pc : Pc O} (starved : Pc O) (ht : s.defaultSend cfg pc starved = some t ∨
    s.blockSend cfg pc = some t) : ∃ q, (q = pc ∨ q = starved) ∧
      (t = { s with pc := q } ∨ ∃ o, s.obuff = some o ∧ t = { s.push o with pc := q }) := by
  rcases ht with ht | ht
  · rcases State.defaultSend_cases ht with ⟨-, rfl⟩ | ⟨o, ho, rfl⟩ | rfl
    · exact ⟨pc, Or.inl rfl, Or.inl rfl⟩
    · exact ⟨pc, Or.inl rfl, Or.inr ⟨o, ho, rfl⟩⟩
    · exact ⟨starved, Or.inr rfl, Or.inl rfl⟩
  · rcases State.blockSend_cases ht with ⟨-, rfl⟩ | ⟨o, ho, rfl⟩
    · exact ⟨pc, Or.inl rfl, Or.inl rfl⟩
    · exact ⟨pc, Or.inl rfl, Or.inr ⟨o, ho, rfl⟩⟩

theorem moved_send {pc : Pc O} (starved : Pc O) (ht : s.defaultSend cfg pc starved = some t ∨
    s.blockSend cfg pc = some t) (hc : ∀ q, q = pc ∨ q = starved → q.closing = true →
      s.pc.closing = true) : ∃ xs ys, Moved s t xs ys := by
  obtain ⟨q, hq, rfl | ⟨o, -, rfl⟩⟩ := send_cases starved ht
  · exact moved_goto (hc q hq)
  · exact moved_push o (hc q hq)

/-- **A step of the executor** pops one element, pushes one or leaves the queues alone. -/
theorem exec_moved (ht : exec cfg s = some t) : ∃ xs ys, Moved s t xs ys := by
  unfold exec at ht
  split at ht <;> rename_i hpc
  case h_1 => cases ht
  case h_2 =>
    refine moved_send _ (Or.inl ht) ?_
    rintro q (rfl | rfl) hc <;> cases hc
  case h_3 k =>
    split_ifs at ht with hfin <;> obtain rfl := Option.some.inj ht
    · exact ⟨[], [], moved_of_same rfl rfl rfl rfl fun _ => Or.inr ⟨⟨k, hpc⟩, hfin⟩⟩
    · exact moved_goto fun hc => by cases hc
  case h_4 k tries =>
    split at ht <;> obtain rfl := Option.some.inj ht
    · exact moved_goto fun hc => by cases hc
    · rename_i i rest _ hin
      exact ⟨[i], [], hin, rfl, (List.append_nil _).symm, (List.append_nil _).symm, le_rfl,
        fun hc => by cases hc⟩
    · exact moved_goto fun hc => by split_ifs at hc <;> cases hc
  case h_5 k =>
    split at ht <;> obtain rfl := Option.some.inj ht
    · exact moved_goto fun hc => by split_ifs at hc <;> cases hc
    · exact ⟨[], [], moved_of_same rfl rfl rfl rfl fun hc => by cases hc⟩
  case h_6 | h_7 =>
    obtain rfl := Option.some.inj ht
    exact ⟨[], [], moved_of_same rfl rfl rfl rfl fun hc => by cases hc⟩
  case h_8 =>
    obtain rfl := Option.some.inj ht
    exact moved_goto fun hc => by cases hc
  case h_9 => exact moved_send .entered (Or.inr ht) (by rintro q (rfl | rfl) hc <;> cases hc)
  case h_10 =>
    refine moved_send _ (Or.inl ht) ?_
    rintro q (rfl | rfl) hc <;> cases hc
  case h_11 | h_12 =>
    obtain rfl := Option.some.inj ht
    exact ⟨[], [], moved_of_same rfl rfl rfl rfl fun _ => Or.inl (by rw [hpc]; rfl)⟩
  case h_13 =>
    obtain rfl := Option.some.inj ht
    exact moved_goto fun _ => by rw [hpc]; rfl
  case h_14 => exact moved_send _ (Or.inl ht) fun _ _ _ => by rw [hpc]; rfl
  case h_15 => exact moved_send .last (Or.inr ht) fun _ _ _ => by rw [hpc]; rfl

/-- The input loop is left. -/
theorem exec_close {k : ℕ} (hk : s.pc = .head k) (hfin : s.isFinished = true) (ht : exec cfg s = some t) :
    t.input = s.input ∧ t.output = s.output := by
  unfold exec at ht
  rw [hk] at ht
  dsimp only at ht
  rw [if_pos hfin] at ht
  obtain rfl := Option.some.inj ht
  exact ⟨rfl, rfl⟩

/-- What a step between these queues has done to them. -/
def ioAct (pc : Pc O) (queue : List I) (finished : Bool) (t : Executor.State σ I O) : Act I O :=
  match t.output, queue, pc with
  | y :: _, _, _ => .push y
  | [], x :: _, _ => if t.input.length < queue.length then .pop x else .think
  | [], [], .head _ => if finished then .close else .think
  | [], [], _ => .think

/-- The step of an executor between these queues. -/
def ioNext (cfg : Config σ I O) (queue : List I) (finished : Bool) (s : Executor.State σ I O) :
    Option (Act I O × Executor.State σ I O) :=
  match s.pc with
  | .left (some .finished) => some (.leave, s)
  | .left _ => some (.think, { s with pc := .entered })
  | _ => (exec cfg (facing s queue (if finished then 0 else 1) [])).map fun t =>
      (ioAct s.pc queue finished t, t)

/-- **Every step of the executor is a step of the worker**, which does the same to the queues. -/
theorem ioStep_of_exec {queue : List I} {finished : Bool}
    (ht : exec cfg (facing s queue (if finished then 0 else 1) []) = some t) :
    IOStep cfg (ioAct s.pc queue finished t) s t ∧ (ioAct s.pc queue finished t).Fits queue finished := by
  obtain ⟨xs, ys, h⟩ := exec_moved ht
  have hsingle := h.single
  have hinput : queue = xs ++ t.input := h.input
  have houtput : t.output = ys := h.output
  have hthink : queue = t.input → t.output = [] →
      (∀ k, s.pc = .head k →
        (facing s queue (if finished then 0 else 1) ([] : List O)).isFinished = false) →
      IOStep cfg .think s t := fun hi ho hopen => .think ht hi.symm ho hopen
  unfold ioAct
  split
  · rename_i y ys' hys
    rw [houtput] at hys
    subst hys
    rw [List.length_cons] at hsingle
    obtain rfl := List.length_eq_zero_iff.mp (by omega : ys'.length = 0)
    exact ⟨.push ht houtput, trivial⟩
  · rename_i x rest hys
    split_ifs with hlt
    · rcases xs with - | ⟨x', xs⟩
      · rw [List.nil_append] at hinput
        rw [← hinput] at hlt
        exact absurd hlt (lt_irrefl _)
      · rw [List.length_cons] at hsingle
        obtain rfl := List.length_eq_zero_iff.mp (by omega : xs.length = 0)
        obtain ⟨rfl, hrest⟩ := List.cons.inj hinput
        exact ⟨.pop ht hrest.symm, rfl⟩
    · rcases xs with - | ⟨x', xs⟩
      · refine ⟨hthink hinput hys fun k _ => ?_, trivial⟩
        exact Bool.and_false _
      · rw [hinput, List.length_append, List.length_cons] at hlt
        omega
  · rename_i k hys hpc
    split_ifs with hfin
    · subst hfin
      exact ⟨.close hpc ht, rfl, rfl⟩
    · refine ⟨hthink (List.append_eq_nil_iff.mp hinput.symm).2.symm hys fun _ _ => ?_, trivial⟩
      rw [if_neg hfin]
      rfl
  · rename_i hys hpc
    exact ⟨hthink (List.append_eq_nil_iff.mp hinput.symm).2.symm hys fun k hk => absurd hk (hpc k), trivial⟩

theorem ioNext_sound {queue : List I} {finished : Bool} {r : Act I O × Executor.State σ I O}
    (h : ioNext cfg queue finished s = some r) :
    IOStep cfg r.1 s r.2 ∧ r.1.Fits queue finished := by
  unfold ioNext at h
  split at h
  · rename_i hpc
    obtain rfl := Option.some.inj h
    exact ⟨.leave hpc, trivial⟩
  · rename_i status hstatus hpc
    obtain rfl := Option.some.inj h
    exact ⟨.enter hpc hstatus, trivial⟩
  · obtain ⟨t, ht, rfl⟩ := Option.map_eq_some_iff.mp h
    exact ioStep_of_exec ht

def ioDriver (cfg : Config σ I O) (start : σ) : Driver (ioWorker cfg start) :=
  ⟨ioNext cfg, fun _ _ _ _ => ioNext_sound⟩

end Moves

/-! ### What it emits -/

/-- What is still to be emitted. -/
def pending : Pc O → List O
  | .filling _ sent rest => sent ++ rest.toList
  | .fillSend _ sent rest => sent ++ rest.toList
  | .finalizing sent rest => sent ++ rest.toList
  | .finalSend sent rest => sent ++ rest.toList
  | _ => []

/-- What the calculation emits at the end. -/
def ending (task : Calc σ I O) (s : σ) : List O := (task.finalize s).1 ++ (task.finalize s).2.toList

/-- **A call takes its whole input**, and at most one element is emitted at the end. -/
structure Takes (task : Calc σ I O) : Prop where
  takes : ∀ s i, (task.fillBuffer s i).ibuff = none
  ends : ∀ s, (ending task s).length ≤ 1

/-- **The invariant**: the inputs taken so far are emitted or pending, and so is the end. -/
structure Given (task : Calc σ I O) (start : σ) (s : Executor.State σ I O) : Prop where
  inv : Executor.Inv s
  input : fetching s.pc = false → s.ibuff = none
  single : s.pc.closing = true → s.obuff.toList.length + (pending s.pc).length ≤ 1
  emitted : ∃ taken, s.popped = taken ++ s.ibuff.toList ∧ s.state = after task start taken ∧
    s.emitted ++ pending s.pc = outputs task start taken ++
      if s.pc.closing then ending task s.state else []

section Emission

variable {cfg : Config σ I O} {task : Calc σ I O} {start : σ} {s t : Executor.State σ I O}

/-- A step that only goes on. -/
theorem Given.goto (h : Given task start s) {q : Pc O} (hinv : Executor.Inv { s with pc := q })
    (hfetch : fetching q = false → s.ibuff = none) (hpending : pending q = pending s.pc)
    (hclosing : q.closing = s.pc.closing) : Given task start { s with pc := q } := by
  obtain ⟨taken, h1, h2, h3⟩ := h.emitted
  refine ⟨hinv, hfetch, fun hc => ?_, taken, h1, h2, ?_⟩
  · dsimp only at hc ⊢
    rw [hpending]
    exact h.single (hclosing ▸ hc)
  · dsimp only
    rw [hpending, hclosing]
    exact h3

theorem Given.push (h : Given task start s) {o : O} {q : Pc O}
    (hinv : Executor.Inv { s.push o with pc := q }) (hfetch : s.ibuff = none)
    (hpending : pending q = pending s.pc) (hclosing : q.closing = s.pc.closing) :
    Given task start { s.push o with pc := q } := by
  obtain ⟨taken, h1, h2, h3⟩ := h.emitted
  refine ⟨hinv, fun _ => hfetch, fun hc => ?_, taken, h1, h2, ?_⟩
  · have hsingle := h.single (hclosing ▸ hc)
    change 0 + (pending q).length ≤ 1
    rw [hpending]
    omega
  · dsimp only [Executor.State.push]
    rw [hpending, hclosing]
    exact h3

theorem Given.send (h : Given task start s) {pc : Pc O} (starved : Pc O)
    (ht : s.defaultSend cfg pc starved = some t ∨ s.blockSend cfg pc = some t) (hinv : Executor.Inv t)
    (hfetch : s.ibuff = none)
    (hpc : ∀ q, q = pc ∨ q = starved → pending q = pending s.pc ∧ q.closing = s.pc.closing) :
    Given task start t := by
  obtain ⟨q, hq, rfl | ⟨o, -, rfl⟩⟩ := send_cases starved ht
  · exact h.goto hinv (fun _ => hfetch) (hpc q hq).1 (hpc q hq).2
  · exact h.push hinv hfetch (hpc q hq).1 (hpc q hq).2

/-- A pending element is emitted. -/
theorem Given.emit (h : Given task start s) {o : O} {q : Pc O}
    (hinv : Executor.Inv { s.emit o with pc := q }) (hfetch : s.ibuff = none)
    (hpending : pending s.pc = o :: pending q) (hclosing : q.closing = s.pc.closing) :
    Given task start { s.emit o with pc := q } := by
  obtain ⟨taken, h1, h2, h3⟩ := h.emitted
  refine ⟨hinv, fun _ => hfetch, fun hc => ?_, taken, h1, h2, ?_⟩
  · have hsingle := h.single (hclosing ▸ hc)
    rw [hpending, List.length_cons] at hsingle
    change 1 + (pending q).length ≤ 1
    omega
  · change s.emitted ++ [o] ++ pending q = _
    rw [hclosing, List.append_assoc, List.singleton_append, ← hpending]
    exact h3

theorem Given.meets (h : Given task start s) : Meets s .executor := by
  have hsingle := h.single
  simp only [Meets]
  split <;> rename_i hpc
  · have := hsingle (by rw [hpc]; rfl)
    simp only [hpc, pending, List.cons_append, List.length_cons] at this
    exact Option.toList_eq_nil_iff.mp (List.length_eq_zero_iff.mp (by omega))
  · have := hsingle (by rw [hpc]; rfl)
    simp only [hpc, pending, List.nil_append, Option.toList_some, List.length_singleton] at this
    exact Option.toList_eq_nil_iff.mp (List.length_eq_zero_iff.mp (by omega))
  · exact fun _ => h.input (by rw [hpc]; rfl)
  · trivial

/-- **A step of the executor.** -/
theorem exec_given (hc : Takes cfg.calculation) (h : Given cfg.calculation start s)
    (ht : exec cfg s = some t) : Given cfg.calculation start t := by
  have hinv := exec_inv h.inv h.meets ht
  have hinput := h.input
  have hempty := h.inv.empty
  obtain ⟨taken, h1, h2, h3⟩ := h.emitted
  unfold exec at ht
  split at ht <;> rename_i hpc <;> rw [hpc] at hinput hempty h3
  case h_1 => cases ht
  case h_2 =>
    refine h.send _ (Or.inl ht) hinv (hinput rfl) ?_
    rintro q (rfl | rfl) <;> rw [hpc] <;> exact ⟨rfl, rfl⟩
  case h_3 k =>
    split_ifs at ht with hfin <;> obtain rfl := Option.some.inj ht
    · refine ⟨hinv, fun _ => hinput rfl, fun _ => ?_, taken, h1, h2, ?_⟩
      · have hone := hc.ends s.state
        change s.obuff.toList.length + (ending cfg.calculation s.state).length ≤ 1
        rw [hempty rfl, Option.toList_none, List.length_nil]
        omega
      · change s.emitted ++ ending cfg.calculation s.state = _ ++ ending cfg.calculation s.state
        have h3' : s.emitted ++ [] = outputs cfg.calculation start taken ++ [] := h3
        rw [List.append_nil, List.append_nil] at h3'
        rw [h3']
    · exact h.goto hinv (fun hf => by cases hf) (by rw [hpc]; rfl) (by rw [hpc]; rfl)
  case h_4 k tries =>
    split at ht <;> obtain rfl := Option.some.inj ht
    · exact h.goto hinv (fun hf => by cases hf) (by rw [hpc]; rfl) (by rw [hpc]; rfl)
    · rename_i i rest hi hin
      refine ⟨hinv, fun hf => (by cases hf), fun hc => (by cases hc), taken, ?_, h2, h3⟩
      change s.popped ++ [i] = taken ++ [i]
      rw [h1, hi, Option.toList_none, List.append_nil]
    · rename_i hi hin
      split_ifs at hinv ⊢
      · exact h.goto hinv (fun _ => hi) (by rw [hpc]; rfl) (by rw [hpc]; rfl)
      · exact h.goto hinv (fun _ => hi) (by rw [hpc]; rfl) (by rw [hpc]; rfl)
  case h_5 k =>
    split at ht <;> obtain rfl := Option.some.inj ht
    · rename_i hi
      split_ifs at hinv ⊢
      · exact h.goto hinv (fun _ => hi) (by rw [hpc]; rfl) (by rw [hpc]; rfl)
      · exact h.goto hinv (fun _ => hi) (by rw [hpc]; rfl) (by rw [hpc]; rfl)
    · rename_i i hi
      refine ⟨hinv, fun _ => hc.takes _ _, fun hc => (by cases hc), taken ++ [i], ?_, ?_, ?_⟩
      · change s.popped = taken ++ [i] ++ (cfg.calculation.fillBuffer s.state i).ibuff.toList
        rw [hc.takes, h1, hi, Option.toList_none, List.append_nil]
        rfl
      · rw [after_concat, ← h2]
      · rw [outputs_concat, ← h2]
        have h3' : s.emitted ++ [] = outputs cfg.calculation start taken ++ [] := h3
        rw [List.append_nil, List.append_nil] at h3'
        change s.emitted ++ _ = _ ++ []
        rw [h3', List.append_nil]
        rfl
  case h_6 o sent rest =>
    obtain rfl := Option.some.inj ht
    exact h.emit hinv (hinput rfl) (by rw [hpc]; rfl) (by rw [hpc]; rfl)
  case h_7 o =>
    obtain rfl := Option.some.inj ht
    exact h.emit hinv (hinput rfl) (by rw [hpc]; rfl) (by rw [hpc]; rfl)
  case h_8 =>
    obtain rfl := Option.some.inj ht
    exact h.goto hinv (fun _ => hinput rfl) (by rw [hpc]; rfl) (by rw [hpc]; rfl)
  case h_9 =>
    refine h.send s.pc (Or.inr ht) hinv (hinput rfl) ?_
    rintro q (rfl | rfl)
    · rw [hpc]
      exact ⟨rfl, rfl⟩
    · exact ⟨rfl, rfl⟩
  case h_10 =>
    refine h.send _ (Or.inl ht) hinv (hinput rfl) ?_
    rintro q (rfl | rfl) <;> rw [hpc] <;> exact ⟨rfl, rfl⟩
  case h_11 o sent rest =>
    obtain rfl := Option.some.inj ht
    exact h.emit hinv (hinput rfl) (by rw [hpc]; rfl) (by rw [hpc]; rfl)
  case h_12 o =>
    obtain rfl := Option.some.inj ht
    exact h.emit hinv (hinput rfl) (by rw [hpc]; rfl) (by rw [hpc]; rfl)
  case h_13 =>
    obtain rfl := Option.some.inj ht
    exact h.goto hinv (fun _ => hinput rfl) (by rw [hpc]; rfl) (by rw [hpc]; rfl)
  case h_14 =>
    refine h.send _ (Or.inl ht) hinv (hinput rfl) ?_
    rintro q (rfl | rfl) <;> rw [hpc] <;> exact ⟨rfl, rfl⟩
  case h_15 =>
    refine h.send s.pc (Or.inr ht) hinv (hinput rfl) ?_
    rintro q (rfl | rfl)
    · rw [hpc]
      exact ⟨rfl, rfl⟩
    · exact ⟨rfl, rfl⟩

theorem Given.facing (h : Given task start s) (input : List I) (producers : ℕ) (output : List O) :
    Given task start (facing s input producers output) := by
  obtain ⟨⟨⟨h1, h2, h3, h4, h5⟩, h6⟩, h7, h8, h9⟩ := h
  exact ⟨⟨⟨h1, h2, h3, h4, h5⟩, h6⟩, h7, h8, h9⟩

theorem given_initial (h : Initial s) : Given task s.state s := by
  have hinv := initial_inv h
  obtain ⟨hpc, h1, h2, h3, h4, h5, h6, h7⟩ := h
  refine ⟨hinv, fun _ => h2, fun hc => ?_, [], ?_, rfl, ?_⟩
  · rw [hpc] at hc
    cases hc
  · rw [h2, h6]
    rfl
  · rw [h4, hpc]
    rfl

end Emission

/-! ### A run of the worker -/

/-- What holds of a worker in every state of its run. -/
structure IOInv (task : Calc σ I O) (start : σ) (past : List (Executor.State σ I O × Act I O))
    (s : Executor.State σ I O) : Prop where
  given : Given task start s
  popped : s.popped = pops past
  pushed : s.pushed = pushes past
  closed : s.pc.closing = true → ∃ u, (u, .close) ∈ past

section Run

variable {cfg : Config σ I O} {start : σ} {past : List (Executor.State σ I O × Act I O)}
  {s t : Executor.State σ I O} {a : Act I O}

/-- A step of the executor that does to the queues what the action says. -/
theorem IOInv.exec (hc : Takes cfg.calculation) (h : IOInv cfg.calculation start past s)
    {input : List I} {producers : ℕ} {output : List O}
    (ht : exec cfg (facing s input producers output) = some t) {a : Act I O}
    (hi : input = a.taken.toList ++ t.input) (ho : t.output = output ++ a.given.toList)
    (hopen : ∀ k, s.pc = .head k → (facing s input producers output).isFinished = true → a = .close) :
    IOInv cfg.calculation start ((s, a) :: past) t := by
  obtain ⟨xs, ys, hmoved⟩ := exec_moved ht
  have hxs : xs = a.taken.toList := List.append_cancel_right (hmoved.input.symm.trans hi)
  have hys : ys = a.given.toList := List.append_cancel_left (hmoved.output.symm.trans ho)
  refine ⟨exec_given hc (h.given.facing _ _ _) ht, ?_, ?_, fun hclosing => ?_⟩
  · rw [hmoved.popped, hxs, pops, ← h.popped]
    rfl
  · rw [hmoved.pushed, hys, pushes, ← h.pushed]
    rfl
  · rcases hmoved.closing hclosing with hold | ⟨⟨k, hk⟩, hfin⟩
    · obtain ⟨u, hu⟩ := h.closed hold
      exact ⟨u, List.mem_cons_of_mem _ hu⟩
    · rw [hopen k hk hfin]
      exact ⟨s, List.mem_cons_self⟩

theorem closing_left {status : Option TaskStatus} (h : status ≠ some .finished) :
    (Pc.left status : Pc O).closing = false := by
  rcases status with _ | _ | _ | _ | _
  · rfl
  · rfl
  · rfl
  · rfl
  · exact absurd rfl h

theorem IOInv.step (hc : Takes cfg.calculation) (h : IOInv cfg.calculation start past s)
    (hs : IOStep cfg a s t) : IOInv cfg.calculation start ((s, a) :: past) t := by
  cases hs with
  | enter hpc hstatus =>
    have hold := h.given.goto (q := .entered)
      (env_inv h.given.inv (show Env cfg s _ from .enter s _ hpc hstatus))
      (fun _ => h.given.input (by rw [hpc]; rfl)) (by rw [hpc]; rfl)
      (by rw [hpc, closing_left hstatus]; rfl)
    refine ⟨hold, ?_, ?_, fun hc => by cases hc⟩
    · exact h.popped.trans (List.append_nil _).symm
    · exact h.pushed.trans (List.append_nil _).symm
  | think ht hi ho hopen =>
    exact h.exec hc ht hi.symm (ho.trans (List.append_nil _).symm) fun k hk hfin => by
      rw [hopen k hk] at hfin
      cases hfin
  | @pop _ _ x rest producers output ht hi =>
    obtain ⟨xs, ys, hmoved⟩ := exec_moved ht
    have hxs : xs = [x] := by
      have hinput := hmoved.input
      rw [hi] at hinput
      exact (List.append_cancel_right (hinput.symm.trans (List.singleton_append).symm))
    have hys : ys = [] := by
      have hsingle := hmoved.single
      rw [hxs, List.length_singleton] at hsingle
      exact List.length_eq_zero_iff.mp (by omega)
    refine h.exec hc ht (by rw [hi]; rfl) (by rw [hmoved.output, hys]; rfl) fun k _ hfin => ?_
    obtain ⟨-, hempty⟩ := (Bool.and_eq_true _ _).mp hfin
    cases hempty
  | @push _ _ input producers output y ht ho =>
    obtain ⟨xs, ys, hmoved⟩ := exec_moved ht
    have hys : ys = [y] := List.append_cancel_left (hmoved.output.symm.trans ho)
    have hxs : xs = [] := by
      have hsingle := hmoved.single
      rw [hys, List.length_singleton] at hsingle
      exact List.length_eq_zero_iff.mp (by omega)
    have hinput : input = t.input := by
      have hinput := hmoved.input
      rwa [hxs] at hinput
    refine h.exec hc ht hinput ho fun k hk hfin => ?_
    have hsame := (exec_close (show (facing s input producers output).pc = .head k from hk) hfin ht).2
    rw [ho] at hsame
    exact absurd (List.append_right_eq_self.mp hsame) (List.cons_ne_nil y [])
  | @close _ _ k output hk ht =>
    have hsame := exec_close (show (facing s [] 0 output).pc = .head k from hk) rfl ht
    exact h.exec hc ht hsame.1.symm (hsame.2.trans (List.append_nil _).symm) fun _ _ _ => rfl
  | leave hpc =>
    exact ⟨h.given, h.popped.trans (List.append_nil _).symm, h.pushed.trans (List.append_nil _).symm,
      fun hc => (h.closed hc).imp fun u hu => List.mem_cons_of_mem _ hu⟩

theorem ioInv_run (hc : Takes cfg.calculation)
    (h : Joda.Lib.Runs.Run (ioWorker cfg start).Init (ioWorker cfg start).Step past s) :
    IOInv cfg.calculation start past s := by
  induction h with
  | start h =>
    obtain ⟨hinit, rfl⟩ := h
    have ⟨hpc, _, _, _, _, h5, h6, _⟩ := hinit
    refine ⟨given_initial hinit, h6, h5, fun hclosing => ?_⟩
    rw [hpc] at hclosing
    cases hclosing
  | step _ hs ih => exact ih.step hc hs

/-- **What a task pushes** is what its calculation emits for what it popped. -/
theorem ioWorker_gives (hc : Takes cfg.calculation) :
    (ioWorker cfg start).Closes ∧ (ioWorker cfg start).Gives fun xs ys t =>
      ys = emissions cfg.calculation start xs ∧ t.state = after cfg.calculation start xs := by
  constructor <;> rintro past t ⟨s, hrun, hleave⟩
  · have hinv := ioInv_run hc hrun
    cases hleave with
    | leave hpc => exact hinv.closed (by rw [hpc]; rfl)
  · have hinv := ioInv_run hc hrun
    cases hleave with
    | leave hpc =>
      have hib := hinv.given.input (by rw [hpc]; rfl)
      obtain ⟨taken, h1, h2, h3⟩ := hinv.given.emitted
      rw [hib, Option.toList_none, List.append_nil] at h1
      have h3' : t.emitted ++ [] = outputs cfg.calculation start taken ++
          ending cfg.calculation t.state := by
        rw [hpc] at h3
        exact h3
      have hpopped : pops past = taken := hinv.popped.symm.trans h1
      have hpushed : pushes past = t.emitted :=
        hinv.pushed.symm.trans (hinv.given.inv.preserved.of_finished hpc).1.symm
      refine ⟨?_, by rw [hpopped, h2]⟩
      rw [hpopped, hpushed, ← List.append_nil t.emitted, h3', h2, ending, emissions, List.append_assoc]

end Run

/-! ### `OExecutor` -/

/-- The calculation at the start of a pipeline. `fillBuffer` gives the new state, what it sends on the way
and what it leaves in the output buffer. -/
structure Source (σ O : Type) where
  finished : σ → Bool
  fillBuffer : σ → σ × List O × Option O

inductive OPc (O : Type) where
  /-- outside, with the status of the last execution -/
  | left (status : Option TaskStatus)
  | entered
  /-- at `while (!calc.finished())` -/
  | head
  | filling (sent : List O) (rest : Option O)
  /-- in `fillBuffer`, in `blockSend` -/
  | fillSend (sent : List O) (rest : Option O)
  | filled

structure OState (σ O : Type) where
  state : σ
  obuff : Option O
  pc : OPc O

/-- `blockSend`, then on to `pc`, with what is pushed; `full` if the queue takes nothing. -/
def OState.blockSend (s : OState σ O) (full : Bool) (pc : OPc O) : Option (OState σ O × Option O) :=
  match s.obuff with
  | none => some ({ s with pc := pc }, none)
  | some o => if full then none else some ({ s with obuff := none, pc := pc }, some o)

def OState.defaultSend (s : OState σ O) (async : AsyncType) (full : Bool) (pc : OPc O) :
    Option (OState σ O × Option O) :=
  if async = .synchronous then s.blockSend full pc
  else
    match s.obuff with
    | none => some ({ s with pc := pc }, none)
    | some o =>
      if full then some ({ s with pc := .left (some .starved) }, none)
      else some ({ s with obuff := none, pc := pc }, some o)

/-- **One step** of `OExecutor::execute`, with what is pushed. -/
def oexec (source : Source σ O) (async : AsyncType) (full : Bool) (s : OState σ O) :
    Option (OState σ O × Option O) :=
  match s.pc with
  | .left _ => none
  | .entered => s.defaultSend async full .head
  | .head =>
    if source.finished s.state then some ({ s with pc := .left (some .finished) }, none)
    else
      let f := source.fillBuffer s.state
      some ({ s with state := f.1, pc := .filling f.2.1 f.2.2 }, none)
  | .filling (o :: sent) rest => some ({ s with obuff := some o, pc := .fillSend sent rest }, none)
  | .filling [] (some o) => some ({ s with obuff := some o, pc := .filled }, none)
  | .filling [] none => some ({ s with pc := .filled }, none)
  | .fillSend sent rest => s.blockSend full (.filling sent rest)
  | .filled => s.defaultSend async full .head

inductive OStep (source : Source σ O) (async : AsyncType) : Act I O → OState σ O → OState σ O → Prop
  | enter {s : OState σ O} {status : Option TaskStatus} (h : s.pc = .left status)
      (hs : status ≠ some .finished) : OStep source async .think s { s with pc := .entered }
  | think {s t : OState σ O} {full : Bool} (h : oexec source async full s = some (t, none)) :
      OStep source async .think s t
  | push {s t : OState σ O} {full : Bool} {y : O} (h : oexec source async full s = some (t, some y)) :
      OStep source async (.push y) s t
  | leave {s : OState σ O} (h : s.pc = .left (some .finished)) : OStep source async .leave s s

def oWorker (I : Type) (source : Source σ O) (async : AsyncType) (start : σ) : Worker I O where
  State := OState σ O
  Init s := s = ⟨start, none, .left none⟩
  Step := OStep source async

/-- What a source has emitted, and where it is then. -/
inductive Reached (source : Source σ O) (start : σ) : List O → σ → Prop
  | start : Reached source start [] start
  | fill {out : List O} {s : σ} (h : Reached source start out s) (hs : source.finished s = false) :
      Reached source start
        (out ++ ((source.fillBuffer s).2.1 ++ (source.fillBuffer s).2.2.toList))
        (source.fillBuffer s).1

def opending : OPc O → List O
  | .filling sent rest => sent ++ rest.toList
  | .fillSend sent rest => sent ++ rest.toList
  | _ => []

/-- **The invariant of a source**: what it has emitted is pushed, in the output buffer or pending. -/
structure OInv (source : Source σ O) (start : σ) (past : List (OState σ O × Act I O)) (s : OState σ O) :
    Prop where
  reached : Reached source start (pushes past ++ (s.obuff.toList ++ opending s.pc)) s.state
  empty : (s.pc = .head ∨ (∃ sent rest, s.pc = .filling sent rest) ∨ s.pc = .left (some .finished)) →
    s.obuff = none
  finished : s.pc = .left (some .finished) → source.finished s.state = true
  popped : pops past = []

section Start

variable {source : Source σ O} {async : AsyncType} {start : σ} {past : List (OState σ O × Act I O)}
  {s t : OState σ O} {full : Bool} {o : Option O}

/-- The action of a step that pushes this. -/
def pushAct : Option O → Act I O
  | none => .think
  | some y => .push y

/-- The step of an executor in front of a queue that takes everything. -/
def oNext (source : Source σ O) (async : AsyncType) (s : OState σ O) : Option (Act I O × OState σ O) :=
  match s.pc with
  | .left (some .finished) => some (.leave, s)
  | .left _ => some (.think, { s with pc := .entered })
  | _ => (oexec source async false s).map fun r => (pushAct r.2, r.1)

theorem oNext_sound {queue : List I} {finished : Bool} {r : Act I O × OState σ O}
    (h : oNext source async s = some r) : OStep source async r.1 s r.2 ∧ r.1.Fits queue finished := by
  unfold oNext at h
  split at h
  · rename_i hpc
    obtain rfl := Option.some.inj h
    exact ⟨.leave hpc, trivial⟩
  · rename_i status hstatus hpc
    obtain rfl := Option.some.inj h
    exact ⟨.enter hpc hstatus, trivial⟩
  · obtain ⟨⟨t, o⟩, ht, rfl⟩ := Option.map_eq_some_iff.mp h
    rcases o with _ | y
    · exact ⟨.think ht, trivial⟩
    · exact ⟨.push ht, trivial⟩

def oDriver (I : Type) (source : Source σ O) (async : AsyncType) (start : σ) :
    Driver (oWorker I source async start) :=
  ⟨fun _ _ => oNext source async, fun _ _ _ _ => oNext_sound⟩

theorem pushes_cons (s : OState σ O) (o : Option O) (past : List (OState σ O × Act I O)) :
    pushes ((s, pushAct o) :: past) = pushes past ++ o.toList := by
  rcases o with _ | y <;> rfl

theorem pops_cons (s : OState σ O) (o : Option O) (past : List (OState σ O × Act I O)) :
    pops ((s, pushAct o) :: past) = pops past := by
  rcases o with _ | y <;> exact List.append_nil _

theorem blockSend_sent {pc : OPc O} (ht : s.blockSend full pc = some (t, o)) :
    t = { s with obuff := none, pc := pc } ∧ o = s.obuff := by
  unfold OState.blockSend at ht
  split at ht
  · rename_i hnone
    obtain ⟨rfl, rfl⟩ := Prod.mk.inj (Option.some.inj ht)
    exact ⟨by rw [← hnone], hnone.symm⟩
  · rename_i y hsome
    split_ifs at ht
    obtain ⟨rfl, rfl⟩ := Prod.mk.inj (Option.some.inj ht)
    exact ⟨rfl, hsome.symm⟩

theorem defaultSend_sent {pc : OPc O} (ht : s.defaultSend async full pc = some (t, o)) :
    t = { s with obuff := none, pc := pc } ∧ o = s.obuff ∨
      t = { s with pc := .left (some .starved) } ∧ o = none := by
  unfold OState.defaultSend at ht
  by_cases hsync : async = .synchronous
  · rw [if_pos hsync] at ht
    exact Or.inl (blockSend_sent ht)
  · rw [if_neg hsync] at ht
    split at ht
    · rename_i hnone
      obtain ⟨rfl, rfl⟩ := Prod.mk.inj (Option.some.inj ht)
      exact Or.inl ⟨by rw [← hnone], hnone.symm⟩
    · rename_i y hsome
      split_ifs at ht
      · obtain ⟨rfl, rfl⟩ := Prod.mk.inj (Option.some.inj ht)
        exact Or.inr ⟨rfl, rfl⟩
      · obtain ⟨rfl, rfl⟩ := Prod.mk.inj (Option.some.inj ht)
        exact Or.inl ⟨rfl, hsome.symm⟩

/-- The output buffer is pushed. -/
theorem OInv.sent (h : OInv source start past s) {pc : OPc O} (hpending : opending pc = opending s.pc)
    (hpc : pc ≠ .left (some .finished)) :
    OInv source start ((s, pushAct s.obuff) :: past) { s with obuff := none, pc := pc } := by
  refine ⟨?_, fun _ => rfl, fun hf => absurd hf hpc, (pops_cons _ _ _).trans h.popped⟩
  rw [pushes_cons]
  dsimp only
  rw [hpending, List.append_assoc]
  exact h.reached

/-- A step that pushes nothing. -/
theorem OInv.stay (h : OInv source start past s)
    (hreached : Reached source start (pushes past ++ (t.obuff.toList ++ opending t.pc)) t.state)
    (hempty : (t.pc = .head ∨ (∃ sent rest, t.pc = .filling sent rest) ∨
      t.pc = .left (some .finished)) → t.obuff = none)
    (hfinished : t.pc = .left (some .finished) → source.finished t.state = true) :
    OInv source start ((s, .think) :: past) t := by
  refine ⟨?_, hempty, hfinished, (pops_cons s none past).trans h.popped⟩
  have hpushes : pushes ((s, (.think : Act I O)) :: past) = pushes past := List.append_nil _
  rw [hpushes]
  exact hreached

theorem OInv.starve (h : OInv source start past s) (hnil : opending s.pc = []) :
    OInv source start ((s, .think) :: past) { s with pc := .left (some .starved) } := by
  refine h.stay ?_ (fun hf => ?_) fun hf => by cases hf
  · have hreached := h.reached
    rw [hnil] at hreached
    exact hreached
  · rcases hf with hf | ⟨_, _, hf⟩ | hf <;> cases hf

theorem OInv.defaultSend (h : OInv source start past s)
    (ht : s.defaultSend async full .head = some (t, o)) (hnil : opending s.pc = []) :
    OInv source start ((s, pushAct o) :: past) t := by
  rcases defaultSend_sent ht with ⟨rfl, rfl⟩ | ⟨rfl, rfl⟩
  · exact h.sent hnil.symm (by simp)
  · exact h.starve hnil

/-- **A step of the executor.** -/
theorem oexec_inv (h : OInv source start past s) (ht : oexec source async full s = some (t, o)) :
    OInv source start ((s, pushAct o) :: past) t := by
  have hreached := h.reached
  have hempty := h.empty
  unfold oexec at ht
  split at ht <;> rename_i hpc <;> rw [hpc] at hreached hempty
  case h_1 => cases ht
  case h_2 => exact h.defaultSend ht (by rw [hpc]; rfl)
  case h_3 =>
    have hnone := hempty (Or.inl rfl)
    rw [hnone] at hreached
    split_ifs at ht with hfin
    · obtain ⟨rfl, rfl⟩ := Prod.mk.inj (Option.some.inj ht)
      refine h.stay ?_ (fun _ => hnone) fun _ => hfin
      rw [hnone]
      exact hreached
    · obtain ⟨rfl, rfl⟩ := Prod.mk.inj (Option.some.inj ht)
      refine h.stay ?_ (fun _ => hnone) fun hf => by cases hf
      have hfill := Reached.fill hreached (Bool.eq_false_of_not_eq_true hfin)
      dsimp only
      rw [hnone]
      have hpushes : pushes past ++ ((none : Option O).toList ++ opending (.head : OPc O)) =
        pushes past := List.append_nil _
      rw [hpushes] at hfill
      exact hfill
  case h_4 y sent rest =>
    have hnone := hempty (Or.inr (Or.inl ⟨_, _, rfl⟩))
    obtain ⟨rfl, rfl⟩ := Prod.mk.inj (Option.some.inj ht)
    rw [hnone] at hreached
    refine h.stay hreached (fun hf => ?_) fun hf => by cases hf
    rcases hf with hf | ⟨_, _, hf⟩ | hf <;> cases hf
  case h_5 y =>
    have hnone := hempty (Or.inr (Or.inl ⟨_, _, rfl⟩))
    obtain ⟨rfl, rfl⟩ := Prod.mk.inj (Option.some.inj ht)
    rw [hnone] at hreached
    refine h.stay hreached (fun hf => ?_) fun hf => by cases hf
    rcases hf with hf | ⟨_, _, hf⟩ | hf <;> cases hf
  case h_6 =>
    obtain ⟨rfl, rfl⟩ := Prod.mk.inj (Option.some.inj ht)
    refine h.stay hreached (fun hf => ?_) fun hf => by cases hf
    rcases hf with hf | ⟨_, _, hf⟩ | hf <;> cases hf
  case h_7 sent rest =>
    obtain ⟨rfl, rfl⟩ := blockSend_sent ht
    exact h.sent (by rw [hpc]; rfl) (by simp)
  case h_8 => exact h.defaultSend ht (by rw [hpc]; rfl)

theorem oInv_run (h : Joda.Lib.Runs.Run (oWorker I source async start).Init
    (oWorker I source async start).Step past s) : OInv source start past s := by
  induction h with
  | start h =>
    obtain rfl := h
    exact ⟨.start, fun _ => rfl, fun hf => (by cases hf), rfl⟩
  | step _ hs ih =>
    cases hs with
    | enter hpc _ =>
      refine ih.stay ?_ (fun hf => ?_) fun hf => by cases hf
      · have hreached := ih.reached
        rw [hpc] at hreached
        exact hreached
      · rcases hf with hf | ⟨_, _, hf⟩ | hf <;> cases hf
    | think ht => exact oexec_inv ih ht
    | push ht => exact oexec_inv ih ht
    | leave hpc =>
      have hstay := ih.stay ih.reached ih.empty ih.finished
      exact ⟨hstay.reached, hstay.empty, hstay.finished, hstay.popped⟩

/-- **What the first task pushes** is what its source gives until it is finished. -/
theorem oWorker_gives : (oWorker I source async start).Gives fun xs ys t =>
    xs = [] ∧ Reached source start ys t.state ∧ source.finished t.state = true := by
  rintro past t ⟨s, hrun, hleave⟩
  have hinv := oInv_run hrun
  cases hleave with
  | leave hpc =>
    have hreached := hinv.reached
    have hnone := hinv.empty (Or.inr (Or.inr hpc))
    have hpushes : pushes past ++ (t.obuff.toList ++ opending t.pc) = pushes past := by
      rw [hpc, hnone]
      exact List.append_nil _
    exact ⟨hinv.popped, hpushes ▸ hreached, hinv.finished hpc⟩

end Start

/-! ### `IExecutor` -/

/-- The calculation at the end of a pipeline. -/
structure Sink (σ I : Type) where
  emptyBuffer : σ → I → σ
  finalize : σ → σ

inductive IPc where
  | left (status : Option TaskStatus)
  /-- at `while (!input_q->isFinished())` -/
  | head
  /-- at `try_pop` -/
  | fetch
  deriving DecidableEq

structure IState (σ : Type) where
  state : σ
  pc : IPc

/-- **One step** of `IExecutor::execute`, with what is left in the queue. -/
def iexec (sink : Sink σ I) (input : List I) (producers : ℕ) (s : IState σ) :
    Option (IState σ × List I) :=
  match s.pc, input with
  | .left _, _ => none
  | .head, _ =>
    if producers == 0 && input.isEmpty then some (⟨sink.finalize s.state, .left (some .finished)⟩, input)
    else some ({ s with pc := .fetch }, input)
  | .fetch, i :: rest => some (⟨sink.emptyBuffer s.state i, .head⟩, rest)
  | .fetch, [] => some ({ s with pc := .left (some .idle) }, [])

inductive IStep (sink : Sink σ I) : Act I O → IState σ → IState σ → Prop
  | enter {s : IState σ} {status : Option TaskStatus} (h : s.pc = .left status)
      (hs : status ≠ some .finished) : IStep sink .think s { s with pc := .head }
  | think {s t : IState σ} {input : List I} {producers : ℕ}
      (h : iexec sink input producers s = some (t, input))
      (hopen : s.pc = .head → (producers == 0 && input.isEmpty) = false) : IStep sink .think s t
  | pop {s t : IState σ} {x : I} {rest : List I} {producers : ℕ}
      (h : iexec sink (x :: rest) producers s = some (t, rest)) : IStep sink (.pop x) s t
  | close {s t : IState σ} (hpc : s.pc = .head) (h : iexec sink [] 0 s = some (t, [])) :
      IStep sink .close s t
  | leave {s : IState σ} (h : s.pc = .left (some .finished)) : IStep sink .leave s s

def iWorker (O : Type) (sink : Sink σ I) (start : σ) : Worker I O where
  State := IState σ
  Init s := s = ⟨start, .left none⟩
  Step := IStep sink

/-- **The invariant of a sink**: it was given what was popped. -/
structure IInv (sink : Sink σ I) (start : σ) (past : List (IState σ × Act I O)) (s : IState σ) : Prop where
  pushed : pushes past = []
  state : s.state = if s.pc = .left (some .finished) then
    sink.finalize ((pops past).foldl sink.emptyBuffer start) else (pops past).foldl sink.emptyBuffer start
  closed : s.pc = .left (some .finished) → ∃ u, (u, .close) ∈ past

section End

variable {sink : Sink σ I} {start : σ} {past : List (IState σ × Act I O)} {s t : IState σ}

/-- The step of an executor behind this queue. -/
def iNext (sink : Sink σ I) (queue : List I) (finished : Bool) (s : IState σ) :
    Option (Act I O × IState σ) :=
  match s.pc, queue with
  | .left (some .finished), _ => some (.leave, s)
  | .left _, _ => some (.think, { s with pc := .head })
  | .head, queue =>
    if finished && queue.isEmpty then (iexec sink [] 0 s).map fun r => (.close, r.1)
    else some (.think, { s with pc := .fetch })
  | .fetch, x :: rest => (iexec sink (x :: rest) 1 s).map fun r => (.pop x, r.1)
  | .fetch, [] => some (.think, { s with pc := .left (some .idle) })

theorem iNext_sound {queue : List I} {finished : Bool} {r : Act I O × IState σ}
    (h : iNext sink queue finished s = some r) : IStep sink r.1 s r.2 ∧ r.1.Fits queue finished := by
  have hthink : ∀ t, iexec sink [] 1 s = some (t, []) → IStep sink (.think : Act I O) s t :=
    fun _ ht => .think ht fun _ => rfl
  unfold iNext at h
  split at h
  · rename_i hpc
    obtain rfl := Option.some.inj h
    exact ⟨.leave hpc, trivial⟩
  · rename_i status hstatus hpc
    obtain rfl := Option.some.inj h
    exact ⟨.enter hpc hstatus, trivial⟩
  · rename_i hpc
    split_ifs at h with hfin
    · obtain ⟨hfin, hnil⟩ := (Bool.and_eq_true _ _).mp hfin
      obtain ⟨⟨t, rest⟩, ht, rfl⟩ := Option.map_eq_some_iff.mp h
      have hrest : rest = [] := by
        unfold iexec at ht
        rw [hpc] at ht
        exact (Prod.mk.inj (Option.some.inj ht)).2.symm
      subst hrest
      exact ⟨.close hpc ht, List.isEmpty_iff.mp hnil, hfin⟩
    · obtain rfl := Option.some.inj h
      refine ⟨hthink _ ?_, trivial⟩
      unfold iexec
      rw [hpc]
      rfl
  · rename_i x rest hpc
    obtain ⟨⟨t, rest'⟩, ht, rfl⟩ := Option.map_eq_some_iff.mp h
    have hrest : rest' = rest := by
      unfold iexec at ht
      rw [hpc] at ht
      exact (Prod.mk.inj (Option.some.inj ht)).2.symm
    subst hrest
    exact ⟨.pop ht, rfl⟩
  · rename_i hpc
    obtain rfl := Option.some.inj h
    refine ⟨hthink _ ?_, trivial⟩
    unfold iexec
    rw [hpc]

def iDriver (O : Type) (sink : Sink σ I) (start : σ) : Driver (iWorker O sink start) :=
  ⟨iNext sink, fun _ _ _ _ => iNext_sound⟩

/-- A step that only goes on. -/
theorem IInv.goto (h : IInv sink start past s) (hs : s.pc ≠ .left (some .finished)) {q : IPc}
    (hq : q ≠ .left (some .finished)) :
    IInv sink start ((s, (.think : Act I O)) :: past) { s with pc := q } := by
  have hstate := h.state
  rw [if_neg hs] at hstate
  refine ⟨(List.append_nil _).trans h.pushed, ?_, fun hf => absurd hf hq⟩
  have hpops : pops ((s, (.think : Act I O)) :: past) = pops past := List.append_nil _
  rw [hpops, if_neg hq]
  exact hstate

/-- **A step of the worker.** -/
theorem IInv.step (h : IInv sink start past s) {a : Act I O} (hs : IStep sink a s t) :
    IInv sink start ((s, a) :: past) t := by
  cases hs with
  | enter hpc hstatus => exact h.goto (by rw [hpc]; simpa using hstatus) (by simp)
  | think hexec hopen =>
    unfold iexec at hexec
    split at hexec
    · cases hexec
    · rename_i hpc
      rw [if_neg (by rw [hopen hpc]; exact Bool.false_ne_true)] at hexec
      obtain ⟨rfl, -⟩ := Prod.mk.inj (Option.some.inj hexec)
      exact h.goto (by rw [hpc]; simp) (by simp)
    · have hrest := (Prod.mk.inj (Option.some.inj hexec)).2
      exact absurd hrest.symm (List.cons_ne_self _ _)
    · rename_i hpc
      obtain ⟨rfl, -⟩ := Prod.mk.inj (Option.some.inj hexec)
      exact h.goto (by rw [hpc]; simp) (by simp)
  | @pop _ _ x rest _ hexec =>
    rcases hpc : s.pc with status | - | -
    · simp only [iexec, hpc] at hexec
      cases hexec
    · simp only [iexec, hpc, List.isEmpty_cons, Bool.and_false, Bool.false_eq_true, if_false] at hexec
      exact absurd (Prod.mk.inj (Option.some.inj hexec)).2 (List.cons_ne_self _ _)
    · simp only [iexec, hpc] at hexec
      obtain ⟨rfl, -⟩ := Prod.mk.inj (Option.some.inj hexec)
      have hstate := h.state
      rw [if_neg (by rw [hpc]; simp)] at hstate
      refine ⟨(List.append_nil _).trans h.pushed, ?_, fun hf => by cases hf⟩
      rw [if_neg (by simp)]
      change sink.emptyBuffer s.state x = (pops past ++ [x]).foldl sink.emptyBuffer start
      rw [List.foldl_append, hstate]
      rfl
  | close hpc hexec =>
    simp only [iexec, hpc] at hexec
    obtain ⟨rfl, -⟩ := Prod.mk.inj (Option.some.inj hexec)
    have hstate := h.state
    rw [if_neg (by rw [hpc]; simp)] at hstate
    refine ⟨(List.append_nil _).trans h.pushed, ?_, fun _ => ⟨s, List.mem_cons_self⟩⟩
    rw [if_pos rfl]
    change sink.finalize s.state = sink.finalize ((pops past ++ []).foldl sink.emptyBuffer start)
    rw [List.append_nil, hstate]
  | leave hpc =>
    refine ⟨(List.append_nil _).trans h.pushed, ?_, fun hf => (h.closed hf).imp fun u hu =>
      List.mem_cons_of_mem _ hu⟩
    have hpops : pops ((s, (.leave : Act I O)) :: past) = pops past := List.append_nil _
    rw [hpops]
    exact h.state

theorem iInv_run (h : Joda.Lib.Runs.Run (iWorker O sink start).Init (iWorker O sink start).Step past s) :
    IInv sink start past s := by
  induction h with
  | start h =>
    obtain rfl := h
    exact ⟨rfl, rfl, fun hf => by cases hf⟩
  | step _ hs ih => exact ih.step hs

/-- **The last task** is given what was popped, in order, and pushes nothing. -/
theorem iWorker_gives : (iWorker O sink start).Closes ∧ (iWorker O sink start).Gives fun xs ys t =>
    ys = [] ∧ t.state = sink.finalize (xs.foldl sink.emptyBuffer start) := by
  constructor <;> rintro past t ⟨s, hrun, hleave⟩
  · have hinv := iInv_run hrun
    cases hleave with
    | leave hpc => exact hinv.closed hpc
  · have hinv := iInv_run hrun
    cases hleave with
    | leave hpc =>
      refine ⟨hinv.pushed, ?_⟩
      have hstate := hinv.state
      rw [if_pos hpc] at hstate
      exact hstate

end End

end Joda.Pipeline.Workers
