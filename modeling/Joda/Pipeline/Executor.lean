import Joda.Lib.Runs

/-! # The executor of a task

`IOExecutor::execute` as a machine with a program counter: the thread pool enters it, it leaves with
`STARVED`, `IDLE`, `YIELD` or `FINISHED`, and what it holds in its two buffers stays for the next
entry. Between its steps the other tasks fill and drain the two queues. The queues are bounded
buffers; an emplacement that blocks is a step that is not possible while the queue is full.

The state carries a history: what the calculation has emitted and consumed, what was popped and what
was pushed. -/

namespace Joda.Pipeline.Executor

open Joda.Lib.Runs

inductive TaskStatus where
  | starved | idle | yield | finished
  deriving DecidableEq, Repr

inductive AsyncType where
  | synchronous | singleThreaded | multiThreaded
  deriving DecidableEq, Repr

variable {σ I O : Type*}

/-- What one call of `fillBuffer` does: the new state, what is left in the input buffer, the elements
sent on the way and the element left in the output buffer. -/
structure Filled (σ I O : Type*) where
  state : σ
  ibuff : Option I
  sent : List O
  left : Option O

/-- The calculation of a task. `finalize` gives what it sends and what it leaves in the output
buffer. -/
structure Calc (σ I O : Type*) where
  fillBuffer : σ → I → Filled σ I O
  finalize : σ → List O × Option O

/-- Where the executor is. -/
inductive Pc (O : Type*) where
  /-- outside, with the status of the last execution -/
  | left (status : Option TaskStatus)
  | entered
  /-- at `while (!input_q->isFinished())` -/
  | head (iterations : ℕ)
  | fetch (iterations tries : ℕ)
  /-- at `while (ibuff.has_value())` -/
  | fill (iterations : ℕ)
  /-- in `fillBuffer`, about to emit -/
  | filling (iterations : ℕ) (sent : List O) (rest : Option O)
  /-- in `fillBuffer`, in `blockSend` -/
  | fillSend (iterations : ℕ) (sent : List O) (rest : Option O)
  | filled (iterations : ℕ)
  /-- in `finalize`, about to emit -/
  | finalizing (sent : List O) (rest : Option O)
  /-- in `finalize`, in `defaultSend` -/
  | finalSend (sent : List O) (rest : Option O)
  | last

structure State (σ I O : Type*) where
  state : σ
  obuff : Option O
  ibuff : Option I
  pc : Pc O
  input : List I
  producers : ℕ
  output : List O
  /-- the popped element the input buffer comes from -/
  held : Option I
  emitted : List O
  pushed : List O
  popped : List I
  consumed : List I

structure Config (σ I O : Type*) where
  calculation : Calc σ I O
  async : AsyncType
  capacity : ℕ

namespace State

def isFinished (s : State σ I O) : Bool := s.producers == 0 && s.input.isEmpty

def full (cfg : Config σ I O) (s : State σ I O) : Bool := cfg.capacity ≤ s.output.length

/-- The element in the output buffer goes into the queue. -/
def push (s : State σ I O) (o : O) : State σ I O :=
  { s with obuff := none, output := s.output ++ [o], pushed := s.pushed ++ [o] }

/-- The calculation puts an element into the output buffer. -/
def emit (s : State σ I O) (o : O) : State σ I O :=
  { s with obuff := some o, emitted := s.emitted ++ [o] }

/-- `blockSend`, then on to `pc`. -/
def blockSend (cfg : Config σ I O) (s : State σ I O) (pc : Pc O) : Option (State σ I O) :=
  match s.obuff with
  | none => some { s with pc := pc }
  | some o => if s.full cfg then none else some { s.push o with pc := pc }

/-- `defaultSend`, then on to `pc` if the output buffer is empty and to `starved` if it is not. -/
def defaultSend (cfg : Config σ I O) (s : State σ I O) (pc starved : Pc O) : Option (State σ I O) :=
  if cfg.async = .synchronous then s.blockSend cfg pc
  else
    match s.obuff with
    | none => some { s with pc := pc }
    | some o => if s.full cfg then some { s with pc := starved } else some { s.push o with pc := pc }

end State

/-- **One step of the executor**; `none` where it is outside or blocked. -/
def exec (cfg : Config σ I O) (s : State σ I O) : Option (State σ I O) :=
  match s.pc with
  | .left _ => none
  | .entered => s.defaultSend cfg (.head 0) (.left (some .starved))
  | .head k =>
    if s.isFinished then
      some { s with
        pc := .finalizing (cfg.calculation.finalize s.state).1 (cfg.calculation.finalize s.state).2 }
    else some { s with pc := .fetch k 0 }
  | .fetch k tries =>
    match s.ibuff, s.input with
    | some _, _ => some { s with pc := .fill k }
    | none, i :: rest =>
      some { s with
        ibuff := some i
        input := rest
        held := some i
        popped := s.popped ++ [i]
        pc := .fetch k (tries + 1) }
    | none, [] =>
      some { s with pc := if 50 ≤ tries + 1 then .left (some .idle) else .fetch k (tries + 1) }
  | .fill k =>
    match s.ibuff with
    | none => some { s with pc := if 2 < k + 1 then .left (some .yield) else .head (k + 1) }
    | some i =>
      let f := cfg.calculation.fillBuffer s.state i
      some { s with
        state := f.state
        ibuff := f.ibuff
        held := if f.ibuff.isNone then none else s.held
        consumed := if f.ibuff.isNone then s.consumed ++ s.held.toList else s.consumed
        pc := .filling k f.sent f.left }
  | .filling k (o :: sent) rest => some { s.emit o with pc := .fillSend k sent rest }
  | .filling k [] (some o) => some { s.emit o with pc := .filled k }
  | .filling k [] none => some { s with pc := .filled k }
  | .fillSend k sent rest => s.blockSend cfg (.filling k sent rest)
  | .filled k => s.defaultSend cfg (.fill k) (.left (some .starved))
  | .finalizing (o :: sent) rest => some { s.emit o with pc := .finalSend sent rest }
  | .finalizing [] (some o) => some { s.emit o with pc := .last }
  | .finalizing [] none => some { s with pc := .last }
  | .finalSend sent rest => s.defaultSend cfg (.finalizing sent rest) (.finalizing sent rest)
  | .last => s.blockSend cfg (.left (some .finished))

/-- **A step of the others**: the thread pool enters the executor again, upstream tasks push and
finish, clones of the task pop, downstream tasks pop and clones push. -/
inductive Env (cfg : Config σ I O) : State σ I O → State σ I O → Prop
  | enter (s : State σ I O) (status : Option TaskStatus) (h : s.pc = .left status)
      (hs : status ≠ some .finished) : Env cfg s { s with pc := .entered }
  | produce (s : State σ I O) (i : I) (h : 0 < s.producers) :
      Env cfg s { s with input := s.input ++ [i] }
  | unregister (s : State σ I O) (h : 0 < s.producers) :
      Env cfg s { s with producers := s.producers - 1 }
  | take (s : State σ I O) (i : I) (rest : List I) (h : s.input = i :: rest) :
      Env cfg s { s with input := rest }
  | drain (s : State σ I O) (o : O) (rest : List O) (h : s.output = o :: rest) :
      Env cfg s { s with output := rest }
  | give (s : State σ I O) (o : O) (h : s.full cfg = false) :
      Env cfg s { s with output := s.output ++ [o] }

inductive Actor where
  | executor | others
  deriving DecidableEq, Repr

def Step (cfg : Config σ I O) : Actor → State σ I O → State σ I O → Prop
  | .executor, s, t => exec cfg s = some t
  | .others, s, t => Env cfg s t

/-- An executor that was never entered. -/
def Initial (s : State σ I O) : Prop :=
  s.pc = .left none ∧ s.obuff = none ∧ s.ibuff = none ∧ s.held = none ∧ s.emitted = [] ∧
    s.pushed = [] ∧ s.popped = [] ∧ s.consumed = []

/-! ### What holds in every state -/

/-- The executor is past its input loop. -/
def Pc.closing : Pc O → Bool
  | .finalizing _ _ | .finalSend _ _ | .last | .left (some .finished) => true
  | _ => false

/-- **Nothing is lost and nothing duplicated**: what was emitted is pushed, in order and once, or
waits in the output buffer; what was popped is consumed or held for the calculation; the input loop
is left for good with an empty input buffer, and the executor with an empty output buffer. -/
structure Preserved (s : State σ I O) : Prop where
  sent : s.emitted = s.pushed ++ s.obuff.toList
  received : s.popped = s.consumed ++ s.held.toList
  buffered : s.held.isSome = s.ibuff.isSome
  drained : s.pc.closing = true → s.ibuff = none
  finished : s.pc = .left (some .finished) → s.obuff = none

/-- **The condition on a step**: `finalize` emits when the output buffer is empty, and the input
queue is found finished when the input buffer is empty. -/
def Meets (s : State σ I O) : Actor → Prop
  | .others => True
  | .executor =>
    match s.pc with
    | .finalizing (_ :: _) _ => s.obuff = none
    | .finalizing [] (some _) => s.obuff = none
    | .head _ => s.isFinished = true → s.ibuff = none
    | _ => True

/-! ### One step -/

/-- Where the output buffer is empty. -/
def Pc.sent : Pc O → Bool
  | .head _ | .fetch _ _ | .fill _ | .filling _ _ _ | .left (some .finished) => true
  | _ => false

/-- **The invariant of a run** whose steps meet the condition. -/
structure Inv (s : State σ I O) : Prop where
  preserved : Preserved s
  empty : s.pc.sent = true → s.obuff = none

/-- A step that changes neither what was emitted nor what was received. -/
theorem Preserved.frame {s t : State σ I O} (h : Preserved s) (he : t.emitted = s.emitted)
    (hp : t.pushed ++ t.obuff.toList = s.pushed ++ s.obuff.toList) (h1 : t.popped = s.popped)
    (h2 : t.consumed = s.consumed) (h3 : t.held = s.held) (h4 : t.ibuff = s.ibuff)
    (hd : t.pc.closing = true → s.ibuff = none)
    (hf : t.pc = .left (some .finished) → t.obuff = none) : Preserved t := by
  refine ⟨?_, ?_, ?_, fun hc => h4 ▸ hd hc, hf⟩
  · rw [he, h.sent, hp]
  · rw [h1, h2, h3, h.received]
  · rw [h3, h4, h.buffered]

theorem Inv.goto {s : State σ I O} (h : Inv s) (pc : Pc O) (hc : pc.closing = true → s.ibuff = none)
    (hs : pc.sent = true → s.obuff = none) : Inv { s with pc := pc } :=
  ⟨h.preserved.frame rfl rfl rfl rfl rfl rfl hc fun he => hs ((congrArg Pc.sent he).trans rfl), hs⟩

theorem Inv.push {s : State σ I O} {o : O} (h : Inv s) (ho : s.obuff = some o) (pc : Pc O)
    (hc : pc.closing = true → s.ibuff = none) : Inv { s.push o with pc := pc } := by
  refine ⟨h.preserved.frame rfl ?_ rfl rfl rfl rfl hc fun _ => rfl, fun _ => rfl⟩
  simp [State.push, ho]

theorem Inv.emit {s : State σ I O} (h : Inv s) (o : O) (ho : s.obuff = none) (pc : Pc O)
    (hc : pc.closing = true → s.ibuff = none) (hs : pc.sent = false) :
    Inv { s.emit o with pc := pc } := by
  refine ⟨⟨?_, h.preserved.received, h.preserved.buffered, hc, ?_⟩, fun hp => ?_⟩
  · simp [State.emit, h.preserved.sent, ho]
  · rintro rfl
    cases hs
  · rw [hs] at hp; cases hp

theorem State.blockSend_cases {cfg : Config σ I O} {s t : State σ I O} {pc : Pc O}
    (ht : s.blockSend cfg pc = some t) :
    s.obuff = none ∧ t = { s with pc := pc } ∨
      ∃ o, s.obuff = some o ∧ t = { s.push o with pc := pc } := by
  unfold State.blockSend at ht
  split at ht
  · rename_i ho
    exact Or.inl ⟨ho, (Option.some.inj ht).symm⟩
  · rename_i o ho
    split_ifs at ht
    exact Or.inr ⟨o, ho, (Option.some.inj ht).symm⟩

theorem State.defaultSend_cases {cfg : Config σ I O} {s t : State σ I O} {pc starved : Pc O}
    (ht : s.defaultSend cfg pc starved = some t) :
    s.obuff = none ∧ t = { s with pc := pc } ∨
      (∃ o, s.obuff = some o ∧ t = { s.push o with pc := pc }) ∨ t = { s with pc := starved } := by
  unfold State.defaultSend at ht
  by_cases hs : cfg.async = .synchronous
  · rw [if_pos hs] at ht
    rcases State.blockSend_cases ht with h | h
    · exact Or.inl h
    · exact Or.inr (Or.inl h)
  · rw [if_neg hs] at ht
    split at ht
    · rename_i ho
      exact Or.inl ⟨ho, (Option.some.inj ht).symm⟩
    · rename_i o ho
      split_ifs at ht
      · exact Or.inr (Or.inr (Option.some.inj ht).symm)
      · exact Or.inr (Or.inl ⟨o, ho, (Option.some.inj ht).symm⟩)

theorem Inv.blockSend {cfg : Config σ I O} {s t : State σ I O} {pc : Pc O} (h : Inv s)
    (ht : s.blockSend cfg pc = some t) (hc : pc.closing = true → s.ibuff = none) : Inv t := by
  rcases State.blockSend_cases ht with ⟨ho, rfl⟩ | ⟨o, ho, rfl⟩
  · exact h.goto pc hc fun _ => ho
  · exact h.push ho pc hc

theorem Inv.defaultSend {cfg : Config σ I O} {s t : State σ I O} {pc starved : Pc O} (h : Inv s)
    (ht : s.defaultSend cfg pc starved = some t) (hc : pc.closing = true → s.ibuff = none)
    (hc' : starved.closing = true → s.ibuff = none) (hs : starved.sent = false) : Inv t := by
  rcases State.defaultSend_cases ht with ⟨ho, rfl⟩ | ⟨o, ho, rfl⟩ | rfl
  · exact h.goto pc hc fun _ => ho
  · exact h.push ho pc hc
  · exact h.goto starved hc' fun hp => by rw [hs] at hp; cases hp

/-- The calculation takes its input buffer. -/
theorem Inv.fill {s : State σ I O} {i : I} (h : Inv s) (hi : s.ibuff = some i) (ho : s.obuff = none)
    (f : Filled σ I O) (k : ℕ) :
    Inv { s with
      state := f.state
      ibuff := f.ibuff
      held := if f.ibuff.isNone then none else s.held
      consumed := if f.ibuff.isNone then s.consumed ++ s.held.toList else s.consumed
      pc := .filling k f.sent f.left } := by
  have hb := h.preserved.buffered
  rw [hi] at hb
  refine ⟨⟨h.preserved.sent, ?_, ?_, fun hc => (by cases hc), fun hf => (by cases hf)⟩, fun _ => ho⟩
  · cases f.ibuff <;> simp [h.preserved.received]
  · cases f.ibuff <;> simp [hb]

/-- An element is popped into the empty input buffer. -/
theorem Inv.pop {s : State σ I O} (h : Inv s) (hi : s.ibuff = none) (ho : s.obuff = none) (i : I)
    (rest : List I) (k tries : ℕ) :
    Inv { s with
      ibuff := some i
      input := rest
      held := some i
      popped := s.popped ++ [i]
      pc := .fetch k tries } := by
  have hh : s.held = none := by
    have := h.preserved.buffered
    rw [hi] at this
    simpa using this
  refine ⟨⟨h.preserved.sent, ?_, rfl, fun hc => (by cases hc), fun hf => (by cases hf)⟩, fun _ => ho⟩
  show s.popped ++ [i] = s.consumed ++ [i]
  rw [h.preserved.received, hh]
  simp

/-- **A step of the executor** that meets the condition keeps the invariant. -/
theorem exec_inv {cfg : Config σ I O} {s t : State σ I O} (h : Inv s) (hm : Meets s .executor)
    (ht : exec cfg s = some t) : Inv t := by
  have hib := h.preserved.drained
  have hob := h.empty
  unfold exec at ht
  unfold Meets at hm
  split at ht <;> rename_i hpc <;> rw [hpc] at hib hob hm
  case h_1 => cases ht
  case h_2 => exact h.defaultSend ht (fun hc => by cases hc) (fun hc => by cases hc) rfl
  case h_3 k =>
    split_ifs at ht with hfin <;> obtain rfl := Option.some.inj ht
    · exact h.goto _ (fun _ => hm hfin) (fun hs => by cases hs)
    · exact h.goto _ (fun hc => by cases hc) (fun _ => hob rfl)
  case h_4 k tries =>
    split at ht <;> obtain rfl := Option.some.inj ht
    · exact h.goto _ (fun hc => by cases hc) (fun _ => hob rfl)
    · exact h.pop ‹_› (hob rfl) _ _ _ _
    · exact h.goto _ (fun hc => by split_ifs at hc <;> cases hc) (fun _ => hob rfl)
  case h_5 k =>
    split at ht <;> obtain rfl := Option.some.inj ht
    · exact h.goto _ (fun hc => by split_ifs at hc <;> cases hc) (fun _ => hob rfl)
    · exact h.fill ‹_› (hob rfl) _ k
  case h_6 =>
    obtain rfl := Option.some.inj ht
    exact h.emit _ (hob rfl) _ (fun hc => by cases hc) rfl
  case h_7 =>
    obtain rfl := Option.some.inj ht
    exact h.emit _ (hob rfl) _ (fun hc => by cases hc) rfl
  case h_8 =>
    obtain rfl := Option.some.inj ht
    exact h.goto _ (fun hc => by cases hc) (fun hs => by cases hs)
  case h_9 => exact h.blockSend ht fun hc => by cases hc
  case h_10 => exact h.defaultSend ht (fun hc => by cases hc) (fun hc => by cases hc) rfl
  case h_11 =>
    obtain rfl := Option.some.inj ht
    exact h.emit _ hm _ (fun _ => hib rfl) rfl
  case h_12 =>
    obtain rfl := Option.some.inj ht
    exact h.emit _ hm _ (fun _ => hib rfl) rfl
  case h_13 =>
    obtain rfl := Option.some.inj ht
    exact h.goto _ (fun _ => hib rfl) (fun hs => by cases hs)
  case h_14 => exact h.defaultSend ht (fun _ => hib rfl) (fun _ => hib rfl) rfl
  case h_15 => exact h.blockSend ht fun _ => hib rfl

/-- The others keep the invariant: they touch neither the buffers nor the history. -/
theorem env_inv {cfg : Config σ I O} {s t : State σ I O} (h : Inv s) (ht : Env cfg s t) : Inv t := by
  obtain ⟨⟨h1, h2, h3, h4, h5⟩, h6⟩ := h
  cases ht with
  | enter status hs hf =>
    exact ⟨⟨h1, h2, h3, fun hc => (by cases hc), fun hc => (by cases hc)⟩, fun hc => (by cases hc)⟩
  | produce i hp => exact ⟨⟨h1, h2, h3, h4, h5⟩, h6⟩
  | unregister hp => exact ⟨⟨h1, h2, h3, h4, h5⟩, h6⟩
  | take i rest hi => exact ⟨⟨h1, h2, h3, h4, h5⟩, h6⟩
  | drain o rest ho => exact ⟨⟨h1, h2, h3, h4, h5⟩, h6⟩
  | give o hf => exact ⟨⟨h1, h2, h3, h4, h5⟩, h6⟩

theorem initial_inv {s : State σ I O} (h : Initial s) : Inv s := by
  obtain ⟨hpc, h1, h2, h3, h4, h5, h6, h7⟩ := h
  refine ⟨⟨?_, ?_, ?_, fun _ => h2, fun _ => h1⟩, fun _ => h1⟩
  · simp [h1, h4, h5]
  · simp [h3, h6, h7]
  · simp [h2, h3]

/-- An emission over a full output buffer loses what is in it. -/
theorem emit_breaks {s : State σ I O} (h : Inv s) {o : O} (ho : s.obuff ≠ none) (pc : Pc O) :
    ¬ Preserved { s.emit o with pc := pc } := by
  intro hp
  obtain ⟨o', ho'⟩ := Option.ne_none_iff_exists'.mp ho
  have h1 := congrArg List.length hp.sent
  have h2 := congrArg List.length h.preserved.sent
  simp only [State.emit, List.length_append, List.length_singleton, Option.toList_some, ho'] at h1 h2
  omega

/-- **A step that does not meet the condition** loses an element. -/
theorem exec_breaks {cfg : Config σ I O} {s t : State σ I O} (h : Inv s)
    (hm : ¬ Meets s .executor) (ht : exec cfg s = some t) : ¬ Preserved t := by
  unfold exec at ht
  unfold Meets at hm
  split at ht <;> rename_i hpc <;> rw [hpc] at hm
  case h_3 k =>
    obtain ⟨hfin, hi⟩ := Classical.not_imp.mp hm
    rw [if_pos hfin] at ht
    obtain rfl := Option.some.inj ht
    exact fun hp => hi (hp.drained rfl)
  case h_11 =>
    obtain rfl := Option.some.inj ht
    exact emit_breaks h hm _
  case h_12 =>
    obtain rfl := Option.some.inj ht
    exact emit_breaks h hm _
  all_goals exact absurd trivial hm

/-! ### Runs -/

/-- Once the executor has reported `FINISHED`, all that was emitted is pushed and all that was popped
is consumed. -/
theorem Preserved.of_finished {s : State σ I O} (h : Preserved s)
    (hf : s.pc = .left (some .finished)) : s.emitted = s.pushed ∧ s.popped = s.consumed := by
  have hh : s.held = none := by
    have := h.buffered
    rw [h.drained (by rw [hf]; rfl)] at this
    simpa using this
  constructor
  · rw [h.sent, h.finished hf]; simp
  · rw [h.received, hh]; simp

theorem run_exec {cfg : Config σ I O} {past : List (State σ I O × Actor)} {s t : State σ I O}
    (h : Run Initial (Step cfg) past s) (ht : exec cfg s = some t) :
    Run Initial (Step cfg) ((s, .executor) :: past) t := h.step ht

theorem run_enter (cfg : Config σ I O) {past : List (State σ I O × Actor)} {s : State σ I O}
    (status : Option TaskStatus) (h : Run Initial (Step cfg) past s) (hs : s.pc = .left status)
    (hf : status ≠ some .finished) :
    Run Initial (Step cfg) ((s, .others) :: past) { s with pc := .entered } :=
  h.step (Env.enter s status hs hf)

/-- **The executor loses and duplicates nothing, in every state of a run, exactly if every step of
the run meets the condition.** -/
theorem preserved_iff {cfg : Config σ I O} {past : List (State σ I O × Actor)} {s : State σ I O}
    (h : Run Initial (Step cfg) past s) :
    (Preserved s ∧ ∀ p ∈ past, Preserved p.1) ↔ ∀ p ∈ past, Meets p.1 p.2 := by
  refine h.holds_iff Inv (fun s => initial_inv) ?_ (fun s hs => hs.preserved) ?_
  · intro a s t hs hm hst
    cases a with
    | executor => exact exec_inv hs hm hst
    | others => exact env_inv hs hst
  · intro a s t hs hm hst
    cases a with
    | executor => exact exec_breaks hs hm hst
    | others => exact absurd trivial hm

/-! ### A run from start to end -/

/-- A line of a script: a step of the executor, or one of the others. -/
inductive Move where
  | run | enter | unregister | drain

def move (cfg : Config σ I O) (s : State σ I O) : Move → Option (Actor × State σ I O)
  | .run => (exec cfg s).map (Prod.mk .executor)
  | .enter =>
    match s.pc with
    | .left none | .left (some .starved) => some (.others, { s with pc := .entered })
    | _ => none
  | .unregister =>
    if 0 < s.producers then some (.others, { s with producers := s.producers - 1 }) else none
  | .drain =>
    match s.output with
    | _ :: rest => some (.others, { s with output := rest })
    | [] => none

theorem step_of_move {cfg : Config σ I O} {s : State σ I O} {m : Move} {r : Actor × State σ I O}
    (h : move cfg s m = some r) : Step cfg r.1 s r.2 := by
  cases m with
  | run =>
    obtain ⟨t, ht, rfl⟩ := Option.map_eq_some_iff.mp h
    exact ht
  | enter =>
    dsimp only [move] at h
    split at h
    · obtain rfl := Option.some.inj h
      exact .enter s none ‹_› (by decide)
    · obtain rfl := Option.some.inj h
      exact .enter s (some .starved) ‹_› (by decide)
    · cases h
  | unregister =>
    dsimp only [move] at h
    split_ifs at h with hp
    obtain rfl := Option.some.inj h
    exact .unregister s hp
  | drain =>
    dsimp only [move] at h
    split at h
    · obtain rfl := Option.some.inj h
      exact .drain s _ _ ‹_›
    · cases h

/-- A task that passes on its numbers and, in the end, their sum. -/
def summing : Config ℕ ℕ ℕ :=
  ⟨⟨fun s i => ⟨s + i, none, [], some i⟩, fun s => ([], some s)⟩, .multiThreaded, 1⟩

/-- The task takes a 3 while the output queue is full, leaves with `STARVED`, is entered again when its
input queue has finished, and pushes the 3 and the sum. -/
def summed : Option (List (State ℕ ℕ ℕ × Actor) × State ℕ ℕ ℕ) :=
  drive (move summing)
    ([.enter] ++ List.replicate 7 .run ++ [.unregister, .drain, .enter] ++ List.replicate 3 .run ++
      [.drain, .run])
    [] ⟨0, none, none, .left none, [3], 1, [0], none, [], [], [], []⟩

theorem isSome_summed : summed.isSome = true := rfl

theorem run_summed : Run Initial (Step summing) (summed.get isSome_summed).1 (summed.get isSome_summed).2 :=
  (Run.start ⟨rfl, rfl, rfl, rfl, rfl, rfl, rfl, rfl⟩).drive (fun _ _ _ => step_of_move)
    (@Option.some_get _ summed isSome_summed).symm

theorem meets_summed : ∀ p ∈ (summed.get isSome_summed).1, Meets p.1 p.2 := by
  repeat refine List.forall_mem_cons.mpr ⟨by first | exact trivial | exact fun _ => rfl | exact rfl, ?_⟩
  exact fun p hp => by cases hp

theorem preserved_iff_summed : Preserved (summed.get isSome_summed).2 ∧
    (summed.get isSome_summed).2.emitted = [3, 3] ∧ (summed.get isSome_summed).2.pushed = [3, 3] ∧
      (summed.get isSome_summed).2.popped = [3] ∧ (summed.get isSome_summed).2.consumed = [3] :=
  ⟨((preserved_iff run_summed).mpr meets_summed).1, rfl, rfl, rfl, rfl⟩

/-! ### A full output queue -/

/-- A task with two aggregations and an output queue of one element. -/
def twoAggregations : Config Unit ℕ ℕ :=
  ⟨⟨fun _ _ => ⟨(), none, [], none⟩, fun _ => ([10, 20], none)⟩, .multiThreaded, 1⟩

/-- The task before it is first entered; the input queue is finished and the output queue holds
`output`. -/
def notEntered (output : List ℕ) : State Unit ℕ ℕ :=
  ⟨(), none, none, .left none, [], 0, output, none, [], [], [], []⟩

theorem notEntered_initial (output : List ℕ) : Initial (notEntered output) :=
  ⟨rfl, rfl, rfl, rfl, rfl, rfl, rfl, rfl⟩

/-- The run of the task up to `finalize`. -/
theorem run_finalizing (output : List ℕ) : ∃ past, Run Initial (Step twoAggregations) past
    { notEntered output with pc := .finalizing [10, 20] none } := by
  have h1 := run_enter twoAggregations none (.start (notEntered_initial output)) rfl (by decide)
  have h2 := run_exec (t := { notEntered output with pc := .head 0 }) h1 rfl
  exact ⟨_, run_exec (t := { notEntered output with pc := .finalizing [10, 20] none }) h2 rfl⟩

/-- The output queue is full while `finalize` emits twice: the first element is lost. -/
theorem full_queue_not_preserved : ¬ ∀ past s, Run Initial (Step twoAggregations) past s →
    Preserved s ∧ ∀ p ∈ past, Preserved p.1 := by
  intro hall
  obtain ⟨past, hr⟩ := run_finalizing [0]
  have h4 := run_exec (t := { notEntered [0] with
    obuff := some 10, emitted := [10], pc := .finalSend [20] none }) hr rfl
  have h5 := run_exec (t := { notEntered [0] with
    obuff := some 10, emitted := [10], pc := .finalizing [20] none }) h4 rfl
  have h6 := run_exec (t := { notEntered [0] with
    obuff := some 20, emitted := [10, 20], pc := .finalSend [] none }) h5 rfl
  have hsent := (hall _ _ h6).1.sent
  simp [notEntered] at hsent

end Joda.Pipeline.Executor
