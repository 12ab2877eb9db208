import Joda.Lib.Lookup
import Joda.Scheduling.TaskGraph
import Mathlib.Logic.Relation

/-! # Optimising a pipeline

`Pipeline::optimize` lets the rules find a run of tasks and puts the replacement of the rule in its
place, until no rule finds one. The first new task takes the number and the queue of the first old one,
and the connection of the last old task is given to the last new one.

With one new task for a run this contracts the connections (`Contracted`), as long as what enters the
run enters it at its first task and what leaves it goes where the last one's connection goes; a rule
looks at the connections into the second task only. -/

namespace Joda.Scheduling.Optimization

open Joda.Pipeline.Task Joda.Scheduling.TaskGraph Joda.Lib.Lookup
open Pipeline PipelineTask

/-! ### The types of the queues -/

/-- What `setInputQueue` and `setOutputQueue` cast: a queue has the input type of its task. -/
class QueueTypes (ν : Type) extends TaskKinds ν where
  /-- The queue of the second task is of the input type of the first. -/
  castInput : ν → ν → Bool
  /-- The queue of the second task is of the output type of the first. -/
  castOutput : ν → ν → Bool

/-- The elements of the queues. -/
inductive Element where
  | path | stream | strings | container | filteredContainer | aggregator | texts | joinPath
  deriving DecidableEq, Repr

namespace Element

open TaskId

def input : TaskName → Option Element
  | .planned t =>
    match t with
    | lsFileOpener => some path
    | unformattedFileOpener => some path
    | lsStreamReader => some stream
    | defaultTextParser => some strings
    | pathJaccardSimilarityTextParser => some strings
    | attributeJaccardSimilarityTextParser => some strings
    | defaultStreamParser => some stream
    | pathJaccardSimilarityStreamParser => some stream
    | attributeJaccardSimilarityStreamParser => some stream
    | asPipeline => some filteredContainer
    | filterAggPipeline => some filteredContainer
    | aggMerger => some aggregator
    | writeFile => some texts
    | writeFiles => some texts
    | writeOutStream => some texts
    | loadJoinFileParser => some joinPath
    | t => if TaskKinds.hasInput (TaskName.planned t) then some container else none
  | .lsFileMapper => some path
  | _ => some container

def output : TaskName → Option Element
  | .planned t =>
    match t with
    | lsListFile => some path
    | listFile => some path
    | lsListDir => some path
    | listDir => some path
    | lsFileOpener => some stream
    | unformattedFileOpener => some stream
    | inStream => some stream
    | urlStream => some stream
    | lsStreamReader => some strings
    | choosePipeline => some filteredContainer
    | aggPipeline => some aggregator
    | filterAggPipeline => some aggregator
    | jsonStringifier => some texts
    | loadJoinFiles => some joinPath
    | t => if TaskKinds.hasOutput (TaskName.planned t) then some container else none
  | .lsFileMapper => some strings
  | .chooseAggPipeline => some aggregator
  | .chooseAsAggPipeline => some aggregator
  | _ => some container

end Element

instance : QueueTypes TaskName where
  castInput a b := (Element.input a).isSome && Element.input a == Element.input b
  castOutput a b := (Element.output a).isSome && Element.output a == Element.input b

/-! ### Rules -/

variable {ν : Type} [DecidableEq ν]

/-- **A rule.** `validate` and `replacement` see the tasks of the run; the tasks of a replacement are
told by their names. -/
structure OptimizationRule (ν : Type) where
  toOptimize : List ν
  validate : List (PipelineTask ν) → Bool
  replacement : List (PipelineTask ν) → List ν
  /-- The replacement is shorter than the run, and not empty. -/
  shorter : ∀ range, range.map (·.name) = toOptimize →
    replacement range ≠ [] ∧ (replacement range).length < toOptimize.length

/-- Whether a connection leads to the task from a task that is not in the set. -/
def outside (connections : List (ℕ × ℕ)) (task_ids : List ℕ) (task_num : ℕ) : Bool :=
  connections.any fun c => c.2 == task_num && !task_ids.contains c.1

/-- The loop over `toOptimize`. `task_it` goes on after the first task only: the `continue` leaves it
at the second one. -/
def outsideConnections (connections : List (ℕ × ℕ)) : ℕ → List (PipelineTask ν) → List ℕ → Bool
  | n + 1, t :: ts, ids =>
    if 1 < (ids.insert t.num).length then
      if outside connections (ids.insert t.num) t.num then true
      else outsideConnections connections n (t :: ts) (ids.insert t.num)
    else outsideConnections connections n ts (ids.insert t.num)
  | _, _, _ => false

namespace OptimizationRule

/-- **`findOptimizationTarget`**: the place of the first run that is found. -/
def findOptimizationTarget (rule : OptimizationRule ν) (connections : List (ℕ × ℕ)) :
    List (PipelineTask ν) → ℕ → Option ℕ
  | [], _ => none
  | t :: ts, place =>
    let range := (t :: ts).take rule.toOptimize.length
    if range.map (·.name) = rule.toOptimize ∧
        outsideConnections connections rule.toOptimize.length (t :: ts) [] = false ∧
        rule.validate range = true then some place
    else findOptimizationTarget rule connections ts (place + 1)

end OptimizationRule

/-- A run of tasks and the names of those that replace it. -/
structure Replacement (ν : Type) where
  start : ℕ
  length : ℕ
  replacementTasks : List ν

def range (p : Pipeline ν) (a : Replacement ν) : List (PipelineTask ν) :=
  (p.tasks.drop a.start).take a.length

/-- **`OptimizationRule::optimize`** -/
def OptimizationRule.optimize (rule : OptimizationRule ν) (p : Pipeline ν) : Option (Replacement ν) :=
  (rule.findOptimizationTarget p.connections p.tasks 0).map fun start =>
    ⟨start, rule.toOptimize.length,
      rule.replacement ((p.tasks.drop start).take rule.toOptimize.length)⟩

/-- The first rule that finds a run. -/
def nextReplacement (rules : List (OptimizationRule ν)) (p : Pipeline ν) : Option (Replacement ν) :=
  rules.findSome? fun rule => rule.optimize p

/-! ### `Pipeline::optimize` -/

variable [QueueTypes ν]

/-- The new tasks are added one after the other; the number of the last one is returned. -/
def addAll (p : Pipeline ν) (place lastNum : ℕ) : List (PipelineTask ν) → Pipeline ν × ℕ
  | [] => (p, lastNum)
  | t :: ts => addAll (p.addTaskAt t place) (place + 1) (if t.num = 0 then p.currNum + 1 else t.num) ts

/-- The queue that the last new task writes to: the one of the task the connection leads to. -/
def outputQueue (p : Pipeline ν) (r : ν) (num : ℕ) : Option ℕ := do
  let u ← p.tasks.find? fun u => u.num = num
  if QueueTypes.castOutput r u.name then (p.queues.lookup num).join else none

/-- The first connection of a task gets another first number. -/
def rename (old new : ℕ) : List (ℕ × ℕ) → List (ℕ × ℕ)
  | [] => []
  | c :: cs => if c.1 = old then (new, c.2) :: cs else c :: rename old new cs

/-- The new tasks, with what the first and the last one take over. -/
def prepared (p : Pipeline ν) (first : PipelineTask ν) (con : Option (ℕ × ℕ)) :
    List ν → List (PipelineTask ν)
  | [] => []
  | r :: rs =>
    let head : PipelineTask ν := { fresh r with
      num := first.num
      inputQ := if QueueTypes.castInput r first.name then (p.queues.lookup first.num).join else none }
    (head :: rs.map fresh).modify rs.length fun t =>
      { t with outputQ := con.bind fun c => outputQueue p t.name c.2 }

/-- **One replacement**, `none` where the behaviour is undefined: the iterator to the connection of the
last task is used after `emplace_back`. -/
def replace (p : Pipeline ν) (a : Replacement ν) : Option (Pipeline ν) := do
  let first ← (range p a).head?
  let last ← (range p a).getLast?
  let con := p.connections.find? fun c => c.1 = last.num
  let removedNums := (range p a).map (·.num)
  let rest : Pipeline ν := { p with
    tasks := p.tasks.take a.start ++ p.tasks.drop (a.start + a.length)
    queues := p.queues.filter fun e => !removedNums.tail.contains e.1 }
  let added := addAll rest a.start 0 (prepared p first con a.replacementTasks)
  if added.1.connections.length = p.connections.length then
    some { added.1 with
      connections := (rename last.num added.2 added.1.connections).filter fun c =>
        !(removedNums.contains c.1 && removedNums.contains c.2) }
  else none

/-- How the loop ends. -/
inductive Outcome (ν : Type) where
  | finished (p : Pipeline ν)
  | undefined
  | outOfFuel

/-- **`Pipeline::optimize`** -/
def optimize (rules : List (OptimizationRule ν)) : ℕ → Pipeline ν → Outcome ν
  | 0, _ => .outOfFuel
  | fuel + 1, p =>
    match nextReplacement rules p with
    | none => .finished p
    | some a =>
      match replace p a with
      | none => .undefined
      | some p' => optimize rules fuel p'

/-! ### Runs of the loop -/

/-- What stands for a number after a replacement: the members of the run and the new tasks are one. -/
def standAfter (stand : ℕ → ℕ) (p p' : Pipeline ν) (a : Replacement ν) (x : ℕ) : ℕ :=
  let nums := (range p a).map fun t => stand t.num
  if stand x ∈ nums ∨ (x ∈ p'.tasks.map (·.num) ∧ x ∉ p.tasks.map (·.num)) then nums.headD 0
  else stand x

/-- **A run of the loop**, with what stands for each number and the numbers of the tasks that were
replaced. -/
inductive Reached (rules : List (OptimizationRule ν)) (p₀ : Pipeline ν) :
    (ℕ → ℕ) → List ℕ → Pipeline ν → Prop
  | start : Reached rules p₀ id [] p₀
  | step {stand : ℕ → ℕ} {removed : List ℕ} {p p' : Pipeline ν} {a : Replacement ν} :
      Reached rules p₀ stand removed p → nextReplacement rules p = some a → replace p a = some p' →
      Reached rules p₀ (standAfter stand p p' a) ((range p a).map (·.num) ++ removed) p'

/-- A connection of the first pipeline, the tasks of a run taken as one. -/
def Contracted (p₀ : Pipeline ν) (stand : ℕ → ℕ) (x y : ℕ) : Prop :=
  x ≠ y ∧ ∃ a b, (a, b) ∈ p₀.connections ∧ stand a = x ∧ stand b = y

/-- **What is kept**: both ends of a connection are there, a task outside the runs is there once, data
flows between such tasks as before, and a task writes to the queue that its successor reads. -/
structure Kept (p₀ : Pipeline ν) (stand : ℕ → ℕ) (removed : List ℕ) (p : Pipeline ν) : Prop where
  present : ∀ c ∈ p.connections, c.1 ∈ p.tasks.map (·.num) ∧ c.2 ∈ p.tasks.map (·.num)
  once : ∀ t ∈ p₀.tasks, t.num ∉ removed →
    (p.tasks.filter fun u => u.num = t.num).map (·.name) = [t.name]
  flows : ∀ a ∈ p₀.tasks, ∀ b ∈ p₀.tasks, a.num ∉ removed → b.num ∉ removed →
    (Relation.TransGen (Contracted p₀ stand) a.num b.num ↔
      Relation.TransGen (fun x y => (x, y) ∈ p.connections) a.num b.num)
  queue : ∀ c ∈ p.connections, ∀ t ∈ p.tasks, ∀ u ∈ p.tasks, t.num = c.1 → u.num = c.2 →
    ∃ q, t.outputQ = some q ∧ u.inputQ = some q

/-- The condition on a run and its replacement. -/
structure CleanRun (p : Pipeline ν) (before run : List (PipelineTask ν)) (first last : PipelineTask ν)
    (r : ν) : Prop where
  /-- What enters the run enters it at the first task. -/
  entered : ∀ c ∈ p.connections, c.1 ∉ run.map (·.num) → c.2 ∈ run.map (·.num) → c.2 = first.num
  /-- What leaves the run, once the connection of the last task is given to the new one, leaves it at
  the first task and goes where the last one's connection goes. -/
  left : ∀ c ∈ rename last.num first.num p.connections, c.1 ∈ run.map (·.num) →
    c.2 ∉ run.map (·.num) → c.1 = first.num ∧ (last.num, c.2) ∈ p.connections
  /-- No task before the run would supply the new one. -/
  alone : (p.queues.lookup first.num).join.isSome → ∀ t ∈ before, supplies r t = false
  /-- The new task reads the queue of the first task, if there is a connection to it. -/
  reads : ∀ c ∈ p.connections, c.2 = first.num → QueueTypes.castInput r first.name = true
  /-- The new task writes to the queue that the last one's connection leads to. -/
  writes : ∀ c ∈ p.connections, c.1 = last.num → ∀ u ∈ p.tasks, u.num = c.2 →
    QueueTypes.castOutput r u.name = true

/-- **The replacement is a single task for a run that can be taken as one.** -/
def Clean (p : Pipeline ν) (a : Replacement ν) : Prop :=
  ∃ first last r, (range p a).head? = some first ∧ (range p a).getLast? = some last ∧
    a.replacementTasks = [r] ∧ CleanRun p (p.tasks.take a.start) (range p a) first last r

/-! ### What a rule finds -/

omit [QueueTypes ν] in
theorem findOptimizationTarget_spec (rule : OptimizationRule ν) (connections : List (ℕ × ℕ)) :
    ∀ {tasks : List (PipelineTask ν)} {place k : ℕ},
      rule.findOptimizationTarget connections tasks place = some k →
        place ≤ k ∧
          ((tasks.drop (k - place)).take rule.toOptimize.length).map (·.name) = rule.toOptimize
  | [], place, k, h => by cases h
  | t :: ts, place, k, h => by
    unfold OptimizationRule.findOptimizationTarget at h
    simp only at h
    split_ifs at h with hfound
    · obtain rfl := Option.some.inj h
      rw [Nat.sub_self, List.drop_zero]
      exact ⟨Nat.le_refl _, hfound.1⟩
    · obtain ⟨hle, hnames⟩ := findOptimizationTarget_spec rule connections h
      have hsub : k - place = k - (place + 1) + 1 := by omega
      rw [hsub, List.drop_succ_cons]
      exact ⟨by omega, hnames⟩

/-- A run is there, and its replacement is shorter and not empty. -/
structure Found (p : Pipeline ν) (a : Replacement ν) : Prop where
  length : (range p a).length = a.length
  shorter : a.replacementTasks.length < a.length
  nonempty : a.replacementTasks ≠ []

omit [QueueTypes ν] in
theorem found_optimize {rule : OptimizationRule ν} {p : Pipeline ν} {a : Replacement ν}
    (h : rule.optimize p = some a) : Found p a := by
  unfold OptimizationRule.optimize at h
  obtain ⟨start, hstart, rfl⟩ := Option.map_eq_some_iff.mp h
  obtain ⟨-, hnames⟩ := findOptimizationTarget_spec rule p.connections hstart
  rw [Nat.sub_zero] at hnames
  obtain ⟨hne, hlt⟩ := rule.shorter _ hnames
  refine ⟨?_, hlt, hne⟩
  have hlen := congrArg List.length hnames
  rw [List.length_map] at hlen
  exact hlen

omit [QueueTypes ν] in
theorem found_next {rules : List (OptimizationRule ν)} {p : Pipeline ν} {a : Replacement ν}
    (h : nextReplacement rules p = some a) : Found p a := by
  obtain ⟨rule, -, hrule⟩ := List.exists_of_findSome?_eq_some h
  exact found_optimize hrule

omit [QueueTypes ν] [DecidableEq ν] in
theorem tasks_eq (p : Pipeline ν) (a : Replacement ν) :
    p.tasks = p.tasks.take a.start ++ (range p a ++ p.tasks.drop (a.start + a.length)) := by
  unfold range
  rw [← List.drop_drop, List.take_append_drop, List.take_append_drop]

/-! ### The loop ends -/

omit [DecidableEq ν] in
theorem length_addTaskAt (p : Pipeline ν) (t : PipelineTask ν) (place : ℕ) :
    (p.addTaskAt t place).tasks.length = p.tasks.length + 1 := by
  unfold addTaskAt
  simp only
  split
  · simp only [List.length_append, List.length_map, List.length_cons, List.length_take,
      List.length_drop]
    omega
  · simp only [List.length_append, List.length_cons, List.length_take, List.length_drop]
    omega

omit [DecidableEq ν] in
theorem length_addAll : ∀ (ts : List (PipelineTask ν)) (p : Pipeline ν) (place lastNum : ℕ),
    (addAll p place lastNum ts).1.tasks.length = p.tasks.length + ts.length
  | [], p, _, _ => rfl
  | t :: ts, p, place, lastNum => by
    unfold addAll
    rw [length_addAll ts, length_addTaskAt, List.length_cons]
    omega

omit [DecidableEq ν] in
theorem length_prepared (p : Pipeline ν) (first : PipelineTask ν) (con : Option (ℕ × ℕ))
    (names : List ν) : (prepared p first con names).length = names.length := by
  cases names with
  | nil => rfl
  | cons r rs =>
    unfold prepared
    simp

omit [DecidableEq ν] in
/-- **A replacement leaves fewer tasks.** -/
theorem length_replace {p p' : Pipeline ν} {a : Replacement ν} (ha : Found p a)
    (h : replace p a = some p') : p'.tasks.length < p.tasks.length := by
  unfold replace at h
  obtain ⟨first, -, h⟩ := Option.bind_eq_some_iff.mp h
  obtain ⟨last, -, h⟩ := Option.bind_eq_some_iff.mp h
  simp only at h
  split_ifs at h
  obtain rfl := Option.some.inj h
  simp only
  rw [length_addAll, length_prepared]
  have hlen := congrArg List.length (tasks_eq p a)
  rw [List.length_append, List.length_append, ha.length] at hlen
  rw [List.length_append]
  have hshort := ha.shorter
  omega

/-- **`optimize` terminates**: there are no more rounds than tasks. -/
theorem optimize_terminates (rules : List (OptimizationRule ν)) : ∀ (fuel : ℕ) (p : Pipeline ν),
    p.tasks.length < fuel → optimize rules fuel p ≠ .outOfFuel
  | 0, _, h => by omega
  | fuel + 1, p, h => by
    unfold optimize
    cases hnext : nextReplacement rules p with
    | none => simp
    | some a =>
      simp only
      cases hrep : replace p a with
      | none => simp
      | some p' =>
        have hlt := length_replace (found_next hnext) hrep
        exact optimize_terminates rules fuel p' (by omega)

/-! ### One replacement -/

section OneReplacement

omit [DecidableEq ν]

/-- **What holds of the pipeline**: numbers are used once, and the two ends of a connection are there
and share a queue. -/
structure Sound (p : Pipeline ν) : Prop where
  nodup : (p.tasks.map (·.num)).Nodup
  range : ∀ t ∈ p.tasks, 1 ≤ t.num ∧ t.num ≤ p.currNum
  entry : ∀ t ∈ p.tasks, (p.queues.lookup t.num).isSome
  keys : ∀ k, (p.queues.lookup k).isSome → k ≤ p.currNum
  ends : ∀ c ∈ p.connections, ∃ t ∈ p.tasks, ∃ u ∈ p.tasks, t.num = c.1 ∧ u.num = c.2 ∧
    ∃ q, t.outputQ = some q ∧ u.inputQ = some q ∧ (p.queues.lookup c.2).join = some q
  one : ∀ a b c, (a, b) ∈ p.connections → (a, c) ∈ p.connections → b = c
  irrefl : ∀ a, (a, a) ∉ p.connections

omit [QueueTypes ν] in
theorem Sound.eq_of_num {p : Pipeline ν} (h : Sound p) {t u : PipelineTask ν} (ht : t ∈ p.tasks)
    (hu : u ∈ p.tasks) (hnum : t.num = u.num) : t = u :=
  List.inj_on_of_nodup_map h.nodup ht hu hnum

theorem mem_rename_of {old new : ℕ} {c : ℕ × ℕ} : ∀ {cs : List (ℕ × ℕ)}, c ∈ rename old new cs →
    c ∈ cs ∨ (c.1 = new ∧ (old, c.2) ∈ cs)
  | [], h => by cases h
  | d :: cs, h => by
    unfold rename at h
    split_ifs at h with hd
    · rcases List.mem_cons.mp h with rfl | h
      · refine Or.inr ⟨rfl, ?_⟩
        rw [← hd]
        exact List.mem_cons_self
      · exact Or.inl (List.mem_cons_of_mem _ h)
    · rcases List.mem_cons.mp h with rfl | h
      · exact Or.inl List.mem_cons_self
      · rcases mem_rename_of h with h | ⟨hnew, h⟩
        · exact Or.inl (List.mem_cons_of_mem _ h)
        · exact Or.inr ⟨hnew, List.mem_cons_of_mem _ h⟩

theorem mem_rename_of_ne {old new : ℕ} {c : ℕ × ℕ} (hc : c.1 ≠ old) : ∀ {cs : List (ℕ × ℕ)}, c ∈ cs →
    c ∈ rename old new cs
  | d :: cs, h => by
    unfold rename
    rcases List.mem_cons.mp h with rfl | h
    · rw [if_neg hc]
      exact List.mem_cons_self
    · split_ifs
      · exact List.mem_cons_of_mem _ h
      · exact List.mem_cons_of_mem _ (mem_rename_of_ne hc h)

/-- A connection of the old task, if it has one, is there under the new number. -/
theorem mem_rename_new {old new x : ℕ} : ∀ {cs : List (ℕ × ℕ)}, (old, x) ∈ cs →
    (∀ y, (old, y) ∈ cs → y = x) → (new, x) ∈ rename old new cs
  | d :: cs, h, hone => by
    unfold rename
    by_cases hd : d.1 = old
    · rw [if_pos hd]
      have hx : d.2 = x := hone d.2 (by rw [← hd]; exact List.mem_cons_self)
      rw [hx]
      exact List.mem_cons_self
    · rw [if_neg hd]
      rcases List.mem_cons.mp h with rfl | h
      · exact absurd rfl hd
      · exact List.mem_cons_of_mem _
          (mem_rename_new h fun y hy => hone y (List.mem_cons_of_mem _ hy))

theorem lookup_emplace_of_isSome {queues : List (ℕ × Option ℕ)} {num : ℕ}
    (h : (queues.lookup num).isSome) (q : Option ℕ) : emplace queues num q = queues := by
  unfold emplace
  rw [if_pos h]

/-- A task with a number, before which nothing supplies it, is put in its place. -/
theorem addTaskAt_alone {p : Pipeline ν} {t : PipelineTask ν} {place : ℕ} (hnum : t.num ≠ 0)
    (hentry : (p.queues.lookup t.num).isSome)
    (halone : (p.queues.lookup t.num).join.isSome → ∀ u ∈ p.tasks.take place, supplies t.name u = false) :
    ∃ new created, p.addTaskAt t place =
      ⟨p.tasks.take place ++ new :: p.tasks.drop place, p.currNum, p.queues, p.connections, created⟩ ∧
      new.name = t.name ∧ new.num = t.num ∧ new.outputQ = t.outputQ ∧
        ∀ q, t.inputQ = some q → new.inputQ = some q := by
  have hinput : ∀ q, t.inputQ = some q →
      (if !t.inputConnected then some p.created else t.inputQ) = some q := by
    intro q hq
    unfold inputConnected
    rw [hq]
    simp
  unfold addTaskAt
  simp only [hnum, if_false]
  have hqueues : emplace (if !t.inputConnected then emplace p.queues t.num (some p.created)
      else p.queues) t.num none = p.queues := by
    split_ifs
    · rw [lookup_emplace_of_isSome hentry, lookup_emplace_of_isSome hentry]
    · rw [lookup_emplace_of_isSome hentry]
  rw [hqueues]
  split
  · next q hq =>
    have hnone : ∀ u ∈ p.tasks.take place, supplies t.name u = false := halone (by rw [hq]; rfl)
    have hmap : (p.tasks.take place).map (supply t.name q) = p.tasks.take place := by
      conv_rhs => rw [← List.map_id (p.tasks.take place)]
      refine List.map_congr_left fun u hu => ?_
      unfold supply
      rw [hnone u hu]
      rfl
    have hfilter : (p.tasks.take place).filter (supplies t.name) = [] := by
      refine List.filter_eq_nil_iff.mpr fun u hu => ?_
      rw [hnone u hu]
      exact Bool.false_ne_true
    rw [hmap, hfilter, List.map_nil, List.append_nil]
    exact ⟨_, _, rfl, rfl, rfl, rfl, hinput⟩
  · exact ⟨_, _, rfl, rfl, rfl, rfl, hinput⟩

/-- The numbers of a run. -/
abbrev nums (run : List (PipelineTask ν)) : List ℕ := run.map (·.num)

/-- What a clean replacement does. -/
structure Replaced (p p' : Pipeline ν) (a : Replacement ν) (first last new : PipelineTask ν) : Prop where
  tasks : p'.tasks = p.tasks.take a.start ++ new :: p.tasks.drop (a.start + a.length)
  currNum : p'.currNum = p.currNum
  num : new.num = first.num
  inputQ : ∀ q, QueueTypes.castInput new.name first.name = true →
    (p.queues.lookup first.num).join = some q → new.inputQ = some q
  outputQ : ∀ c ∈ p.connections, c.1 = last.num → new.outputQ = outputQueue p new.name c.2
  queues : ∀ k, p'.queues.lookup k =
    if (nums (range p a)).tail.contains k then none else p.queues.lookup k
  connections : ∀ c, c ∈ p'.connections ↔ c ∈ rename last.num first.num p.connections ∧
    ¬ (c.1 ∈ nums (range p a) ∧ c.2 ∈ nums (range p a))

omit [QueueTypes ν] in
theorem Sound.nodup_range {p : Pipeline ν} (hs : Sound p) (a : Replacement ν) :
    (nums (Optimization.range p a)).Nodup := by
  have h := hs.nodup
  rw [tasks_eq p a, List.map_append, List.map_append] at h
  exact (List.nodup_append.mp (List.nodup_append.mp h).2.1).1

omit [QueueTypes ν] in
theorem Sound.first_not_tail {p : Pipeline ν} (hs : Sound p) {a : Replacement ν} {first : PipelineTask ν}
    (hfirst : (Optimization.range p a).head? = some first) :
    (nums (Optimization.range p a)).tail.contains first.num = false := by
  have hnd := hs.nodup_range a
  obtain ⟨others, hrange⟩ := List.head?_eq_some_iff.mp hfirst
  rw [hrange] at hnd ⊢
  rw [List.contains_eq_mem, decide_eq_false_iff_not]
  exact (List.nodup_cons.mp hnd).1

omit [QueueTypes ν] in
theorem Sound.find_num {p : Pipeline ν} (hs : Sound p) {u : PipelineTask ν} (hu : u ∈ p.tasks) {k : ℕ}
    (hnum : u.num = k) : p.tasks.find? (fun t => t.num = k) = some u := by
  have hsome : (p.tasks.find? fun t => t.num = k).isSome :=
    List.find?_isSome.mpr ⟨u, hu, by simpa using hnum⟩
  obtain ⟨v, hv⟩ := Option.isSome_iff_exists.mp hsome
  have hvnum : v.num = k := by simpa using List.find?_some hv
  rw [hv, hs.eq_of_num (List.mem_of_find?_eq_some hv) hu (hvnum.trans hnum.symm)]

theorem replace_clean {p : Pipeline ν} (hs : Sound p) {a : Replacement ν}
    {first last : PipelineTask ν} {r : ν} (hfirst : (range p a).head? = some first)
    (hlast : (range p a).getLast? = some last) (hr : a.replacementTasks = [r])
    (hc : CleanRun p (p.tasks.take a.start) (range p a) first last r) :
    ∃ p' new, replace p a = some p' ∧ new.name = r ∧ Replaced p p' a first last new := by
  obtain ⟨others, hrange⟩ : ∃ others, range p a = first :: others := List.head?_eq_some_iff.mp hfirst
  have hmem : first ∈ p.tasks := by
    rw [tasks_eq p a, hrange]
    exact List.mem_append_right _ List.mem_cons_self
  have hnotin := hs.first_not_tail hfirst
  have hstart : (p.tasks.take a.start).length = a.start := by
    have hne : range p a ≠ [] := by rw [hrange]; exact List.cons_ne_nil _ _
    unfold range at hne
    rw [List.length_take]
    by_contra hlt
    rw [List.drop_eq_nil_of_le (by omega), List.take_nil] at hne
    exact hne rfl
  have hqueues : ∀ k, (p.queues.filter fun e => !(nums (range p a)).tail.contains e.1).lookup k =
      if (nums (range p a)).tail.contains k then none else p.queues.lookup k := by
    intro k
    rw [lookup_filter (fun k => !(nums (range p a)).tail.contains k)]
    cases (nums (range p a)).tail.contains k <;> rfl
  let con := p.connections.find? fun c => c.1 = last.num
  let rest : Pipeline ν := { p with
    tasks := p.tasks.take a.start ++ p.tasks.drop (a.start + a.length)
    queues := p.queues.filter fun e => !(nums (range p a)).tail.contains e.1 }
  let task : PipelineTask ν :=
    { name := r
      num := first.num
      inputQ := if QueueTypes.castInput r first.name then (p.queues.lookup first.num).join else none
      outputQ := con.bind fun c => outputQueue p r c.2 }
  have htake : rest.tasks.take a.start = p.tasks.take a.start := by
    rw [List.take_append_of_le_length (Nat.le_of_eq hstart.symm), List.take_take, Nat.min_self]
  have hdrop : rest.tasks.drop a.start = p.tasks.drop (a.start + a.length) := by
    have h : (p.tasks.take a.start ++ p.tasks.drop (a.start + a.length)).drop
        (p.tasks.take a.start).length = p.tasks.drop (a.start + a.length) := List.drop_left
    rwa [hstart] at h
  have hzero : task.num ≠ 0 := by
    have h := (hs.range first hmem).1
    show first.num ≠ 0
    omega
  have hlookup : rest.queues.lookup first.num = p.queues.lookup first.num := by
    show (p.queues.filter _).lookup _ = _
    rw [hqueues, hnotin]
    rfl
  have hentry : (rest.queues.lookup task.num).isSome := by
    show (rest.queues.lookup first.num).isSome
    rw [hlookup]
    exact hs.entry first hmem
  have halone : (rest.queues.lookup task.num).join.isSome →
      ∀ u ∈ rest.tasks.take a.start, supplies task.name u = false := by
    show (rest.queues.lookup first.num).join.isSome → _
    rw [hlookup, htake]
    exact hc.alone
  obtain ⟨new, created, hadd, hname, hnum, hout, hin⟩ := addTaskAt_alone hzero hentry halone
  rw [htake, hdrop] at hadd
  have haddAll : addAll rest a.start 0 (prepared p first con a.replacementTasks) =
      (⟨p.tasks.take a.start ++ new :: p.tasks.drop (a.start + a.length), p.currNum, rest.queues,
        p.connections, created⟩, first.num) := by
    rw [hr]
    show (rest.addTaskAt task a.start, if task.num = 0 then rest.currNum + 1 else task.num) = _
    rw [hadd, if_neg hzero]
  let p' : Pipeline ν :=
    { tasks := p.tasks.take a.start ++ new :: p.tasks.drop (a.start + a.length)
      currNum := p.currNum
      queues := p.queues.filter fun e => !(nums (range p a)).tail.contains e.1
      connections := (rename last.num first.num p.connections).filter fun c =>
        !((nums (range p a)).contains c.1 && (nums (range p a)).contains c.2)
      created := created }
  refine ⟨p', new, ?_, hname, rfl, rfl, hnum, ?_, ?_, hqueues, ?_⟩
  · unfold replace
    rw [hfirst, hlast]
    show (if (addAll rest a.start 0 (prepared p first con a.replacementTasks)).1.connections.length = _
      then _ else none) = _
    rw [haddAll, if_pos rfl]
  · intro q hcast hq
    refine hin q ?_
    show (if QueueTypes.castInput r first.name then (p.queues.lookup first.num).join else none) = some q
    rw [hname] at hcast
    rw [if_pos hcast, hq]
  · intro c hcon hcl
    have hfind : ∃ d, con = some d := by
      have hsome : con.isSome := List.find?_isSome.mpr ⟨c, hcon, by simpa using hcl⟩
      exact Option.isSome_iff_exists.mp hsome
    obtain ⟨d, hd⟩ := hfind
    have hd1 : d.1 = last.num := by simpa using List.find?_some hd
    have hd2 : d ∈ p.connections := List.mem_of_find?_eq_some hd
    have hdc : d.2 = c.2 := by
      refine hs.one last.num d.2 c.2 ?_ ?_
      · rw [← hd1]
        exact hd2
      · rw [← hcl]
        exact hcon
    rw [hout, hname]
    show con.bind (fun c => outputQueue p r c.2) = outputQueue p r c.2
    rw [hd, Option.bind_some, hdc]
  · intro c
    show c ∈ (rename last.num first.num p.connections).filter _ ↔ _
    rw [List.mem_filter, Bool.not_eq_true', ← Bool.not_eq_true, Bool.and_eq_true,
      List.contains_iff_mem, List.contains_iff_mem]

/-! ### Every replacement -/

/-- A connection after a clean replacement: one that does not start in the run, or the last one's, from
the first task. -/
theorem mem_connections_iff {p p' : Pipeline ν} (hs : Sound p) {a : Replacement ν}
    {first last new : PipelineTask ν} (hfirst : first.num ∈ nums (range p a))
    (hlast : last.num ∈ nums (range p a)) {r : ν}
    (hc : CleanRun p (p.tasks.take a.start) (range p a) first last r)
    (hrep : Replaced p p' a first last new) (c : ℕ × ℕ) :
    c ∈ p'.connections ↔ (c ∈ p.connections ∧ c.1 ∉ nums (range p a)) ∨
      (c.1 = first.num ∧ c.2 ∉ nums (range p a) ∧ (last.num, c.2) ∈ p.connections) := by
  rw [hrep.connections]
  constructor
  · rintro ⟨hmem, hnot⟩
    by_cases hin : c.1 ∈ nums (range p a)
    · have hout : c.2 ∉ nums (range p a) := fun h => hnot ⟨hin, h⟩
      obtain ⟨hf, hl⟩ := hc.left c hmem hin hout
      exact Or.inr ⟨hf, hout, hl⟩
    · rcases mem_rename_of hmem with hold | ⟨hnew, -⟩
      · exact Or.inl ⟨hold, hin⟩
      · rw [hnew] at hin
        exact absurd hfirst hin
  · rintro (⟨hmem, hout⟩ | ⟨hf, hout, hl⟩)
    · refine ⟨mem_rename_of_ne (fun h => hout (h ▸ hlast)) hmem, fun h => hout h.1⟩
    · have hnew : (first.num, c.2) ∈ rename last.num first.num p.connections :=
        mem_rename_new hl fun y hy => hs.one _ _ _ hy hl
      have hpair : c = (first.num, c.2) := Prod.ext hf rfl
      rw [← hpair] at hnew
      exact ⟨hnew, fun h => hout h.2⟩

/-- What a replacement leaves of the tasks. -/
theorem Replaced.mem_tasks {p p' : Pipeline ν} {a : Replacement ν} {first last new : PipelineTask ν}
    (hrep : Replaced p p' a first last new) {t : PipelineTask ν} (ht : t ∈ p.tasks)
    (hnum : t.num ∉ nums (range p a)) : t ∈ p'.tasks := by
  rw [tasks_eq p a, List.mem_append, List.mem_append] at ht
  rw [hrep.tasks, List.mem_append, List.mem_cons]
  rcases ht with ht | ht | ht
  · exact Or.inl ht
  · exact absurd (List.mem_map_of_mem ht) hnum
  · exact Or.inr (Or.inr ht)

theorem Replaced.of_mem_tasks {p p' : Pipeline ν} {a : Replacement ν} {first last new : PipelineTask ν}
    (hs : Sound p) (hrep : Replaced p p' a first last new) {t : PipelineTask ν} (ht : t ∈ p'.tasks) :
    t = new ∨ (t ∈ p.tasks ∧ t.num ∉ nums (range p a)) := by
  have hnd := hs.nodup
  rw [tasks_eq p a, List.map_append, List.map_append] at hnd
  obtain ⟨-, hnd', hdisj⟩ := List.nodup_append.mp hnd
  obtain ⟨-, -, hdisj'⟩ := List.nodup_append.mp hnd'
  rw [hrep.tasks, List.mem_append, List.mem_cons] at ht
  rw [tasks_eq p a, List.mem_append, List.mem_append]
  rcases ht with ht | rfl | ht
  · exact Or.inr ⟨Or.inl ht, fun h => hdisj _ (List.mem_map_of_mem ht) _ (List.mem_append_left _ h) rfl⟩
  · exact Or.inl rfl
  · exact Or.inr ⟨Or.inr (Or.inr ht), fun h => hdisj' _ h _ (List.mem_map_of_mem ht) rfl⟩

theorem Replaced.new_mem {p p' : Pipeline ν} {a : Replacement ν} {first last new : PipelineTask ν}
    (hrep : Replaced p p' a first last new) : new ∈ p'.tasks := by
  rw [hrep.tasks]
  exact List.mem_append_right _ List.mem_cons_self

/-- **A clean replacement keeps the pipeline sound.** -/
theorem sound_replace {p p' : Pipeline ν} (hs : Sound p) {a : Replacement ν}
    {first last new : PipelineTask ν} (hhead : (range p a).head? = some first)
    (hlast : last ∈ range p a) {r : ν} (hname : new.name = r)
    (hc : CleanRun p (p.tasks.take a.start) (range p a) first last r)
    (hrep : Replaced p p' a first last new) : Sound p' := by
  have hfirst : first ∈ range p a := List.mem_of_head? hhead
  have hfirstNum : first.num ∈ nums (range p a) := List.mem_map_of_mem hfirst
  have hlastNum : last.num ∈ nums (range p a) := List.mem_map_of_mem hlast
  have hfirstMem : first ∈ p.tasks := by
    rw [tasks_eq p a]
    exact List.mem_append_right _ (List.mem_append_left _ hfirst)
  have hcon := mem_connections_iff hs hfirstNum hlastNum hc hrep
  have hlookup : ∀ k, k ∉ nums (range p a) → p'.queues.lookup k = p.queues.lookup k := by
    intro k hk
    rw [hrep.queues, if_neg]
    rw [List.contains_iff_mem]
    exact fun h => hk (List.mem_of_mem_tail h)
  have hlookupFirst : p'.queues.lookup first.num = p.queues.lookup first.num := by
    rw [hrep.queues, hs.first_not_tail hhead]
    rfl
  constructor
  · have hnd := hs.nodup
    rw [tasks_eq p a] at hnd
    rw [hrep.tasks, List.map_append, List.map_cons, hrep.num]
    refine hnd.sublist ?_
    rw [List.map_append, List.map_append]
    refine List.Sublist.append (.refl _) ?_
    exact List.Sublist.append (List.singleton_sublist.mpr hfirstNum) (.refl _)
  · intro t ht
    rw [hrep.currNum]
    rcases hrep.of_mem_tasks hs ht with rfl | ⟨ht, -⟩
    · rw [hrep.num]
      exact hs.range first hfirstMem
    · exact hs.range t ht
  · intro t ht
    rcases hrep.of_mem_tasks hs ht with rfl | ⟨ht, hnum⟩
    · rw [hrep.num, hlookupFirst]
      exact hs.entry first hfirstMem
    · rw [hlookup _ hnum]
      exact hs.entry t ht
  · intro k hk
    rw [hrep.queues] at hk
    rw [hrep.currNum]
    split_ifs at hk
    · cases hk
    · exact hs.keys k hk
  · -- a task that leads into the run now leads to the new one, and the new one leads where the last did
    intro c hc'
    rcases (hcon c).mp hc' with ⟨hmem, hout⟩ | ⟨hf, hout, hl⟩
    · obtain ⟨t, ht, u, hu, htnum, hunum, q, htq, huq, hq⟩ := hs.ends c hmem
      have ht' : t ∈ p'.tasks := hrep.mem_tasks ht (by rw [htnum]; exact hout)
      by_cases hin : c.2 ∈ nums (range p a)
      · have hentered := hc.entered c hmem hout hin
        rw [hentered] at hq
        have hcast : QueueTypes.castInput new.name first.name = true := by
          rw [hname]
          exact hc.reads c hmem hentered
        refine ⟨t, ht', new, hrep.new_mem, htnum, hrep.num.trans hentered.symm, q, htq,
          hrep.inputQ q hcast hq, ?_⟩
        rw [hentered, hlookupFirst]
        exact hq
      · refine ⟨t, ht', u, hrep.mem_tasks hu (by rw [hunum]; exact hin), htnum, hunum, q, htq, huq, ?_⟩
        rw [hlookup _ hin]
        exact hq
    · obtain ⟨t, ht, u, hu, htnum, hunum, q, htq, huq, hq⟩ := hs.ends _ hl
      have hcast : QueueTypes.castOutput new.name u.name = true := by
        rw [hname]
        exact hc.writes _ hl rfl u hu hunum
      have hfind := hs.find_num hu hunum
      have hqueue : outputQueue p new.name c.2 = some q := by
        unfold outputQueue
        rw [hfind]
        show (if QueueTypes.castOutput new.name u.name then (p.queues.lookup c.2).join else none) = some q
        rw [if_pos hcast]
        exact hq
      refine ⟨new, hrep.new_mem, u, hrep.mem_tasks hu (by rw [hunum]; exact hout),
        hrep.num.trans hf.symm, hunum, q, ?_, huq, ?_⟩
      · rw [hrep.outputQ _ hl rfl]
        exact hqueue
      · rw [hlookup _ hout]
        exact hq
  · intro x y z hy hz
    rcases (hcon _).mp hy with ⟨hy, hout⟩ | ⟨hf, -, hy⟩ <;>
      rcases (hcon _).mp hz with ⟨hz, hout'⟩ | ⟨hf', -, hz⟩
    · exact hs.one x y z hy hz
    · rw [hf'] at hout
      exact absurd hfirstNum hout
    · rw [hf] at hout'
      exact absurd hfirstNum hout'
    · exact hs.one _ y z hy hz
  · intro x hx
    rcases (hcon _).mp hx with ⟨hx, -⟩ | ⟨hf, hout, -⟩
    · exact hs.irrefl x hx
    · obtain rfl : x = first.num := hf
      exact hout hfirstNum

omit [QueueTypes ν] in
theorem sound_empty : Sound (Pipeline.empty : Pipeline ν) := by
  constructor <;> simp [Pipeline.empty]

/-- What `addTask` does with a new task. -/
theorem addTask_eq {p : Pipeline ν} (h : Sound p) (name : ν) :
    ∃ new : PipelineTask ν, new.name = name ∧ new.num = p.currNum + 1 ∧
      ((TaskKinds.hasInput name = true ∧ new.inputQ = some p.created ∧ p.addTask (.fresh name) =
          ⟨p.tasks.map (supply name p.created) ++ [new], p.currNum + 1,
            p.queues ++ [(p.currNum + 1, some p.created)],
            p.connections ++ (p.tasks.filter (supplies name)).map fun t => (t.num, p.currNum + 1),
            p.created + 1⟩) ∨
        (TaskKinds.hasInput name = false ∧ p.addTask (.fresh name) =
          ⟨p.tasks ++ [new], p.currNum + 1, p.queues ++ [(p.currNum + 1, none)], p.connections,
            p.created⟩)) := by
  have hnone : p.queues.lookup (p.currNum + 1) = none := by
    by_contra hne
    have hkey := h.keys (p.currNum + 1) (Option.isSome_iff_ne_none.mpr hne)
    omega
  have hemplace : ∀ q : Option ℕ, emplace p.queues (p.currNum + 1) q = p.queues ++ [(p.currNum + 1, q)] := by
    intro q
    unfold emplace
    rw [hnone]
    rfl
  have hagain : ∀ q : Option ℕ, emplace (p.queues ++ [(p.currNum + 1, q)]) (p.currNum + 1) none =
      p.queues ++ [(p.currNum + 1, q)] := by
    intro q
    refine lookup_emplace_of_isSome ?_ none
    rw [lookup_append_new hnone, if_pos rfl]
    rfl
  by_cases hin : TaskKinds.hasInput name = true
  · refine ⟨⟨name, p.currNum + 1, some p.created, none⟩, rfl, rfl, Or.inl ⟨hin, rfl, ?_⟩⟩
    unfold addTask addTaskAt
    simp only [fresh, inputConnected, hin, if_true, hemplace, hagain, List.take_length,
      List.drop_length, lookup_append_new hnone, Bool.not_true, Bool.false_or, Option.isSome_none,
      Bool.not_false, Option.join_some]
  · rw [Bool.not_eq_true] at hin
    refine ⟨⟨name, p.currNum + 1, none, none⟩, rfl, rfl, Or.inr ⟨hin, ?_⟩⟩
    unfold addTask addTaskAt
    simp only [fresh, inputConnected, hin, if_true, hemplace, List.take_length, List.drop_length,
      lookup_append_new hnone, Bool.not_false, Bool.true_or, Bool.not_true, if_false,
      Bool.false_eq_true, Option.join_some]

omit [QueueTypes ν] in
/-- A new task with the next number and a new entry for its queue. -/
theorem Sound.append {p : Pipeline ν} (h : Sound p) {tasks : List (PipelineTask ν)}
    (htasks : tasks.map (·.num) = p.tasks.map (·.num)) {new : PipelineTask ν}
    (hnum : new.num = p.currNum + 1) {q : Option ℕ} {connections : List (ℕ × ℕ)} {created : ℕ}
    (hends : ∀ c ∈ connections, ∃ t ∈ tasks ++ [new], ∃ u ∈ tasks ++ [new], t.num = c.1 ∧ u.num = c.2 ∧
      ∃ q', t.outputQ = some q' ∧ u.inputQ = some q' ∧
        ((p.queues ++ [(p.currNum + 1, q)]).lookup c.2).join = some q')
    (hone : ∀ a b c, (a, b) ∈ connections → (a, c) ∈ connections → b = c)
    (hirrefl : ∀ a, (a, a) ∉ connections) :
    Sound ⟨tasks ++ [new], p.currNum + 1, p.queues ++ [(p.currNum + 1, q)], connections, created⟩ := by
  have hnone : p.queues.lookup (p.currNum + 1) = none := by
    by_contra hne
    have hkey := h.keys (p.currNum + 1) (Option.isSome_iff_ne_none.mpr hne)
    omega
  have hold : ∀ t ∈ tasks, ∃ u ∈ p.tasks, u.num = t.num := by
    intro t ht
    have hmem := List.mem_map_of_mem (f := fun u : PipelineTask ν => u.num) ht
    rw [htasks] at hmem
    exact List.mem_map.mp hmem
  refine ⟨?_, ?_, ?_, ?_, hends, hone, hirrefl⟩
  · rw [List.map_append, htasks]
    refine List.nodup_append.mpr ⟨h.nodup, List.nodup_singleton _, ?_⟩
    rintro x hx y hy rfl
    obtain ⟨t, ht, rfl⟩ := List.mem_map.mp hx
    have hle := (h.range t ht).2
    rw [List.map_singleton, List.mem_singleton, hnum] at hy
    omega
  · intro t ht
    show 1 ≤ t.num ∧ t.num ≤ p.currNum + 1
    rcases List.mem_append.mp ht with ht | ht
    · obtain ⟨u, hu, hunum⟩ := hold t ht
      have hrange := h.range u hu
      omega
    · rw [List.mem_singleton.mp ht]
      omega
  · intro t ht
    show ((p.queues ++ [(p.currNum + 1, q)]).lookup t.num).isSome = true
    rw [lookup_append_new hnone]
    rcases List.mem_append.mp ht with ht | ht
    · obtain ⟨u, hu, hunum⟩ := hold t ht
      split_ifs
      · rfl
      · rw [← hunum]
        exact h.entry u hu
    · rw [List.mem_singleton.mp ht, hnum, if_pos rfl]
      rfl
  · intro k hk
    show k ≤ p.currNum + 1
    change ((p.queues ++ [(p.currNum + 1, q)]).lookup k).isSome = true at hk
    rw [lookup_append_new hnone] at hk
    split_ifs at hk with heq
    · omega
    · have hkey := h.keys k hk
      omega

/-- **`addTask` keeps the pipeline sound.** -/
theorem sound_addTask {p : Pipeline ν} (h : Sound p) (name : ν) : Sound (p.addTask (.fresh name)) := by
  have hnone : p.queues.lookup (p.currNum + 1) = none := by
    by_contra hne
    have hkey := h.keys (p.currNum + 1) (Option.isSome_iff_ne_none.mpr hne)
    omega
  have hle : ∀ c ∈ p.connections, c.1 ≤ p.currNum ∧ c.2 ≤ p.currNum := by
    intro c hc
    obtain ⟨t, ht, u, hu, htnum, hunum, -⟩ := h.ends c hc
    have htle := (h.range t ht).2
    have hule := (h.range u hu).2
    omega
  have holdQueue : ∀ c ∈ p.connections, ∀ q : Option ℕ,
      (p.queues ++ [(p.currNum + 1, q)]).lookup c.2 = p.queues.lookup c.2 := by
    intro c hc q
    have hlec := (hle c hc).2
    rw [lookup_append_new hnone, if_neg (by omega)]
  obtain ⟨new, hname, hnum, ⟨hin, hinput, heq⟩ | ⟨hin, heq⟩⟩ := addTask_eq h name
  · rw [heq]
    have hmap : (p.tasks.map (supply name p.created)).map (·.num) = p.tasks.map (·.num) := by
      rw [List.map_map]
      exact List.map_congr_left fun t _ => num_supply name p.created t
    have hnewSnd : ∀ c ∈ (p.tasks.filter (supplies name)).map (fun t => (t.num, p.currNum + 1)),
        c.2 = p.currNum + 1 ∧ ∃ t ∈ p.tasks, supplies name t = true ∧ t.num = c.1 := by
      intro c hc
      obtain ⟨t, ht, rfl⟩ := List.mem_map.mp hc
      obtain ⟨htmem, hsup⟩ := List.mem_filter.mp ht
      exact ⟨rfl, t, htmem, hsup, rfl⟩
    -- a task that supplies the new one has no connection yet
    have hfree : ∀ c ∈ p.connections, ∀ t ∈ p.tasks, t.num = c.1 → supplies name t = false := by
      intro c hc t ht htnum
      obtain ⟨t', ht', -, -, htnum', -, q, hq, -⟩ := h.ends c hc
      obtain rfl : t = t' := h.eq_of_num ht ht' (htnum.trans htnum'.symm)
      unfold supplies outputConnected
      rw [hq]
      simp
    refine h.append hmap hnum ?_ ?_ ?_
    · intro c hc
      rcases List.mem_append.mp hc with hc | hc
      · obtain ⟨t, ht, u, hu, htnum, hunum, q, htq, huq, hq⟩ := h.ends c hc
        refine ⟨supply name p.created t, List.mem_append_left _ (List.mem_map_of_mem ht),
          supply name p.created u, List.mem_append_left _ (List.mem_map_of_mem hu),
          (num_supply _ _ _).trans htnum, (num_supply _ _ _).trans hunum, q, ?_, ?_, ?_⟩
        · unfold supply
          rw [hfree c hc t ht htnum]
          exact htq
        · unfold supply
          split_ifs
          · exact huq
          · exact huq
        · rw [holdQueue c hc]
          exact hq
      · obtain ⟨hsnd, t, ht, hsup, htnum⟩ := hnewSnd c hc
        refine ⟨supply name p.created t, List.mem_append_left _ (List.mem_map_of_mem ht), new,
          List.mem_append_right _ List.mem_cons_self, (num_supply _ _ _).trans htnum,
          hnum.trans hsnd.symm, p.created, ?_, hinput, ?_⟩
        · unfold supply
          rw [if_pos hsup]
        · rw [hsnd, lookup_append_new hnone, if_pos rfl]
          rfl
    · intro x y z hy hz
      rcases List.mem_append.mp hy with hy | hy <;> rcases List.mem_append.mp hz with hz | hz
      · exact h.one x y z hy hz
      · obtain ⟨-, t, ht, hsup, htnum⟩ := hnewSnd _ hz
        rw [hfree _ hy t ht htnum] at hsup
        cases hsup
      · obtain ⟨-, t, ht, hsup, htnum⟩ := hnewSnd _ hy
        rw [hfree _ hz t ht htnum] at hsup
        cases hsup
      · exact (hnewSnd _ hy).1.trans (hnewSnd _ hz).1.symm
    · intro x hx
      rcases List.mem_append.mp hx with hx | hx
      · exact h.irrefl x hx
      · obtain ⟨hsnd, t, ht, -, htnum⟩ := hnewSnd _ hx
        have htle := (h.range t ht).2
        simp only at hsnd htnum
        omega
  · rw [heq]
    refine h.append rfl hnum ?_ h.one h.irrefl
    intro c hc
    obtain ⟨t, ht, u, hu, htnum, hunum, q, htq, huq, hq⟩ := h.ends c hc
    refine ⟨t, List.mem_append_left _ ht, u, List.mem_append_left _ hu, htnum, hunum, q, htq, huq, ?_⟩
    rw [holdQueue c hc]
    exact hq

theorem sound_build (names : List ν) : Sound (build names) := by
  have hfold : ∀ (names : List ν) (p : Pipeline ν), Sound p →
      Sound (names.foldl (fun p name => p.addTask (.fresh name)) p) := by
    intro names
    induction names with
    | nil => exact fun p hp => hp
    | cons name names ih => exact fun p hp => ih _ (sound_addTask hp name)
  exact hfold names empty sound_empty

/-- The connections are those of the first pipeline, the tasks of a run taken as one. -/
structure Stands (p₀ : Pipeline ν) (stand : ℕ → ℕ) (removed : List ℕ) (p : Pipeline ν) : Prop where
  self : ∀ t ∈ p.tasks, stand t.num = t.num
  contracted : ∀ x y, (x, y) ∈ p.connections ↔ Contracted p₀ stand x y
  untouched : ∀ t ∈ p₀.tasks, t.num ∉ removed → ∃ u ∈ p.tasks, u.num = t.num ∧ u.name = t.name

/-- What stands for a number after a clean replacement. -/
theorem standAfter_eq {p₀ p p' : Pipeline ν} {stand : ℕ → ℕ} {removed : List ℕ} (hs : Sound p)
    (h : Stands p₀ stand removed p) {a : Replacement ν} {first last new : PipelineTask ν}
    (hhead : (range p a).head? = some first) (hrep : Replaced p p' a first last new) (x : ℕ) :
    standAfter stand p p' a x = if stand x ∈ nums (range p a) then first.num else stand x := by
  have hnums : (range p a).map (fun t => stand t.num) = nums (range p a) := by
    refine List.map_congr_left fun t ht => h.self t ?_
    rw [tasks_eq p a]
    exact List.mem_append_right _ (List.mem_append_left _ ht)
  have hnonew : ¬ (x ∈ p'.tasks.map (·.num) ∧ x ∉ p.tasks.map (·.num)) := by
    rintro ⟨hx, hnot⟩
    obtain ⟨t, ht, rfl⟩ := List.mem_map.mp hx
    rcases hrep.of_mem_tasks hs ht with rfl | ⟨ht, -⟩
    · refine hnot ?_
      rw [hrep.num, tasks_eq p a, List.map_append, List.map_append]
      exact List.mem_append_right _ (List.mem_append_left _
        (List.mem_map_of_mem (List.mem_of_head? hhead)))
    · exact hnot (List.mem_map_of_mem ht)
  have hheadD : (nums (range p a)).headD 0 = first.num := by
    obtain ⟨others, hrange⟩ := List.head?_eq_some_iff.mp hhead
    rw [hrange]
    rfl
  unfold standAfter
  simp only [hnums, hheadD]
  by_cases hx : stand x ∈ nums (range p a)
  · rw [if_pos hx, if_pos (Or.inl hx)]
  · rw [if_neg hx, if_neg]
    rintro (hin | hnew)
    · exact hx hin
    · exact hnonew hnew

/-- **A clean replacement contracts the run.** -/
theorem stands_replace {p₀ p p' : Pipeline ν} {stand : ℕ → ℕ} {removed : List ℕ} (hs : Sound p)
    (h : Stands p₀ stand removed p) {a : Replacement ν} {first last new : PipelineTask ν}
    (hhead : (range p a).head? = some first) (hlast : last ∈ range p a) {r : ν}
    (hc : CleanRun p (p.tasks.take a.start) (range p a) first last r)
    (hrep : Replaced p p' a first last new) :
    Stands p₀ (standAfter stand p p' a) (nums (range p a) ++ removed) p' := by
  have hfirstNum : first.num ∈ nums (range p a) := List.mem_map_of_mem (List.mem_of_head? hhead)
  have hcon := mem_connections_iff hs hfirstNum (List.mem_map_of_mem hlast) hc hrep
  have hstand := standAfter_eq hs h hhead hrep
  constructor
  · intro t ht
    rw [hstand]
    rcases hrep.of_mem_tasks hs ht with rfl | ⟨ht, hnum⟩
    · have hself : stand t.num = t.num := by
        rw [hrep.num]
        refine h.self first ?_
        rw [tasks_eq p a]
        exact List.mem_append_right _ (List.mem_append_left _ (List.mem_of_head? hhead))
      rw [hself, hrep.num, if_pos hfirstNum]
    · rw [h.self t ht, if_neg hnum]
  · -- a connection of `p` with its ends in the run renamed
    have hedges : ∀ x y, (x, y) ∈ p'.connections ↔ x ≠ y ∧ ∃ u v, (u, v) ∈ p.connections ∧
        (if u ∈ nums (range p a) then first.num else u) = x ∧
        (if v ∈ nums (range p a) then first.num else v) = y := by
      intro x y
      rw [hcon]
      constructor
      · rintro (⟨hmem, hout⟩ | ⟨hf, hout, hl⟩)
        · refine ⟨fun hxy => hs.irrefl x (hxy ▸ hmem), x, y, hmem, if_neg hout, ?_⟩
          by_cases hin : y ∈ nums (range p a)
          · rw [if_pos hin]
            exact (hc.entered _ hmem hout hin).symm
          · exact if_neg hin
        · obtain rfl : x = first.num := hf
          exact ⟨fun hxy => hout (hxy ▸ hfirstNum), last.num, y, hl,
            if_pos (List.mem_map_of_mem hlast), if_neg hout⟩
      · rintro ⟨hne, u, v, huv, rfl, rfl⟩
        by_cases hu : u ∈ nums (range p a)
        · by_cases hv : v ∈ nums (range p a)
          · rw [if_pos hu, if_pos hv] at hne
            exact absurd rfl hne
          · rw [if_pos hu, if_neg hv]
            refine Or.inr ⟨rfl, hv, ?_⟩
            by_cases hul : u = last.num
            · rw [← hul]
              exact huv
            · exact (hc.left (u, v) (mem_rename_of_ne hul huv) hu hv).2
        · rw [if_neg hu]
          refine Or.inl ⟨?_, hu⟩
          by_cases hv : v ∈ nums (range p a)
          · rw [if_pos hv, ← hc.entered _ huv hu hv]
            exact huv
          · rw [if_neg hv]
            exact huv
    intro x y
    rw [hedges]
    unfold Contracted
    refine and_congr_right fun hne => ?_
    constructor
    · rintro ⟨u, v, huv, rfl, rfl⟩
      obtain ⟨-, c, d, hcd, rfl, rfl⟩ := (h.contracted u v).mp huv
      exact ⟨c, d, hcd, hstand c, hstand d⟩
    · rintro ⟨c, d, hcd, rfl, rfl⟩
      rw [hstand, hstand] at hne ⊢
      refine ⟨stand c, stand d, (h.contracted _ _).mpr ⟨fun heq => hne (by rw [heq]), c, d, hcd, rfl, rfl⟩,
        rfl, rfl⟩
  · intro t ht hnum
    rw [List.mem_append, not_or] at hnum
    obtain ⟨u, hu, hunum, huname⟩ := h.untouched t ht hnum.2
    exact ⟨u, hrep.mem_tasks hu (by rw [hunum]; exact hnum.1), hunum, huname⟩

end OneReplacement

/-! ### Every run -/

omit [QueueTypes ν] [DecidableEq ν] in
theorem stands_start (p₀ : Pipeline ν) (hs : Sound p₀) : Stands p₀ id [] p₀ := by
  refine ⟨fun _ _ => rfl, fun x y => ?_, fun t ht _ => ⟨t, ht, rfl, rfl⟩⟩
  unfold Contracted
  constructor
  · intro hxy
    exact ⟨fun heq => hs.irrefl x (heq ▸ hxy), x, y, hxy, rfl, rfl⟩
  · rintro ⟨-, a, b, hab, rfl, rfl⟩
    exact hab

/-- **Step and run**: as long as the replacements are clean. -/
theorem sound_reached {rules : List (OptimizationRule ν)} {p₀ : Pipeline ν} (hs : Sound p₀)
    (hclean : ∀ stand removed p a, Reached rules p₀ stand removed p → nextReplacement rules p = some a →
      Clean p a) {stand : ℕ → ℕ} {removed : List ℕ} {p : Pipeline ν}
    (h : Reached rules p₀ stand removed p) : Sound p ∧ Stands p₀ stand removed p := by
  induction h with
  | start => exact ⟨hs, stands_start p₀ hs⟩
  | @step stand removed p p' a hreached hnext hreplace ih =>
    obtain ⟨hsound, hstands⟩ := ih
    obtain ⟨first, last, r, hhead, hlast, hr, hc⟩ := hclean _ _ _ _ hreached hnext
    obtain ⟨p'', new, hreplace', hname, hrep⟩ := replace_clean hsound hhead hlast hr hc
    rw [hreplace'] at hreplace
    obtain rfl := Option.some.inj hreplace
    have hlastMem : last ∈ range p a := List.mem_of_getLast? hlast
    exact ⟨sound_replace hsound hhead hlastMem hname hc hrep,
      stands_replace hsound hstands hhead hlastMem hc hrep⟩

omit [QueueTypes ν] [DecidableEq ν] in
theorem kept_of_stands {p₀ p : Pipeline ν} {stand : ℕ → ℕ} {removed : List ℕ} (hs : Sound p)
    (h : Stands p₀ stand removed p) : Kept p₀ stand removed p := by
  constructor
  · intro c hc
    obtain ⟨t, ht, u, hu, htnum, hunum, -⟩ := hs.ends c hc
    exact ⟨List.mem_map.mpr ⟨t, ht, htnum⟩, List.mem_map.mpr ⟨u, hu, hunum⟩⟩
  · intro t ht hnum
    obtain ⟨u, hu, hunum, huname⟩ := h.untouched t ht hnum
    have hfilter : p.tasks.filter (fun v => v.num = t.num) = [u] := by
      have hnodup : p.tasks.Nodup := List.Nodup.of_map _ hs.nodup
      refine List.perm_singleton.mp ((List.perm_ext_iff_of_nodup (hnodup.filter _)
        (List.nodup_singleton u)).mpr fun v => ?_)
      rw [List.mem_filter, List.mem_singleton, decide_eq_true_eq]
      constructor
      · exact fun hv => hs.eq_of_num hv.1 hu (hv.2.trans hunum.symm)
      · rintro rfl
        exact ⟨hu, hunum⟩
    rw [hfilter, List.map_singleton, huname]
  · intro a _ b _ _ _
    have hrel : Contracted p₀ stand = fun x y => (x, y) ∈ p.connections := by
      funext x y
      exact propext (h.contracted x y).symm
    rw [hrel]
  · intro c hc t ht u hu htnum hunum
    obtain ⟨t', ht', u', hu', htnum', hunum', q, htq, huq, -⟩ := hs.ends c hc
    rw [hs.eq_of_num ht ht' (htnum.trans htnum'.symm), hs.eq_of_num hu hu' (hunum.trans hunum'.symm)]
    exact ⟨q, htq, huq⟩

/-- The loop ends in a state it has reached. -/
theorem optimize_reached {rules : List (OptimizationRule ν)} {p₀ : Pipeline ν} (hs : Sound p₀)
    (hclean : ∀ stand removed p a, Reached rules p₀ stand removed p → nextReplacement rules p = some a →
      Clean p a) : ∀ (fuel : ℕ) {stand : ℕ → ℕ} {removed : List ℕ} {p : Pipeline ν},
      Reached rules p₀ stand removed p → p.tasks.length < fuel →
        ∃ stand' removed' p', Reached rules p₀ stand' removed' p' ∧ nextReplacement rules p' = none ∧
          optimize rules fuel p = .finished p'
  | 0, _, _, _, _, hlt => by omega
  | fuel + 1, stand, removed, p, h, hlt => by
    unfold optimize
    cases hnext : nextReplacement rules p with
    | none => exact ⟨stand, removed, p, h, hnext, rfl⟩
    | some a =>
      obtain ⟨hsound, -⟩ := sound_reached hs hclean h
      obtain ⟨first, last, r, hhead, hlast, hr, hc⟩ := hclean _ _ _ _ h hnext
      obtain ⟨p', -, hreplace, -⟩ := replace_clean hsound hhead hlast hr hc
      have hshort := length_replace (found_next hnext) hreplace
      obtain ⟨stand', removed', p'', hreached, hend, hopt⟩ :=
        optimize_reached hs hclean fuel (.step h hnext hreplace) (by omega)
      refine ⟨stand', removed', p'', hreached, hend, ?_⟩
      simp only [hreplace]
      exact hopt

/-- **`optimize` terminates; where every replacement of the run is clean, everything is kept in every
state of the run**, and the run ends with a pipeline in which no rule finds a run of tasks. -/
theorem optimize_keeps_flow (rules : List (OptimizationRule ν)) (names : List ν) :
    (∀ fuel, (build names).tasks.length < fuel →
      optimize rules fuel (build names) ≠ .outOfFuel) ∧
    ((∀ stand removed p a, Reached rules (build names) stand removed p →
        nextReplacement rules p = some a → Clean p a) →
      (∀ stand removed p, Reached rules (build names) stand removed p →
        Kept (build names) stand removed p) ∧
      ∀ fuel, (build names).tasks.length < fuel →
        ∃ stand removed p, Reached rules (build names) stand removed p ∧
          nextReplacement rules p = none ∧ optimize rules fuel (build names) = .finished p) := by
  refine ⟨fun fuel hlt => optimize_terminates rules fuel _ hlt, fun hclean => ⟨?_, ?_⟩⟩
  · intro stand removed p h
    obtain ⟨hs, hstands⟩ := sound_reached (sound_build names) hclean h
    exact kept_of_stands hs hstands
  · intro fuel hlt
    exact optimize_reached (sound_build names) hclean fuel .start hlt

/-! ### Two runs -/

open TaskId in
/-- The default rule for the tasks that read files line by line. -/
def fileMapOptimization : OptimizationRule TaskName where
  toOptimize := [.planned lsFileOpener, .planned lsStreamReader]
  validate _ := true
  replacement _ := [.lsFileMapper]
  shorter _ _ := ⟨List.cons_ne_nil _ _, by decide⟩

open TaskId in
/-- The tasks of a query that loads a file line by line. -/
def loadTasks : List TaskName :=
  [.planned lsListFile, .planned lsFileOpener, .planned lsStreamReader, .planned defaultTextParser,
    .planned storageReceiver]

theorem optimize_keeps_flow_load : ∃ stand removed p,
    Kept (build loadTasks) stand removed p ∧
      optimize [fileMapOptimization] 6 (build loadTasks) = .finished p := by
  have hnext : nextReplacement [fileMapOptimization] (build loadTasks) = some ⟨1, 2, [.lsFileMapper]⟩ := rfl
  have hclean : ∀ stand removed p a, Reached [fileMapOptimization] (build loadTasks) stand removed p →
      nextReplacement [fileMapOptimization] p = some a → Clean p a := by
    intro stand removed p a h hsome
    have hstates : p = build loadTasks ∨ nextReplacement [fileMapOptimization] p = none := by
      clear hsome
      induction h with
      | start => exact Or.inl rfl
      | step _ hnext' hreplace ih =>
        rcases ih with rfl | hnone
        · rw [hnext] at hnext'
          obtain rfl := Option.some.inj hnext'
          obtain rfl := Option.some.inj hreplace
          exact Or.inr rfl
        · rw [hnone] at hnext'
          cases hnext'
    rcases hstates with rfl | hnone
    · rw [hnext] at hsome
      obtain rfl := Option.some.inj hsome
      exact ⟨_, _, _, rfl, rfl, rfl, by constructor <;> decide⟩
    · rw [hnone] at hsome
      cases hsome
  obtain ⟨-, hkept⟩ := optimize_keeps_flow [fileMapOptimization] loadTasks
  obtain ⟨hall, hend⟩ := hkept hclean
  obtain ⟨stand, removed, p, hreached, -, hopt⟩ := hend 6 (by decide)
  exact ⟨stand, removed, p, hall _ _ _ hreached, hopt⟩

open TaskId in
/-- A rule for three tasks. -/
def threeTasks : OptimizationRule TaskName where
  toOptimize := [.planned lsListFile, .planned lsFileOpener, .planned storageReceiver]
  validate _ := true
  replacement _ := [.lsFileMapper]
  shorter _ _ := ⟨List.cons_ne_nil _ _, by decide⟩

open TaskId in
/-- The connection into the third task of the run is overlooked and leads nowhere in the end. -/
theorem third_overlooked : ¬ ∀ (rules : List (OptimizationRule TaskName)) (names : List TaskName)
    (fuel : ℕ) (p : Pipeline TaskName), optimize rules fuel (build names) = .finished p →
      ∀ c ∈ p.connections, c.1 ∈ p.tasks.map (·.num) ∧ c.2 ∈ p.tasks.map (·.num) := by
  intro h
  have hends := h [threeTasks]
    [.planned storageSender, .planned lsListFile, .planned lsFileOpener, .planned storageReceiver] 2 _ rfl
    (1, 4) (by decide)
  exact absurd hends.2 (by decide)

end Joda.Scheduling.Optimization
