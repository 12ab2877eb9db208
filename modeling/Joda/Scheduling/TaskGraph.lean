import Joda.Pipeline.Task
import Mathlib.Data.List.Nodup

/-! # The tasks of a pipeline and their connections

A `Pipeline` numbers the tasks that are added to it and connects each with the tasks before it that
can supply it with data (`TaskCompatability::check`) and have no output yet. A task gets a queue of
its own for its input, and the tasks that supply it write to that queue. What a name says about a task
is a parameter (`TaskKinds`), with the tasks of the repository as its instance.

`Wired` says what the connections of a pipeline are that was built by `addTask`: they lead to later
tasks, and a task has at most one that leads on. -/

namespace Joda.Scheduling.TaskGraph

open Joda.Pipeline.Task TaskId

/-- What is known of a task by its name: what it can supply, and whether it reads or writes a queue at
all. -/
class TaskKinds (ν : Type) where
  check : ν → ν → Bool
  hasInput : ν → Bool
  hasOutput : ν → Bool

/-! ### The tasks of the repository -/

/-- The names of tasks: those a plan is made of and those the optimisation puts in. -/
inductive TaskName where
  | planned (t : TaskId)
  | lsFileMapper | storageBuffer | chooseAsPipeline | chooseAggPipeline | chooseAsAggPipeline
  deriving DecidableEq, Repr

namespace TaskCompatability

open TaskName

/-- The text parsers and the stream parsers. -/
def isTextParser (t : TaskId) : Bool :=
  t = defaultTextParser || t = pathJaccardSimilarityTextParser ||
    t = attributeJaccardSimilarityTextParser

def isStreamParser (t : TaskId) : Bool :=
  t = defaultStreamParser || t = pathJaccardSimilarityStreamParser ||
    t = attributeJaccardSimilarityStreamParser

/-- `ContainerSenderGroup` -/
def isSender : TaskName → Bool
  | storageBuffer => true
  | planned t => isTextParser t || isStreamParser t || t = storageSender || t = asPipeline ||
      t = aggMerger || t = windowAgg || t = loadJoin || t = loadJoinFileParser || t = outerJoin
  | _ => false

/-- `ContainerReceiverGroup` -/
def isReceiver : TaskName → Bool
  | storageBuffer => true
  | planned t => t = storageReceiver || t = choosePipeline || t = aggPipeline ||
      t = filterAggPipeline || t = windowAgg || t = jsonStringifier || t = storeJoin ||
      t = innerJoin || t = outerJoin
  | _ => false

/-- `TaskCompatability::check`: task `a` can supply task `b` with data. -/
def check (a b : TaskName) : Bool :=
  (match a, b with
    | planned lsListFile, planned lsFileOpener => true
    | planned lsListFile, lsFileMapper => true
    | planned listFile, planned unformattedFileOpener => true
    | planned lsListDir, planned lsFileOpener => true
    | planned lsListDir, lsFileMapper => true
    | planned listDir, planned unformattedFileOpener => true
    | planned lsFileOpener, planned lsStreamReader => true
    | planned lsStreamReader, planned t => isTextParser t
    | lsFileMapper, planned t => isTextParser t
    | planned unformattedFileOpener, planned t => isStreamParser t
    | planned inStream, planned t => isStreamParser t
    | planned urlStream, planned t => isStreamParser t
    | planned choosePipeline, planned filterAggPipeline => true
    | planned choosePipeline, planned asPipeline => true
    | planned aggPipeline, planned aggMerger => true
    | planned filterAggPipeline, planned aggMerger => true
    | planned jsonStringifier, planned writeFile => true
    | planned jsonStringifier, planned writeFiles => true
    | planned jsonStringifier, planned writeOutStream => true
    | planned loadJoinFiles, planned loadJoinFileParser => true
    | _, _ => false) || isSender a && isReceiver b

end TaskCompatability

open TaskName in
instance : TaskKinds TaskName where
  check := TaskCompatability.check
  hasInput
    | planned t => !(t = lsListFile || t = listFile || t = lsListDir || t = listDir ||
        t = inStream || t = urlStream || t = storageSender || t = loadJoin || t = loadJoinFiles)
    | _ => true
  hasOutput
    | planned t => !(t = storageReceiver || t = writeFile || t = writeFiles ||
        t = writeOutStream || t = storeJoin || t = innerJoin)
    | _ => true

/-! ### `Pipeline` -/

variable {ν : Type} [TaskKinds ν]

/-- A task; `UNSET_NUM` is number `0`, a queue is told by its number. -/
structure PipelineTask (ν : Type) where
  name : ν
  num : ℕ
  inputQ : Option ℕ
  outputQ : Option ℕ
  deriving DecidableEq

namespace PipelineTask

/-- A task as it is made, without a number and not connected. -/
def fresh (name : ν) : PipelineTask ν := ⟨name, 0, none, none⟩

def inputConnected (t : PipelineTask ν) : Bool := !TaskKinds.hasInput t.name || t.inputQ.isSome

def outputConnected (t : PipelineTask ν) : Bool := !TaskKinds.hasOutput t.name || t.outputQ.isSome

end PipelineTask

/-- `queues` has for a task number the queue or a null pointer; `created` is the number of the next
queue. -/
structure Pipeline (ν : Type) where
  tasks : List (PipelineTask ν)
  currNum : ℕ
  queues : List (ℕ × Option ℕ)
  connections : List (ℕ × ℕ)
  created : ℕ

namespace Pipeline

def empty : Pipeline ν := ⟨[], 0, [], [], 0⟩

/-- `emplace`, and `operator[]` for a null pointer: an entry that is there already stays. -/
def emplace (queues : List (ℕ × Option ℕ)) (num : ℕ) (q : Option ℕ) : List (ℕ × Option ℕ) :=
  if (queues.lookup num).isSome then queues else queues ++ [(num, q)]

/-- A task before the new one can supply it and has no output yet. -/
def supplies (name : ν) (t : PipelineTask ν) : Bool :=
  TaskKinds.check t.name name && !t.outputConnected

/-- The output of such a task is set. -/
def supply (name : ν) (q : ℕ) (t : PipelineTask ν) : PipelineTask ν :=
  if supplies name t then { t with outputQ := some q } else t

/-- **`Pipeline::addTaskAt`**, before the task at place `at`. -/
def addTaskAt (p : Pipeline ν) (task : PipelineTask ν) (place : ℕ) : Pipeline ν :=
  let currNum := if task.num = 0 then p.currNum + 1 else p.currNum
  let num := if task.num = 0 then p.currNum + 1 else task.num
  let make := !task.inputConnected
  let inputQ := if make then some p.created else task.inputQ
  let queues := emplace (if make then emplace p.queues num (some p.created) else p.queues) num none
  let before := p.tasks.take place
  let task := { task with num, inputQ }
  let created := if make then p.created + 1 else p.created
  match (queues.lookup num).join with
  | some q =>
    { tasks := before.map (supply task.name q) ++ task :: p.tasks.drop place
      currNum, queues, created
      connections := p.connections ++
        (before.filter (supplies task.name)).map fun t => (t.num, num) }
  | none => ⟨before ++ task :: p.tasks.drop place, currNum, queues, p.connections, created⟩

/-- **`Pipeline::addTask`** -/
def addTask (p : Pipeline ν) (task : PipelineTask ν) : Pipeline ν :=
  p.addTaskAt task p.tasks.length

/-- **A pipeline built by `addTask`**. -/
def build (names : List ν) : Pipeline ν :=
  names.foldl (fun p name => p.addTask (.fresh name)) empty

/-! ### Wired pipelines -/

/-- **What the connections of a pipeline are** that was built by `addTask`. -/
structure Wired (p : Pipeline ν) : Prop where
  nums : p.tasks.map (·.num) = List.range' 1 p.currNum
  range : ∀ c ∈ p.connections, 1 ≤ c.1 ∧ c.1 < c.2 ∧ c.2 ≤ p.currNum
  one : ∀ a b c, (a, b) ∈ p.connections → (a, c) ∈ p.connections → b = c
  connected : ∀ c ∈ p.connections, ∀ t ∈ p.tasks, t.num = c.1 → t.outputConnected = true

theorem wired_empty : (empty : Pipeline ν).Wired := by
  constructor <;> simp [empty]

theorem Wired.num_le {p : Pipeline ν} (h : p.Wired) {t : PipelineTask ν} (ht : t ∈ p.tasks) :
    1 ≤ t.num ∧ t.num ≤ p.currNum := by
  have hm := List.mem_map_of_mem (f := PipelineTask.num) ht
  rw [h.nums, List.mem_range'_1] at hm
  omega

theorem Wired.sorted {p : Pipeline ν} (h : p.Wired) :
    p.tasks.Pairwise fun a b => a.num < b.num := by
  have hp := List.pairwise_lt_range' (s := 1) (n := p.currNum)
  rw [← h.nums, List.pairwise_map] at hp
  exact hp

/-- A task that is supplied with an output queue keeps its name and number. -/
theorem num_supply (name : ν) (q : ℕ) (t : PipelineTask ν) : (supply name q t).num = t.num := by
  unfold supply
  split_ifs <;> rfl

theorem wired_addTask {p : Pipeline ν} (h : p.Wired) (name : ν) :
    (p.addTask (.fresh name)).Wired := by
  have hrange : List.range' 1 (p.currNum + 1) = List.range' 1 p.currNum ++ [p.currNum + 1] := by
    rw [List.range'_concat, Nat.one_mul, Nat.add_comm 1]
  unfold addTask addTaskAt
  simp only [PipelineTask.fresh, if_true, List.take_length, List.drop_length]
  split
  · next q hq =>
    constructor
    · rw [List.map_append, List.map_map, hrange, ← h.nums]
      congr 1
      exact List.map_congr_left fun t _ => num_supply name q t
    · intro c hc
      rcases List.mem_append.mp hc with hc | hc
      · have hr := h.range c hc
        refine ⟨hr.1, hr.2.1, ?_⟩
        simp only
        omega
      · obtain ⟨t, ht, rfl⟩ := List.mem_map.mp hc
        have hn := h.num_le (List.mem_of_mem_filter ht)
        simp only
        omega
    · intro a b c hb hc
      -- a task that supplies the new one has no connection yet
      have hnew : ∀ b, (a, b) ∈ p.connections →
          ¬ (a, p.currNum + 1) ∈ (p.tasks.filter (supplies name)).map fun t =>
            (t.num, p.currNum + 1) := by
        intro b hb hm
        obtain ⟨t, ht, he⟩ := List.mem_map.mp hm
        rw [Prod.mk.injEq] at he
        obtain ⟨htm, hs⟩ := List.mem_filter.mp ht
        have hcon := h.connected (a, b) hb t htm he.1
        simp [supplies, hcon] at hs
      have hsnd : ∀ b, (a, b) ∈ (p.tasks.filter (supplies name)).map (fun t =>
          (t.num, p.currNum + 1)) → b = p.currNum + 1 := by
        intro b hb
        obtain ⟨t, -, he⟩ := List.mem_map.mp hb
        rw [Prod.mk.injEq] at he
        exact he.2.symm
      rcases List.mem_append.mp hb with hb | hb <;> rcases List.mem_append.mp hc with hc | hc
      · exact h.one a b c hb hc
      · rw [hsnd c hc] at hc
        exact absurd hc (hnew b hb)
      · rw [hsnd b hb] at hb
        exact absurd hb (hnew c hc)
      · rw [hsnd b hb, hsnd c hc]
    · intro c hc t ht hnum
      rcases List.mem_append.mp ht with ht | ht
      · obtain ⟨s, hs, rfl⟩ := List.mem_map.mp ht
        rw [num_supply] at hnum
        unfold supply
        split_ifs with hsup
        · simp [PipelineTask.outputConnected]
        · rcases List.mem_append.mp hc with hc | hc
          · exact h.connected c hc s hs hnum
          · obtain ⟨r, hr, rfl⟩ := List.mem_map.mp hc
            obtain ⟨hrm, hrs⟩ := List.mem_filter.mp hr
            have hrs' : s = r := by
              by_contra hne
              have hnd : (p.tasks.map (·.num)).Nodup := by
                rw [h.nums]
                exact List.nodup_range'
              exact hne (List.inj_on_of_nodup_map hnd hs hrm hnum)
            rw [hrs'] at hsup
            exact absurd hrs hsup
      · rw [List.mem_singleton] at ht
        subst ht
        simp only at hnum
        rcases List.mem_append.mp hc with hc | hc
        · have hr := h.range c hc
          omega
        · obtain ⟨r, hr, rfl⟩ := List.mem_map.mp hc
          have hn := h.num_le (List.mem_of_mem_filter hr)
          simp only at hnum
          omega
  · constructor
    · rw [List.map_append, hrange, ← h.nums]
      rfl
    · intro c hc
      have hr := h.range c hc
      refine ⟨hr.1, hr.2.1, ?_⟩
      simp only
      omega
    · exact h.one
    · intro c hc t ht hnum
      rcases List.mem_append.mp ht with ht | ht
      · exact h.connected c hc t ht hnum
      · rw [List.mem_singleton] at ht
        subst ht
        have hr := h.range c hc
        simp only at hnum
        omega

theorem wired_build (names : List ν) : (build names).Wired := by
  have h : ∀ (names : List ν) (p : Pipeline ν), p.Wired →
      (names.foldl (fun p name => p.addTask (.fresh name)) p).Wired := by
    intro names
    induction names with
    | nil => exact fun p hp => hp
    | cons name names ih => exact fun p hp => ih _ (wired_addTask hp name)
  exact h names empty wired_empty

end Pipeline
end Joda.Scheduling.TaskGraph
