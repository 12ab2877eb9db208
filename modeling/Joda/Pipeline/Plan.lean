import Joda.Lib.Fuel
import Joda.Pipeline.Task

/-! # Planning a query

`PipelineQueryPlan` turns a query into a list of tasks. `addTask` adds a task and, before and after
it, what it needs (`resolvePrerequisite`, `resolveRequirement`); for the import sources the
requirement is only noted in `unfulfilledRequirements`, and `resolveRequirements` works that list off
until it is empty. Both recursions run on fuel.

Every task carries the number of the planner that added it: `0` for the planner of the query, one
more for the planner of a subquery (`createSubPlan` makes a new one, with its own `addedIDs`). -/

namespace Joda.Pipeline.Plan

open Joda.Lib.Fuel Joda.Pipeline.Task TaskId

/-- The configured similarity measure. -/
inductive SimMeasures where
  | noSimilarity | pathJaccard | attributeJaccard
  deriving DecidableEq, Repr

structure Config where
  simMeasure : SimMeasures
  maxThreads : ℕ

/-! ### Queries -/

inductive ImportSource where
  | file (lineSeparated : Bool) (estimatedSize : ℕ)
  | directory (lineSeparated : Bool) (estimatedSize : ℕ)
  | stream
  | url
  deriving DecidableEq, Repr

namespace ImportSource

/-- The import task of a source. -/
def getTask : ImportSource → TaskId
  | file true _ => lsListFile
  | file false _ => listFile
  | directory true _ => lsListDir
  | directory false _ => listDir
  | stream => inStream
  | url => urlStream

def estimatedSize : ImportSource → ℕ
  | file _ n => n
  | directory _ n => n
  | stream => 0
  | url => 0

/-- The documents come over a stream: from the standard input or from a URL. -/
def IsStream (src : ImportSource) : Prop := src = stream ∨ src = url

instance (src : ImportSource) : Decidable src.IsStream := by unfold IsStream; infer_instance

end ImportSource

/-- How `LOAD ... FROM GROUPED` keeps its groups. -/
inductive JoinManager where
  | file | memory
  deriving DecidableEq, Repr

inductive ExportDestination where
  | storage | file | directory | stream | join
  deriving DecidableEq, Repr

/-- The task that writes to a destination; for a storage it is the receiver `planSTORE` adds. -/
def ExportDestination.getTask : ExportDestination → TaskId
  | storage => storageReceiver
  | file => writeFile
  | directory => writeFiles
  | stream => writeOutStream
  | join => storeJoin

/-- What planning reads of the clauses of a query. -/
structure Clauses where
  load : String
  importSources : List ImportSource
  loadJoinManager : Option JoinManager
  hasChoose : Bool
  hasAS : Bool
  hasAggregators : Bool
  aggWindowSize : ℕ
  exportDestination : Option ExportDestination

/-- A query: its clauses and what it is joined with. -/
inductive Query where
  | plain (c : Clauses)
  | joinPartner (c : Clauses) (partner : String)
  | joinQuery (c : Clauses) (subquery : Query)

namespace Query

def clauses : Query → Clauses
  | plain c => c
  | joinPartner c _ => c
  | joinQuery c _ => c

def hasJOIN : Query → Bool
  | plain _ => false
  | _ => true

def isDefault (q : Query) : Bool :=
  !q.clauses.hasChoose && !q.clauses.hasAggregators && !q.clauses.hasAS && !q.hasJOIN &&
    q.clauses.exportDestination.isNone

end Query

/-! ### The planner -/

structure PipelineTask where
  id : TaskId
  sourceSize : ℕ
  planner : ℕ
  deriving DecidableEq, Repr

structure PlanState where
  planner : ℕ
  taskQueue : List PipelineTask
  unfulfilledRequirements : List TaskId
  addedIDs : List TaskId
  lsSize : ℕ
  streamSize : ℕ
  currentIsStored : Bool

namespace PlanState

/-- A planner with nothing planned yet. -/
def init (planner : ℕ) : PlanState := ⟨planner, [], [], [], 0, 0, false⟩

/-- A task without source size, made by this planner. -/
def task (s : PlanState) (id : TaskId) : PipelineTask := ⟨id, 0, s.planner⟩

/-- The task joins the queue and settles what was required under its name. -/
def push (s : PlanState) (t : PipelineTask) : PlanState :=
  { s with
    taskQueue := s.taskQueue ++ [t]
    unfulfilledRequirements := s.unfulfilledRequirements.filter (· ≠ t.id)
    addedIDs := s.addedIDs ++ [t.id] }

/-- The requirement is put off. -/
def require (s : PlanState) : Option TaskId → PlanState
  | none => s
  | some r =>
    if r ∈ s.unfulfilledRequirements then s
    else { s with unfulfilledRequirements := s.unfulfilledRequirements ++ [r] }

@[simp] theorem require_planner (s : PlanState) (r : Option TaskId) :
    (s.require r).planner = s.planner := by
  unfold require; split <;> [rfl; split_ifs <;> rfl]

@[simp] theorem require_taskQueue (s : PlanState) (r : Option TaskId) :
    (s.require r).taskQueue = s.taskQueue := by
  unfold require; split <;> [rfl; split_ifs <;> rfl]

@[simp] theorem require_addedIDs (s : PlanState) (r : Option TaskId) :
    (s.require r).addedIDs = s.addedIDs := by
  unfold require; split <;> [rfl; split_ifs <;> rfl]

theorem require_some (s : PlanState) (r : TaskId) :
    (s.require (some r)).unfulfilledRequirements =
      if r ∈ s.unfulfilledRequirements then s.unfulfilledRequirements
      else s.unfulfilledRequirements ++ [r] := by
  simp only [require]; split_ifs <;> rfl

theorem mem_require {s : PlanState} {r r' : TaskId} :
    r' ∈ (s.require (some r)).unfulfilledRequirements ↔
      r' ∈ s.unfulfilledRequirements ∨ r' = r := by
  rw [require_some]
  split_ifs with h
  · constructor
    · exact Or.inl
    · rintro (h' | rfl) <;> assumption
  · simp

end PlanState

/-- The task `resolveRequirement` makes for a requirement. -/
def requiredTask (cfg : Config) (s : PlanState) : TaskId → Option PipelineTask
  | lsFileOpener => some (s.task lsFileOpener)
  | unformattedFileOpener => some (s.task unformattedFileOpener)
  | lsStreamReader => some (s.task lsStreamReader)
  | defaultTextParser =>
    match cfg.simMeasure with
    | .pathJaccard => some ⟨pathJaccardSimilarityTextParser, s.lsSize, s.planner⟩
    | .attributeJaccard => some ⟨attributeJaccardSimilarityTextParser, s.lsSize, s.planner⟩
    | .noSimilarity => some ⟨defaultTextParser, s.lsSize, s.planner⟩
  | defaultStreamParser =>
    match cfg.simMeasure with
    | .pathJaccard => some ⟨pathJaccardSimilarityStreamParser, s.streamSize, s.planner⟩
    | .attributeJaccard => some ⟨attributeJaccardSimilarityStreamParser, s.streamSize, s.planner⟩
    | .noSimilarity => some ⟨defaultStreamParser, s.streamSize, s.planner⟩
  | asPipeline => some (s.task asPipeline)
  | aggMerger => some (s.task aggMerger)
  | loadJoinFileParser => some (s.task loadJoinFileParser)
  | _ => none

/-- A parser takes the estimated size of its input with it. -/
def afterRequirement (r : TaskId) (s : PlanState) : PlanState :=
  match r with
  | defaultTextParser => { s with lsSize := 0 }
  | defaultStreamParser => { s with streamSize := 0 }
  | _ => s

/-- `resolveRequirement`, with `add` for the recursive call of `addTask`. -/
def resolveRequirementWith (add : PipelineTask → PlanState → Option PlanState) (cfg : Config) :
    Option TaskId → PlanState → Option PlanState
  | none, s => some s
  | some r, s =>
    if r ∈ s.addedIDs then some s
    else
      match requiredTask cfg s r with
      | some t => (add t s).map (afterRequirement r)
      | none => some { s with
          unfulfilledRequirements := s.unfulfilledRequirements.filter (· ≠ r) }

/-- `resolvePrerequisite`, with `add` for the recursive call of `addTask`. -/
def resolvePrerequisiteWith (add : PipelineTask → PlanState → Option PlanState) :
    Option TaskId → PlanState → Option PlanState
  | none, s => some s
  | some p, s =>
    if p ∈ s.addedIDs then some s
    else if p = jsonStringifier then add (s.task jsonStringifier) s
    else some s

/-- **Adding a task** with what it needs before it and, if `instant`, after it. -/
def addTask (cfg : Config) : ℕ → PipelineTask → Bool → PlanState → Option PlanState
  | 0, _, _, _ => none
  | n + 1, t, instant, s =>
    (resolvePrerequisiteWith (fun u s => addTask cfg n u true s) (TaskPrerequisite.get t.id) s).bind
      fun s =>
        if instant then
          resolveRequirementWith (fun u s => addTask cfg n u true s) cfg (TaskRequirement.get t.id)
            (s.push t)
        else some ((s.push t).require (TaskRequirement.get t.id))

def resolveRequirement (cfg : Config) (n : ℕ) (r : Option TaskId) (s : PlanState) :
    Option PlanState :=
  resolveRequirementWith (fun u s => addTask cfg n u true s) cfg r s

/-- **The requirement loop**: resolve the first outstanding requirement until there is none. -/
def resolveRequirements (cfg : Config) : ℕ → PlanState → Option PlanState :=
  loop (fun s => !s.unfulfilledRequirements.isEmpty)
    fun n s => resolveRequirement cfg n s.unfulfilledRequirements.head? s

/-! ### The clauses -/

/-- One import task for each source, its requirement put off. -/
def addImports (cfg : Config) (n : ℕ) : List ImportSource → PlanState → Option PlanState
  | [], s => some s
  | src :: rest, s =>
    (addTask cfg n (s.task src.getTask) false
      { s with
        streamSize := s.streamSize + src.estimatedSize
        lsSize := s.lsSize + src.estimatedSize }).bind (addImports cfg n rest)

def jsonContainerDefaultSize : ℕ := 50 * 1024 * 1024

/-- The sizes are shared out over the threads. -/
def splitSizes (cfg : Config) (s : PlanState) : PlanState :=
  { s with
    streamSize := max jsonContainerDefaultSize (s.streamSize / (cfg.maxThreads * 2))
    lsSize := max jsonContainerDefaultSize (s.lsSize / (cfg.maxThreads * 2)) }

/-- A task added on the spot. -/
def addNow (cfg : Config) (n : ℕ) (id : TaskId) (s : PlanState) : Option PlanState :=
  addTask cfg n (s.task id) true s

def addIf (cfg : Config) (n : ℕ) (b : Bool) (id : TaskId) (s : PlanState) : Option PlanState :=
  if b then addNow cfg n id s else some s

def planLoadJoin (cfg : Config) (n : ℕ) (c : Clauses) (s : PlanState) : Option PlanState :=
  match c.loadJoinManager with
  | none => some s
  | some .file => addNow cfg n loadJoinFiles s
  | some .memory => addNow cfg n loadJoin s

/-- A named `LOAD`: what was imported is stored, and sent on if a query follows. -/
def planStorage (cfg : Config) (n : ℕ) (q : Query) (s : PlanState) : Option PlanState :=
  if q.clauses.load = "" then some s
  else
    let imported := !s.taskQueue.isEmpty
    (addIf cfg n imported storageReceiver s).bind fun s =>
      addIf cfg n (!q.isDefault) storageSender
        (if imported then { s with currentIsStored := true } else s)

def planLOAD (cfg : Config) (n : ℕ) (q : Query) (s : PlanState) : Option PlanState :=
  (addImports cfg n q.clauses.importSources s).bind fun s =>
    (resolveRequirements cfg n (splitSizes cfg s)).bind fun s =>
      (planLoadJoin cfg n q.clauses s).bind (planStorage cfg n q)

def planCHOOSE (cfg : Config) (n : ℕ) (q : Query) (s : PlanState) : Option PlanState :=
  addIf cfg n (q.clauses.hasChoose || q.clauses.hasAS) choosePipeline s

def planAGG (cfg : Config) (n : ℕ) (q : Query) (s : PlanState) : Option PlanState :=
  addIf cfg n q.clauses.hasAggregators
    (if q.clauses.aggWindowSize ≠ 0 then windowAgg else aggPipeline) s

/-- `LOAD`, `JOIN`, `CHOOSE`, `AS` and `AGG` of a query. The tasks of a subquery come from a planner
of its own. -/
def planClauses (cfg : Config) (n : ℕ) : Query → PlanState → Option PlanState
  | .plain c, s =>
    (planLOAD cfg n (.plain c) s).bind fun s =>
      (planCHOOSE cfg n (.plain c) s).bind (planAGG cfg n (.plain c))
  | .joinPartner c partner, s =>
    (planLOAD cfg n (.joinPartner c partner) s).bind fun s =>
      (addNow cfg n innerJoin s).bind fun s =>
        (addNow cfg n storageSender s).bind fun s =>
          (addNow cfg n outerJoin s).bind fun s =>
            (planCHOOSE cfg n (.joinPartner c partner) s).bind
              (planAGG cfg n (.joinPartner c partner))
  | .joinQuery c sub, s =>
    (planLOAD cfg n (.joinQuery c sub) s).bind fun s =>
      (addNow cfg n innerJoin s).bind fun s =>
        (if sub.isDefault && sub.clauses.importSources.isEmpty then addNow cfg n storageSender s
          else
            ((planClauses cfg n sub (.init (s.planner + 1))).bind
              (resolveRequirements cfg n)).map
              fun sub => { s with taskQueue := s.taskQueue ++ sub.taskQueue }).bind fun s =>
          (addNow cfg n outerJoin s).bind fun s =>
            (planCHOOSE cfg n (.joinQuery c sub) s).bind (planAGG cfg n (.joinQuery c sub))

def planSTORE (cfg : Config) (n : ℕ) (lastQuery : Bool) (q : Query) (s : PlanState) :
    Option PlanState :=
  if s.taskQueue.isEmpty || (s.currentIsStored && q.isDefault) then some s
  else
    match q.clauses.exportDestination with
    | none => addIf cfg n lastQuery storageReceiver s
    | some d => addNow cfg n d.getTask s

/-- **The plan of a query**: the tasks handed to the pipeline, and the planner afterwards. -/
def createPlan (cfg : Config) (n : ℕ) (q : Query) (lastQuery : Bool) (s : PlanState) :
    Option (List PipelineTask × PlanState) :=
  (planClauses cfg n q { s with currentIsStored := false }).bind fun s =>
    (planSTORE cfg n lastQuery q s).bind fun s =>
      (resolveRequirements cfg n s).bind fun s =>
        (resolveRequirements cfg n s).map fun s =>
          (s.taskQueue, { s with taskQueue := [], addedIDs := [] })

end Joda.Pipeline.Plan
