import Joda.Lib.Fuel
import Joda.Lib.Runs
import Mathlib.Data.List.Nodup
import Mathlib.Order.Nat

/-! # The thread pool

The pool keeps for each task that is scheduled a stage with its instances, and starts instances while
there are threads. When a step of an instance is completed, `rescheduleTask` takes down its state,
removes it if it is finished, and looks for instances to start, one stage after the other.

The events are serialised by the lock of the pool. An instance is told by its `id`; `inFlight` are the
instances that were posted to the threads and are not completed, `finished` those that completed as
finished. -/

namespace Joda.Scheduling.Threads

open Joda.Lib.Fuel Joda.Lib.Runs

inductive TaskStatus where
  | notStarted | running | finished | idle | starved | yield
  deriving DecidableEq, Repr

/-- An instance of the task `num`. -/
structure ScheduledTask where
  id : ℕ
  num : ℕ
  status : TaskStatus
  deriving DecidableEq

/-- `stages` is ordered by the numbers of the tasks; `created` is the next `id`. -/
structure ThreadPool where
  maxThreads : ℕ
  runningThreads : ℕ
  stages : List (ℕ × List ScheduledTask)
  created : ℕ
  inFlight : List ℕ
  finished : List ℕ

/-- `stages[num] = stage` -/
def putStage (num : ℕ) (stage : List ScheduledTask) :
    List (ℕ × List ScheduledTask) → List (ℕ × List ScheduledTask)
  | [] => [(num, stage)]
  | s :: stages =>
    if num < s.1 then (num, stage) :: s :: stages
    else if num = s.1 then (num, stage) :: stages
    else s :: putStage num stage stages

/-- **`scheduleFuture`** -/
def scheduleFuture (pool : ThreadPool) (num maxInstances : ℕ) : ThreadPool :=
  let maxInstances := if maxInstances = 0 then pool.maxThreads else maxInstances
  let maxInstances := if maxInstances > pool.maxThreads then pool.maxThreads else maxInstances
  let stage := (List.range maxInstances).map fun i => ⟨pool.created + i, num, .notStarted⟩
  { pool with
    stages := putStage num stage pool.stages
    created := pool.created + maxInstances }

/-- All instances, stage by stage. -/
def tasks (stages : List (ℕ × List ScheduledTask)) : List ScheduledTask := stages.flatMap Prod.snd

/-- `task->status = status` -/
def setStatus (id : ℕ) (status : TaskStatus) (stages : List (ℕ × List ScheduledTask)) :
    List (ℕ × List ScheduledTask) :=
  stages.map fun s => (s.1, s.2.map fun t => if t.id = id then { t with status } else t)

/-- The instance is removed from its stage, and the stage if it is empty then. -/
def clearFinished (num id : ℕ) (stages : List (ℕ × List ScheduledTask)) :
    List (ℕ × List ScheduledTask) :=
  stages.filterMap fun s =>
    if s.1 = num ∧ s.2.any (·.id = id) then
      let stage := s.2.eraseP (·.id = id)
      if stage = [] then none else some (s.1, stage)
    else some s

/-- `scheduleStrategy`: the place of a stage. -/
def scheduleStrategy (stages : List (ℕ × List ScheduledTask)) : Option (ℕ × TaskStatus) → ℕ
  | none => 0
  | some (_, .finished) => 0
  | some (num, status) =>
    let taskStage := stages.findIdx fun s => s.1 = num
    if status = .starved then if taskStage = stages.length then 0 else taskStage
    else if status = .yield ∨ status = .idle then
      if taskStage + 1 = stages.length then 0 else taskStage + 1
    else 0

def startable (t : ScheduledTask) : Bool := t.status ≠ .finished && t.status ≠ .running

/-- The first instance of a stage that can be started is marked as running. -/
def startFirst : List ScheduledTask → Option (List ScheduledTask × ℕ)
  | [] => none
  | t :: ts =>
    if startable t then some ({ t with status := .running } :: ts, t.id)
    else (startFirst ts).map fun r => (t :: r.1, r.2)

/-- One round of the loop: an instance of the stage is started, if there is one. -/
def startOne (pool : ThreadPool) (stage : ℕ) : ThreadPool × Bool :=
  match pool.stages[stage]? with
  | none => (pool, false)
  | some s =>
    match startFirst s.2 with
    | none => (pool, false)
    | some r => ({ pool with
        runningThreads := pool.runningThreads + 1
        stages := pool.stages.set stage (s.1, r.1)
        inFlight := pool.inFlight ++ [r.2] }, true)

/-- The loop of `rescheduleTask`. -/
def startLoop (startStage : ℕ) : ℕ → ℕ → Bool → ThreadPool → Option ThreadPool
  | 0, _, _, _ => none
  | fuel + 1, stage, couldStart, pool =>
    if pool.runningThreads < pool.maxThreads ∧ pool.stages ≠ [] then
      let pool' := (startOne pool stage).1
      let couldStart := couldStart || (startOne pool stage).2
      let stage := if stage + 1 = pool.stages.length then 0 else stage + 1
      if stage = startStage then
        if couldStart then startLoop startStage fuel stage false pool' else some pool'
      else startLoop startStage fuel stage couldStart pool'
    else some pool

/-- What `rescheduleTask` does before it looks for a stage: the pool, and the number and the state of
the task if it is still there. -/
def complete (pool : ThreadPool) (task : ScheduledTask) (status : TaskStatus) :
    ThreadPool × Option (ℕ × TaskStatus) :=
  let stages := setStatus task.id status pool.stages
  let pool := { pool with
    runningThreads := pool.runningThreads - 1
    inFlight := pool.inFlight.erase task.id }
  if status = .finished then
    ({ pool with
      stages := clearFinished task.num task.id stages
      finished := pool.finished ++ [task.id] }, none)
  else ({ pool with stages }, some (task.num, status))

/-- The rest of it. -/
def startTasks (fuel : ℕ) (pool : ThreadPool) (task : Option (ℕ × TaskStatus)) : Option ThreadPool :=
  if pool.stages = [] then some pool
  else
    let startStage := scheduleStrategy pool.stages task
    startLoop startStage fuel startStage false pool

/-- **`rescheduleTask`**, with the task whose step was completed. -/
def rescheduleTask (fuel : ℕ) (pool : ThreadPool) : Option (ScheduledTask × TaskStatus) →
    Option ThreadPool
  | none => startTasks fuel pool none
  | some (task, status) =>
    startTasks fuel (complete pool task status).1 (complete pool task status).2

/-! ### Events -/

inductive Event where
  | schedule (num maxInstances : ℕ)
  | reschedule
  | completed (task : ScheduledTask) (status : TaskStatus)

/-- The call of `rescheduleTask` an event makes, if it is one of the pool: an instance is completed
that was posted. -/
def Event.call (pool : ThreadPool) : Event → Option (Option (ScheduledTask × TaskStatus))
  | schedule _ _ => none
  | reschedule => some none
  | completed task status =>
    if task ∈ tasks pool.stages ∧ task.id ∈ pool.inFlight then some (some (task, status)) else none

/-- **An event.** -/
inductive Step : Event → ThreadPool → ThreadPool → Prop
  | schedule (num maxInstances : ℕ) (pool : ThreadPool) :
      Step (.schedule num maxInstances) pool (scheduleFuture pool num maxInstances)
  | call {e : Event} {pool pool' : ThreadPool} {task : Option (ScheduledTask × TaskStatus)}
      (h : e.call pool = some task) (hr : Returns (fun n => rescheduleTask n pool task) pool') :
      Step e pool pool'

/-- A new pool. -/
def Init (pool : ThreadPool) : Prop := ∃ maxThreads, pool = ⟨maxThreads, 0, [], 0, [], []⟩

/-! ### The state of the pool -/

def isRunning (t : ScheduledTask) : Bool := t.status = .running

/-- **The state of the pool is consistent**: the threads that run are counted, no instance runs on two
threads, and none that has finished runs. -/
structure Consistent (pool : ThreadPool) : Prop where
  count : pool.runningThreads = (tasks pool.stages).countP isRunning
  le : pool.runningThreads ≤ pool.maxThreads
  nodup : pool.inFlight.Nodup
  running : ∀ id, id ∈ pool.inFlight ↔ ∃ t ∈ tasks pool.stages, t.id = id ∧ t.status = .running
  finished : ∀ id ∈ pool.finished, id ∉ pool.inFlight

/-- **All threads are busy, or there is nothing left to start.** -/
def Saturated (pool : ThreadPool) : Prop :=
  pool.runningThreads = pool.maxThreads ∨
    ∀ t ∈ tasks pool.stages, t.status ≠ .finished → t.status = .running

/-- What the pool relies on: no step that is completed leaves its instance running, and no task is
scheduled again while an instance of it runs. -/
def Meets (pool : ThreadPool) : Event → Prop
  | .schedule num _ => ∀ s ∈ pool.stages, s.1 = num → ∀ t ∈ s.2, t.status ≠ .running
  | .reschedule => True
  | .completed _ status => status ≠ .running

/-- **The invariant.** -/
structure Inv (pool : ThreadPool) : Prop where
  count : pool.runningThreads = (tasks pool.stages).countP isRunning
  le : pool.runningThreads ≤ pool.maxThreads
  ids : ((tasks pool.stages).map (·.id)).Nodup
  created : ∀ t ∈ tasks pool.stages, t.id < pool.created
  inFlight : pool.inFlight.Perm (((tasks pool.stages).filter isRunning).map (·.id))
  num : ∀ s ∈ pool.stages, ∀ t ∈ s.2, t.num = s.1
  sorted : (pool.stages.map Prod.fst).Pairwise (· < ·)
  notFinished : ∀ t ∈ tasks pool.stages, t.status ≠ .finished
  gone : ∀ id ∈ pool.finished, id < pool.created ∧ id ∉ (tasks pool.stages).map (·.id)

variable {pool pool' : ThreadPool}

theorem Inv.consistent (h : Inv pool) : Consistent pool where
  count := h.count
  le := h.le
  nodup := by
    rw [h.inFlight.nodup_iff]
    exact h.ids.sublist (List.filter_sublist.map _)
  running id := by
    rw [h.inFlight.mem_iff, List.mem_map]
    constructor
    · rintro ⟨t, ht, rfl⟩
      obtain ⟨htm, hr⟩ := List.mem_filter.mp ht
      exact ⟨t, htm, rfl, of_decide_eq_true hr⟩
    · rintro ⟨t, ht, rfl, hr⟩
      exact ⟨t, List.mem_filter.mpr ⟨ht, decide_eq_true hr⟩, rfl⟩
  finished id hid hf := by
    obtain ⟨t, ht, he⟩ := List.mem_map.mp (h.inFlight.mem_iff.mp hf)
    exact (h.gone id hid).2 (List.mem_map.mpr ⟨t, List.mem_of_mem_filter ht, he⟩)

theorem inv_init (h : Init pool) : Inv pool := by
  obtain ⟨maxThreads, rfl⟩ := h
  constructor <;> simp [tasks]

theorem tasks_append (a b : List (ℕ × List ScheduledTask)) : tasks (a ++ b) = tasks a ++ tasks b :=
  List.flatMap_append

theorem tasks_cons (s : ℕ × List ScheduledTask) (a : List (ℕ × List ScheduledTask)) :
    tasks (s :: a) = s.2 ++ tasks a := List.flatMap_cons

/-! ### Starting instances -/

theorem startFirst_eq_none : ∀ {ts : List ScheduledTask}, startFirst ts = none →
    ∀ t ∈ ts, startable t = false
  | [], _, _, ht => nomatch ht
  | t :: ts, h, t', ht' => by
    rw [startFirst] at h
    split_ifs at h with hs
    rw [Option.map_eq_none_iff] at h
    rcases List.mem_cons.mp ht' with rfl | ht'
    · simpa using hs
    · exact startFirst_eq_none h t' ht'

theorem startFirst_eq_some : ∀ {ts : List ScheduledTask} {r : List ScheduledTask × ℕ},
    startFirst ts = some r → ∃ a t b, ts = a ++ t :: b ∧ startable t = true ∧
      r = (a ++ { t with status := .running } :: b, t.id)
  | [], _, h => nomatch h
  | t :: ts, r, h => by
    rw [startFirst] at h
    split_ifs at h with hs
    · exact ⟨[], t, ts, rfl, hs, (Option.some.inj h).symm⟩
    · obtain ⟨r', hr', rfl⟩ := Option.map_eq_some_iff.mp h
      obtain ⟨a, u, b, rfl, hu, rfl⟩ := startFirst_eq_some hr'
      exact ⟨t :: a, u, b, rfl, hu, rfl⟩

/-- **An instance `t` is started**; the other instances and the stages stay as they are. -/
structure Starts (pool pool' : ThreadPool) (t : ScheduledTask) : Prop where
  split : ∃ A B, tasks pool.stages = A ++ t :: B ∧
    tasks pool'.stages = A ++ { t with status := .running } :: B
  startable : startable t = true
  running : pool'.runningThreads = pool.runningThreads + 1
  inFlight : pool'.inFlight = pool.inFlight ++ [t.id]
  maxThreads : pool'.maxThreads = pool.maxThreads
  created : pool'.created = pool.created
  finished : pool'.finished = pool.finished
  stages : pool'.stages.map Prod.fst = pool.stages.map Prod.fst
  num : (∀ s ∈ pool.stages, ∀ t ∈ s.2, t.num = s.1) → ∀ s ∈ pool'.stages, ∀ t ∈ s.2, t.num = s.1

/-- **What a round does.** -/
theorem startOne_spec (pool : ThreadPool) (stage : ℕ) :
    (startOne pool stage = (pool, false) ∧
        ∀ s, pool.stages[stage]? = some s → ∀ t ∈ s.2, startable t = false) ∨
      ((startOne pool stage).2 = true ∧ ∃ t, Starts pool (startOne pool stage).1 t) := by
  unfold startOne
  cases hs : pool.stages[stage]? with
  | none => exact Or.inl ⟨rfl, fun s h => nomatch h⟩
  | some s =>
    simp only
    cases hf : startFirst s.2 with
    | none =>
      refine Or.inl ⟨rfl, fun s' h => ?_⟩
      rw [← Option.some.inj h]
      exact startFirst_eq_none hf
    | some r =>
      obtain ⟨a, t, b, hsplit, hst, rfl⟩ := startFirst_eq_some hf
      obtain ⟨hi, rfl⟩ := List.getElem?_eq_some_iff.mp hs
      have hset : pool.stages.set stage (pool.stages[stage].1, a ++ { t with status := .running } :: b) =
          pool.stages.take stage ++ (pool.stages[stage].1, a ++ { t with status := .running } :: b) ::
            pool.stages.drop (stage + 1) := by
        rw [List.set_eq_take_append_cons_drop, if_pos hi]
      have hold : pool.stages = pool.stages.take stage ++ pool.stages[stage] ::
          pool.stages.drop (stage + 1) := by
        rw [← List.drop_eq_getElem_cons hi, List.take_append_drop]
      refine Or.inr ⟨rfl, t, ?_⟩
      constructor
      · refine ⟨tasks (pool.stages.take stage) ++ a, b ++ tasks (pool.stages.drop (stage + 1)),
          ?_, ?_⟩
        · conv_lhs => rw [hold]
          rw [tasks_append, tasks_cons, hsplit]
          simp
        · simp only
          rw [hset, tasks_append, tasks_cons]
          simp
      · exact hst
      · rfl
      · rfl
      · rfl
      · rfl
      · rfl
      · simp only
        rw [hset]
        conv_rhs => rw [hold]
        rw [List.map_append, List.map_append, List.map_cons, List.map_cons]
      · intro hnum s' hs' u hu
        simp only at hs'
        rw [hset] at hs'
        rw [hold] at hnum
        rcases List.mem_append.mp hs' with hs' | hs'
        · exact hnum s' (List.mem_append_left _ hs') u hu
        · rcases List.mem_cons.mp hs' with rfl | hs'
          · have hmid := hnum _ (List.mem_append_right _ List.mem_cons_self)
            rw [hsplit] at hmid
            rcases List.mem_append.mp hu with hu | hu
            · exact hmid u (List.mem_append_left _ hu)
            · rcases List.mem_cons.mp hu with rfl | hu
              · exact hmid t (List.mem_append_right _ List.mem_cons_self)
              · exact hmid u (List.mem_append_right _ (List.mem_cons_of_mem _ hu))
          · exact hnum s' (List.mem_append_right _ (List.mem_cons_of_mem _ hs')) u hu

/-- The stage `v` places after the stage the loop starts with. -/
def place (L start v : ℕ) : ℕ := if start + v < L then start + v else start + v - L

theorem stages_length_of_starts {t : ScheduledTask} (h : Starts pool pool' t) :
    pool'.stages.length = pool.stages.length := by
  rw [← List.length_map (f := Prod.fst), h.stages, List.length_map]

/-- **The loop ends, and leaves a saturated pool.** The measure counts the free threads, then whether an
instance was started since the loop last was at the start, then the stages to go. If none was started,
then there is nothing to start in the `v` stages passed. -/
theorem startLoop_spec (P : ThreadPool → Prop)
    (hP : ∀ pool pool' t, P pool → pool.runningThreads < pool.maxThreads → Starts pool pool' t →
      P pool') {start L : ℕ} (hstart : start < L) :
    ∀ (m v : ℕ) (couldStart : Bool) (pool : ThreadPool), pool.stages.length = L → v < L →
      P pool → pool.runningThreads ≤ pool.maxThreads →
      (couldStart = false → ∀ j < v, ∀ s, pool.stages[place L start j]? = some s →
        ∀ t ∈ s.2, startable t = false) →
      2 * L * (pool.maxThreads - pool.runningThreads) + (if couldStart then L else 0) + (L - v) ≤ m →
      ∃ pool', Returns (fun n => startLoop start n (place L start v) couldStart pool) pool' ∧
        P pool' ∧ (pool'.runningThreads = pool'.maxThreads ∨
          ∀ t ∈ tasks pool'.stages, startable t = false) := by
  intro m
  induction m with
  | zero => intro v couldStart pool _ hv _ _ _ hm; omega
  | succ m ih =>
    intro v couldStart pool hL hv hp hle hpassed hm
    by_cases hgo : pool.runningThreads < pool.maxThreads
    · have hne : pool.stages ≠ [] := by
        intro h
        rw [h] at hL
        simp at hL
        omega
      have hnext : (if place L start v + 1 = pool.stages.length then 0 else place L start v + 1) =
          place L start (v + 1) := by
        rw [hL]
        unfold place
        split_ifs <;> omega
      have hback : place L start (v + 1) = start ↔ v + 1 = L := by
        unfold place
        split_ifs <;> omega
      have hzero : place L start 0 = start := by
        unfold place
        rw [if_pos (by omega), Nat.add_zero]
      have hunfold : ∀ n, startLoop start (n + 1) (place L start v) couldStart pool =
          if v + 1 = L then
            if couldStart || (startOne pool (place L start v)).2 then
              startLoop start n start false (startOne pool (place L start v)).1
            else some (startOne pool (place L start v)).1
          else startLoop start n (place L start (v + 1))
            (couldStart || (startOne pool (place L start v)).2)
            (startOne pool (place L start v)).1 := by
        intro n
        rw [startLoop, if_pos ⟨hgo, hne⟩]
        simp only
        rw [hnext, if_congr hback rfl rfl]
        by_cases hvL : v + 1 = L
        · rw [if_pos hvL, if_pos hvL, hback.mpr hvL]
        · rw [if_neg hvL, if_neg hvL]
      rcases startOne_spec pool (place L start v) with ⟨hone, hnone⟩ | ⟨hone, t, hst⟩
      · -- nothing to start in this stage
        simp only [hone, Bool.or_false] at hunfold
        have hpassed' : couldStart = false → ∀ j < v + 1, ∀ s,
            pool.stages[place L start j]? = some s → ∀ t ∈ s.2, startable t = false := by
          intro hc j hj
          rcases Nat.lt_succ_iff_lt_or_eq.mp hj with hj | rfl
          · exact hpassed hc j hj
          · exact hnone
        by_cases hvL : v + 1 = L
        · simp only [if_pos hvL] at hunfold
          cases hc : couldStart with
          | true =>
            subst hc
            simp only [if_true] at hunfold hm
            obtain ⟨pool', hr, hp', hs⟩ := ih 0 false pool hL (by omega) hp hle
              (fun _ j hj => absurd hj (Nat.not_lt_zero j)) (by simp; omega)
            rw [hzero] at hr
            exact ⟨pool', Returns.of_succ hunfold hr, hp', hs⟩
          | false =>
            subst hc
            refine ⟨pool, Returns.of_succ hunfold (Returns.pure pool), hp, Or.inr fun t ht => ?_⟩
            -- the loop has passed every stage
            obtain ⟨s, hs, hts⟩ := List.mem_flatMap.mp ht
            obtain ⟨i, hi, rfl⟩ := List.getElem_of_mem hs
            have hi' : i < L := hL ▸ hi
            refine hpassed' rfl (if start ≤ i then i - start else i + L - start) (by split_ifs <;> omega)
              _ ?_ t hts
            have hpl : place L start (if start ≤ i then i - start else i + L - start) = i := by
              unfold place
              split_ifs <;> omega
            rw [hpl, List.getElem?_eq_getElem hi]
        · simp only [if_neg hvL] at hunfold
          obtain ⟨pool', hr, hp', hs⟩ := ih (v + 1) couldStart pool hL (by omega) hp hle hpassed'
            (by omega)
          exact ⟨pool', Returns.of_succ hunfold hr, hp', hs⟩
      · -- an instance is started
        have hL' : (startOne pool (place L start v)).1.stages.length = L := by
          rw [stages_length_of_starts hst, hL]
        have hp₁ := hP _ _ t hp hgo hst
        have hrun := hst.running
        have hmax := hst.maxThreads
        have hfree : 2 * L * (pool.maxThreads - pool.runningThreads) =
            2 * L * ((startOne pool (place L start v)).1.maxThreads -
              (startOne pool (place L start v)).1.runningThreads) + 2 * L := by
          rw [hrun, hmax, ← Nat.mul_succ]
          congr 1
          omega
        simp only [hone, Bool.or_true, if_true] at hunfold
        by_cases hvL : v + 1 = L
        · simp only [if_pos hvL] at hunfold
          obtain ⟨pool', hr, hp', hs⟩ := ih 0 false _ hL' (by omega) hp₁ (by omega)
            (fun _ j hj => absurd hj (Nat.not_lt_zero j)) (by simp; omega)
          rw [hzero] at hr
          exact ⟨pool', Returns.of_succ hunfold hr, hp', hs⟩
        · simp only [if_neg hvL] at hunfold
          obtain ⟨pool', hr, hp', hs⟩ := ih (v + 1) true _ hL' (by omega) hp₁ (by omega)
            (fun h => nomatch h) (by simp; omega)
          exact ⟨pool', Returns.of_succ hunfold hr, hp', hs⟩
    · refine ⟨pool, ?_, hp, Or.inl (by omega)⟩
      refine Returns.of_succ (g := fun _ => some pool) (fun n => ?_) (Returns.pure pool)
      rw [startLoop, if_neg fun h => hgo h.1]

theorem not_running_of_startable {t : ScheduledTask} (h : startable t = true) :
    isRunning t = false := by
  simp only [startable, Bool.and_eq_true, decide_eq_true_eq] at h
  exact decide_eq_false h.2

theorem Starts.countP {t : ScheduledTask} (h : Starts pool pool' t) :
    (tasks pool'.stages).countP isRunning = (tasks pool.stages).countP isRunning + 1 := by
  obtain ⟨A, B, h1, h2⟩ := h.split
  have hnot := not_running_of_startable h.startable
  have hrun : isRunning { t with status := .running } = true := rfl
  rw [h1, h2, List.countP_append, List.countP_append, List.countP_cons, List.countP_cons, hnot, hrun]
  simp only [Bool.false_eq_true, if_false, if_true]
  omega

/-- **The invariant is kept when an instance is started.** -/
theorem Inv.starts (hi : Inv pool) (hlt : pool.runningThreads < pool.maxThreads) {t : ScheduledTask}
    (h : Starts pool pool' t) : Inv pool' := by
  obtain ⟨A, B, h1, h2⟩ := h.split
  have hids : (tasks pool'.stages).map (·.id) = (tasks pool.stages).map (·.id) := by
    rw [h1, h2]
    simp
  have hnot := not_running_of_startable h.startable
  constructor
  · rw [h.running, h.countP, hi.count]
  · rw [h.running, h.maxThreads]
    exact hlt
  · rw [hids]
    exact hi.ids
  · intro u hu
    have hm : u.id ∈ (tasks pool'.stages).map (·.id) := List.mem_map_of_mem hu
    rw [hids] at hm
    obtain ⟨u', hu', he⟩ := List.mem_map.mp hm
    rw [← he, h.created]
    exact hi.created u' hu'
  · have hold := hi.inFlight
    have hrun : isRunning { t with status := .running } = true := rfl
    rw [h1, List.filter_append, List.filter_cons_of_neg (by rw [hnot]; exact Bool.false_ne_true)] at hold
    rw [h.inFlight, h2, List.filter_append, List.filter_cons_of_pos hrun, List.map_append, List.map_cons]
    rw [List.map_append] at hold
    refine (hold.append_right _).trans (List.perm_append_comm.trans ?_)
    rw [List.singleton_append]
    exact List.perm_middle.symm
  · exact h.num hi.num
  · rw [h.stages]
    exact hi.sorted
  · intro u hu
    rw [h2] at hu
    have hold := hi.notFinished
    rw [h1] at hold
    rcases List.mem_append.mp hu with hu | hu
    · exact hold u (List.mem_append_left _ hu)
    · rcases List.mem_cons.mp hu with rfl | hu
      · exact fun h => nomatch h
      · exact hold u (List.mem_append_right _ (List.mem_cons_of_mem _ hu))
  · rw [h.finished, h.created, hids]
    exact hi.gone

/-! ### Completing a step -/

theorem tasks_setStatus (id : ℕ) (status : TaskStatus) (stages : List (ℕ × List ScheduledTask)) :
    tasks (setStatus id status stages) =
      (tasks stages).map fun t => if t.id = id then { t with status } else t := by
  rw [tasks, tasks, setStatus, List.flatMap_map, List.map_flatMap]

/-- Only the instance itself changes its state. -/
theorem map_status {A B : List ScheduledTask} {task : ScheduledTask} (status : TaskStatus)
    (hids : ((A ++ task :: B).map (·.id)).Nodup) :
    (A ++ task :: B).map (fun t => if t.id = task.id then { t with status } else t) =
      A ++ { task with status } :: B := by
  have hne : ∀ t, t ∈ A ∨ t ∈ B → t.id ≠ task.id := by
    intro t ht he
    rw [List.map_append, List.map_cons, List.nodup_middle, List.nodup_cons, List.mem_append] at hids
    refine hids.1 ?_
    rcases ht with ht | ht
    · exact Or.inl (List.mem_map.mpr ⟨t, ht, he⟩)
    · exact Or.inr (List.mem_map.mpr ⟨t, ht, he⟩)
  rw [List.map_append, List.map_cons, if_pos rfl]
  congr 1
  · refine (List.map_congr_left fun t ht => if_neg (hne t (Or.inl ht))).trans (List.map_id' A)
  · congr 1
    exact (List.map_congr_left fun t ht => if_neg (hne t (Or.inr ht))).trans (List.map_id' B)

theorem tasks_clearFinished {num id : ℕ} : ∀ {stages : List (ℕ × List ScheduledTask)},
    ((tasks stages).map (·.id)).Nodup → (∀ s ∈ stages, ∀ t ∈ s.2, t.id = id → s.1 = num) →
      tasks (clearFinished num id stages) = (tasks stages).eraseP (·.id = id)
  | [], _, _ => rfl
  | s :: stages, hids, hnum => by
    have hrest : tasks (clearFinished num id (s :: stages)) =
        (if s.1 = num ∧ s.2.any (·.id = id) then s.2.eraseP (·.id = id) else s.2) ++
          tasks (clearFinished num id stages) := by
      rw [clearFinished, List.filterMap_cons]
      simp only
      split_ifs with hc he
      · rw [he]
        rfl
      · exact tasks_cons _ _
      · exact tasks_cons _ _
    rw [tasks_cons, List.map_append, List.nodup_append] at hids
    obtain ⟨-, hids', hdis⟩ := hids
    have ih := tasks_clearFinished hids' fun s' hs' => hnum s' (List.mem_cons_of_mem _ hs')
    rw [hrest, ih, tasks_cons]
    by_cases hc : s.2.any (·.id = id) = true
    · obtain ⟨t, ht, he⟩ := List.any_eq_true.mp hc
      have he' : t.id = id := of_decide_eq_true he
      rw [if_pos ⟨hnum s List.mem_cons_self t ht he', hc⟩,
        List.eraseP_append_left (p := fun u => decide (u.id = id)) he _ ht]
      congr 1
      refine List.eraseP_of_forall_not fun u hu hue => ?_
      have hue' : u.id = id := of_decide_eq_true hue
      exact hdis t.id (List.mem_map_of_mem ht) u.id (List.mem_map_of_mem hu) (he'.trans hue'.symm)
    · rw [if_neg fun h => hc h.2, List.eraseP_append_right]
      intro t ht he
      exact hc (List.any_eq_true.mpr ⟨t, ht, he⟩)

theorem clearFinished_sublist {num id : ℕ} : ∀ (stages : List (ℕ × List ScheduledTask)),
    ((clearFinished num id stages).map Prod.fst).Sublist (stages.map Prod.fst)
  | [] => .refl _
  | s :: stages => by
    have ih : ((clearFinished num id stages).map Prod.fst).Sublist (stages.map Prod.fst) :=
      clearFinished_sublist stages
    rw [clearFinished, List.filterMap_cons]
    simp only
    split
    · exact ih.cons _
    · next s' hs' =>
      have hkey : s'.1 = s.1 := by
        split_ifs at hs' <;> rw [← Option.some.inj hs']
      rw [List.map_cons, List.map_cons, hkey]
      exact ih.cons_cons _

theorem mem_clearFinished {num id : ℕ} {stages : List (ℕ × List ScheduledTask)}
    {s : ℕ × List ScheduledTask} (h : s ∈ clearFinished num id stages) :
    ∃ s' ∈ stages, s'.1 = s.1 ∧ s.2 ⊆ s'.2 := by
  obtain ⟨s', hs', he⟩ := List.mem_filterMap.mp h
  refine ⟨s', hs', ?_⟩
  simp only at he
  split_ifs at he
  · rw [← Option.some.inj he]
    exact ⟨rfl, List.eraseP_subset⟩
  · rw [← Option.some.inj he]
    exact ⟨rfl, List.Subset.refl _⟩

/-- **A completed step**: the instance had been running, it changes its state or goes. -/
theorem complete_spec (hi : Inv pool) {task : ScheduledTask} (ht : task ∈ tasks pool.stages)
    (hf : task.id ∈ pool.inFlight) (status : TaskStatus) :
    ∃ A B, tasks pool.stages = A ++ task :: B ∧ isRunning task = true ∧
      tasks (complete pool task status).1.stages =
        A ++ (if status = .finished then B else { task with status } :: B) ∧
      (complete pool task status).1.inFlight.Perm (((A ++ B).filter isRunning).map (·.id)) ∧
      ((complete pool task status).1.stages.map Prod.fst).Sublist (pool.stages.map Prod.fst) ∧
      ∀ s ∈ (complete pool task status).1.stages, ∀ t ∈ s.2, t.num = s.1 := by
  obtain ⟨A, B, hsplit⟩ := List.append_of_mem ht
  have hids := hi.ids
  rw [hsplit] at hids
  have hset : tasks (setStatus task.id status pool.stages) = A ++ { task with status } :: B := by
    rw [tasks_setStatus, hsplit, map_status status hids]
  have hrun : isRunning task = true := by
    obtain ⟨u, hu, he⟩ := List.mem_map.mp (hi.inFlight.mem_iff.mp hf)
    obtain ⟨hum, hur⟩ := List.mem_filter.mp hu
    rwa [← List.inj_on_of_nodup_map hi.ids hum ht he]
  have hperm := hi.inFlight
  rw [hsplit, List.filter_append, List.filter_cons_of_pos hrun, List.map_append, List.map_cons] at hperm
  have herase : (pool.inFlight.erase task.id).Perm (((A ++ B).filter isRunning).map (·.id)) := by
    refine (hperm.erase task.id).trans ?_
    rw [List.filter_append, List.map_append]
    refine (List.perm_middle.erase task.id).trans ?_
    rw [List.erase_cons_head]
  have hkeys : (setStatus task.id status pool.stages).map Prod.fst = pool.stages.map Prod.fst := by
    rw [setStatus, List.map_map]
    rfl
  have hnum : ∀ s ∈ setStatus task.id status pool.stages, ∀ t ∈ s.2, t.num = s.1 := by
    intro s hs t ht
    obtain ⟨s', hs', rfl⟩ := List.mem_map.mp hs
    obtain ⟨t', ht', rfl⟩ := List.mem_map.mp ht
    have h := hi.num s' hs' t' ht'
    split_ifs <;> exact h
  refine ⟨A, B, hsplit, hrun, ?_⟩
  unfold complete
  by_cases hfin : status = .finished
  · simp only [if_pos hfin]
    have hclear : tasks (clearFinished task.num task.id (setStatus task.id status pool.stages)) =
        A ++ B := by
      have hids' : ((tasks (setStatus task.id status pool.stages)).map (·.id)).Nodup := by
        rw [hset]
        simpa using hids
      rw [tasks_clearFinished hids', hset, List.eraseP_append_right, List.eraseP_cons_of_pos]
      · exact decide_eq_true rfl
      · intro u hu he
        have he' : u.id = task.id := of_decide_eq_true he
        rw [List.map_append, List.map_cons, List.nodup_middle, List.nodup_cons] at hids
        exact hids.1 (List.mem_append_left _ (List.mem_map.mpr ⟨u, hu, he'⟩))
      · intro s hs u hu he
        rw [← hnum s hs u hu]
        have hmem : u ∈ tasks (setStatus task.id status pool.stages) :=
          List.mem_flatMap.mpr ⟨s, hs, hu⟩
        have hmem' : { task with status } ∈ tasks (setStatus task.id status pool.stages) := by
          rw [hset]
          simp
        rw [List.inj_on_of_nodup_map hids' hmem hmem' he]
    refine ⟨hclear, herase, ?_, fun s hs u hu => ?_⟩
    · exact hkeys ▸ clearFinished_sublist _
    · obtain ⟨s', hs', hkey, hsub⟩ := mem_clearFinished hs
      rw [hnum s' hs' u (hsub hu), hkey]
  · simp only [if_neg hfin]
    exact ⟨hset, herase, hkeys ▸ .refl _, hnum⟩

/-- The count of the running instances after a completed step. -/
theorem Inv.complete (hi : Inv pool) {task : ScheduledTask} (ht : task ∈ tasks pool.stages)
    (hf : task.id ∈ pool.inFlight) {status : TaskStatus} (hs : status ≠ .running) :
    Inv (complete pool task status).1 := by
  obtain ⟨A, B, hsplit, hrun, htasks, hperm, hkeys, hnum⟩ := complete_spec hi ht hf status
  have hcount := hi.count
  rw [hsplit, List.countP_append, List.countP_cons, hrun] at hcount
  simp only [if_true] at hcount
  have hmax : (Threads.complete pool task status).1.maxThreads = pool.maxThreads ∧
      (Threads.complete pool task status).1.created = pool.created ∧
        (Threads.complete pool task status).1.runningThreads = pool.runningThreads - 1 := by
    unfold Threads.complete
    split_ifs <;> exact ⟨rfl, rfl, rfl⟩
  have hids := hi.ids
  rw [hsplit] at hids
  have hnew : isRunning { task with status } = false := decide_eq_false hs
  -- what is left of the instances, with their states
  have hsub : ∀ t ∈ tasks (Threads.complete pool task status).1.stages,
      t ∈ A ++ B ∨ status ≠ .finished ∧ t = { task with status } := by
    intro t ht
    rw [htasks] at ht
    rcases List.mem_append.mp ht with ht | ht
    · exact Or.inl (List.mem_append_left _ ht)
    · split_ifs at ht with hfin
      · exact Or.inl (List.mem_append_right _ ht)
      · rcases List.mem_cons.mp ht with rfl | ht
        · exact Or.inr ⟨hfin, rfl⟩
        · exact Or.inl (List.mem_append_right _ ht)
  have hold : ∀ t ∈ A ++ B, t ∈ tasks pool.stages := by
    intro t ht
    rw [hsplit]
    rcases List.mem_append.mp ht with ht | ht
    · exact List.mem_append_left _ ht
    · exact List.mem_append_right _ (List.mem_cons_of_mem _ ht)
  have hsubl : ((tasks (Threads.complete pool task status).1.stages).map (·.id)).Sublist
      ((tasks pool.stages).map (·.id)) := by
    rw [htasks, hsplit, List.map_append, List.map_append]
    refine List.Sublist.append (.refl _) ?_
    split_ifs
    · exact List.sublist_cons_self _ _
    · exact .refl _
  constructor
  · rw [hmax.2.2, htasks, List.countP_append]
    split_ifs
    · omega
    · rw [List.countP_cons, hnew]
      simp only [Bool.false_eq_true, if_false]
      omega
  · have := hi.le
    omega
  · exact hi.ids.sublist hsubl
  · intro t ht
    rw [hmax.2.1]
    rcases hsub t ht with h | ⟨-, rfl⟩
    · exact hi.created t (hold t h)
    · exact hi.created task (by rw [hsplit]; simp)
  · refine hperm.trans ?_
    rw [htasks]
    split_ifs
    · exact .refl _
    · rw [List.filter_append, List.filter_append,
        List.filter_cons_of_neg (by rw [hnew]; exact Bool.false_ne_true)]
  · exact hnum
  · exact hi.sorted.sublist hkeys
  · intro t ht
    rcases hsub t ht with h | ⟨hfin, rfl⟩
    · exact hi.notFinished t (hold t h)
    · exact hfin
  · intro id hid
    rw [hmax.2.1]
    have hcase : id ∈ pool.finished ∨ status = .finished ∧ id = task.id := by
      unfold Threads.complete at hid
      split_ifs at hid with hfin
      · rcases List.mem_append.mp hid with hid | hid
        · exact Or.inl hid
        · exact Or.inr ⟨hfin, List.mem_singleton.mp hid⟩
      · exact Or.inl hid
    rcases hcase with hid | ⟨hfin, rfl⟩
    · obtain ⟨h1, h2⟩ := hi.gone id hid
      exact ⟨h1, fun hm => h2 (hsubl.subset hm)⟩
    · refine ⟨hi.created task ht, fun hm => ?_⟩
      rw [htasks, if_pos hfin] at hm
      rw [List.map_append, List.map_cons, List.nodup_middle, List.nodup_cons, ← List.map_append] at hids
      exact hids.1 hm

/-! ### Scheduling a task -/

/-- The stage of the task is put in the place of an old one, if there is one. -/
theorem putStage_spec (num : ℕ) (stage : List ScheduledTask) :
    ∀ {stages : List (ℕ × List ScheduledTask)}, (stages.map Prod.fst).Pairwise (· < ·) →
      ∃ l₁ old l₂, stages = l₁ ++ (old ++ l₂) ∧ putStage num stage stages = l₁ ++ (num, stage) :: l₂ ∧
        (∀ s ∈ l₁, s.1 < num) ∧ (∀ s ∈ old, s.1 = num) ∧ ∀ s ∈ l₂, num < s.1
  | [], _ => ⟨[], [], [], rfl, rfl, by simp, by simp, by simp⟩
  | s :: stages, h => by
    rw [List.map_cons, List.pairwise_cons] at h
    have hlater : ∀ s' ∈ stages, s.1 < s'.1 := fun s' hs' => h.1 _ (List.mem_map_of_mem hs')
    rw [putStage]
    split_ifs with hlt heq
    · refine ⟨[], [], s :: stages, rfl, rfl, by simp, by simp, fun s' hs' => ?_⟩
      rcases List.mem_cons.mp hs' with rfl | hs'
      · exact hlt
      · exact hlt.trans (hlater s' hs')
    · exact ⟨[], [s], stages, rfl, rfl, by simp, by simpa using heq.symm,
        fun s' hs' => heq ▸ hlater s' hs'⟩
    · obtain ⟨l₁, old, l₂, rfl, hput, h1, h2, h3⟩ := putStage_spec num stage h.2
      refine ⟨s :: l₁, old, l₂, rfl, by rw [hput]; rfl, fun s' hs' => ?_, h2, h3⟩
      rcases List.mem_cons.mp hs' with rfl | hs'
      · omega
      · exact h1 s' hs'

/-- The new instances. -/
def newStage (pool : ThreadPool) (num n : ℕ) : List ScheduledTask :=
  (List.range n).map fun i => ⟨pool.created + i, num, .notStarted⟩

theorem scheduleFuture_eq (pool : ThreadPool) (num maxInstances : ℕ) :
    ∃ n, scheduleFuture pool num maxInstances =
      { pool with
        stages := putStage num (newStage pool num n) pool.stages
        created := pool.created + n } := ⟨_, rfl⟩

theorem mem_newStage {num n : ℕ} {t : ScheduledTask} (h : t ∈ newStage pool num n) :
    pool.created ≤ t.id ∧ t.id < pool.created + n ∧ t.num = num ∧ t.status = .notStarted := by
  obtain ⟨i, hi, rfl⟩ := List.mem_map.mp h
  rw [List.mem_range] at hi
  exact ⟨by simp, by simpa using hi, rfl, rfl⟩

/-- After scheduling a task there are the instances of the other tasks and the new ones. -/
theorem schedule_spec (hi : Inv pool) (num maxInstances : ℕ) :
    ∃ n l₁ old l₂, pool.stages = l₁ ++ (old ++ l₂) ∧
      scheduleFuture pool num maxInstances =
        { pool with
          stages := l₁ ++ (num, newStage pool num n) :: l₂
          created := pool.created + n } ∧
      (∀ s ∈ l₁, s.1 < num) ∧ (∀ s ∈ old, s.1 = num) ∧ ∀ s ∈ l₂, num < s.1 := by
  obtain ⟨n, hn⟩ := scheduleFuture_eq pool num maxInstances
  obtain ⟨l₁, old, l₂, hsplit, hput, h1, h2, h3⟩ := putStage_spec num (newStage pool num n) hi.sorted
  exact ⟨n, l₁, old, l₂, hsplit, by rw [hn, hput], h1, h2, h3⟩

theorem countP_newStage (num n : ℕ) : (newStage pool num n).countP isRunning = 0 := by
  rw [List.countP_eq_zero]
  intro t ht hr
  have hr' : t.status = .running := of_decide_eq_true hr
  rw [(mem_newStage ht).2.2.2] at hr'
  cases hr'

/-- **The invariant is kept when a task is scheduled** that is not running. -/
theorem Inv.schedule (hi : Inv pool) {num maxInstances : ℕ}
    (hm : Meets pool (.schedule num maxInstances)) : Inv (scheduleFuture pool num maxInstances) := by
  obtain ⟨n, l₁, old, l₂, hsplit, hs, h1, h2, h3⟩ := schedule_spec hi num maxInstances
  have hold : (tasks old).filter isRunning = [] := by
    rw [List.filter_eq_nil_iff]
    intro t ht hr
    obtain ⟨s, hso, hts⟩ := List.mem_flatMap.mp ht
    refine hm s ?_ (h2 s hso) t hts (of_decide_eq_true hr)
    rw [hsplit]
    exact List.mem_append_right _ (List.mem_append_left _ hso)
  have hnew : (newStage pool num n).filter isRunning = [] := by
    rw [← List.length_eq_zero_iff, ← List.countP_eq_length_filter]
    exact countP_newStage num n
  have hpool : tasks pool.stages = tasks l₁ ++ (tasks old ++ tasks l₂) := by
    rw [hsplit, tasks_append, tasks_append]
  have htasks : tasks (l₁ ++ (num, newStage pool num n) :: l₂) =
      tasks l₁ ++ (newStage pool num n ++ tasks l₂) := by
    rw [tasks_append, tasks_cons]
  have hfilter : (tasks l₁ ++ (newStage pool num n ++ tasks l₂)).filter isRunning =
      (tasks pool.stages).filter isRunning := by
    rw [hpool, List.filter_append, List.filter_append, List.filter_append, List.filter_append, hold,
      hnew]
  have hother : ∀ t, t ∈ tasks l₁ ∨ t ∈ tasks l₂ → t ∈ tasks pool.stages := by
    intro t ht
    rw [hpool]
    rcases ht with ht | ht
    · exact List.mem_append_left _ ht
    · exact List.mem_append_right _ (List.mem_append_right _ ht)
  have hmem : ∀ t ∈ tasks l₁ ++ (newStage pool num n ++ tasks l₂),
      t ∈ newStage pool num n ∨ t ∈ tasks pool.stages := by
    intro t ht
    rcases List.mem_append.mp ht with ht | ht
    · exact Or.inr (hother t (Or.inl ht))
    · rcases List.mem_append.mp ht with ht | ht
      · exact Or.inl ht
      · exact Or.inr (hother t (Or.inr ht))
  rw [hs]
  constructor
  · rw [htasks, List.countP_eq_length_filter, hfilter, ← List.countP_eq_length_filter]
    exact hi.count
  · exact hi.le
  · rw [htasks]
    have hids := hi.ids
    rw [hpool] at hids
    simp only [List.map_append, List.nodup_append, List.mem_append] at hids ⊢
    obtain ⟨ha, ⟨-, hc, -⟩, hac⟩ := hids
    have hn : ((newStage pool num n).map (·.id)).Nodup := by
      rw [newStage, List.map_map]
      exact List.Nodup.map (fun a b h => by simpa using h) List.nodup_range
    have hdis : ∀ t, t ∈ tasks l₁ ∨ t ∈ tasks l₂ → ∀ b ∈ (newStage pool num n).map (·.id),
        t.id ≠ b := by
      intro t ht b hb he
      obtain ⟨u, hu, rfl⟩ := List.mem_map.mp hb
      have h4 := (mem_newStage hu).1
      have h5 := hi.created t (hother t ht)
      omega
    refine ⟨ha, ⟨hn, hc, fun a ha' b hb he => ?_⟩, fun a ha' b hb => ?_⟩
    · obtain ⟨t, ht, rfl⟩ := List.mem_map.mp hb
      exact hdis t (Or.inr ht) a ha' he.symm
    · rcases hb with hb | hb
      · obtain ⟨t, ht, rfl⟩ := List.mem_map.mp ha'
        exact hdis t (Or.inl ht) b hb
      · exact hac a ha' b (Or.inr hb)
  · intro t ht
    rw [htasks] at ht
    rcases hmem t ht with ht | ht
    · exact (mem_newStage ht).2.1
    · exact (hi.created t ht).trans_le (Nat.le_add_right _ _)
  · rw [htasks, hfilter]
    exact hi.inFlight
  · intro s hs t ht
    have hnum := hi.num
    rw [hsplit] at hnum
    rcases List.mem_append.mp hs with hs | hs
    · exact hnum s (List.mem_append_left _ hs) t ht
    · rcases List.mem_cons.mp hs with rfl | hs
      · exact (mem_newStage ht).2.2.1
      · exact hnum s (List.mem_append_right _ (List.mem_append_right _ hs)) t ht
  · have hsorted := hi.sorted
    rw [hsplit] at hsorted
    simp only [List.map_append, List.map_cons, List.pairwise_append, List.pairwise_cons] at hsorted ⊢
    obtain ⟨ha, ⟨-, hc, -⟩, -⟩ := hsorted
    refine ⟨ha, ⟨fun k hk => ?_, hc⟩, fun k hk k' hk' => ?_⟩
    · obtain ⟨s, hs, rfl⟩ := List.mem_map.mp hk
      exact h3 s hs
    · obtain ⟨s, hs, rfl⟩ := List.mem_map.mp hk
      have h4 := h1 s hs
      rcases List.mem_cons.mp hk' with rfl | hk'
      · exact h4
      · obtain ⟨s', hs', rfl⟩ := List.mem_map.mp hk'
        exact h4.trans (h3 s' hs')
  · intro t ht
    rw [htasks] at ht
    rcases hmem t ht with ht | ht
    · rw [(mem_newStage ht).2.2.2]
      exact fun h => nomatch h
    · exact hi.notFinished t ht
  · intro id hid
    obtain ⟨h4, h5⟩ := hi.gone id hid
    refine ⟨h4.trans_le (Nat.le_add_right _ _), fun hm => ?_⟩
    rw [htasks] at hm
    obtain ⟨t, ht, rfl⟩ := List.mem_map.mp hm
    rcases hmem t ht with ht | ht
    · have := (mem_newStage ht).1
      omega
    · exact h5 (List.mem_map_of_mem ht)

/-! ### Rescheduling -/

/-- The stage the loop starts with is there. -/
theorem scheduleStrategy_lt {stages : List (ℕ × List ScheduledTask)} (hne : stages ≠ [])
    {task : Option (ℕ × TaskStatus)} (htask : ∀ num status, task = some (num, status) →
      ∃ s ∈ stages, s.1 = num) : scheduleStrategy stages task < stages.length := by
  have hpos := List.length_pos_iff.mpr hne
  rcases task with _ | ⟨num, status⟩
  · exact hpos
  · obtain ⟨s, hs, hnum⟩ := htask num status rfl
    have hfind : stages.findIdx (fun s => s.1 = num) < stages.length :=
      List.findIdx_lt_length_of_exists ⟨s, hs, decide_eq_true hnum⟩
    cases status with
    | finished => exact hpos
    | _ =>
      simp only [scheduleStrategy]
      split_ifs <;> omega

/-- **`rescheduleTask` ends**, keeps what starting an instance keeps, and leaves a saturated pool. -/
theorem startTasks_spec (P : ThreadPool → Prop)
    (hP : ∀ pool pool' t, P pool → pool.runningThreads < pool.maxThreads → Starts pool pool' t →
      P pool') (hp : P pool) (hle : pool.runningThreads ≤ pool.maxThreads)
    {task : Option (ℕ × TaskStatus)} (htask : ∀ num status, task = some (num, status) →
      ∃ s ∈ pool.stages, s.1 = num) :
    ∃ pool', Returns (fun n => startTasks n pool task) pool' ∧ P pool' ∧ Saturated pool' := by
  by_cases hne : pool.stages = []
  · refine ⟨pool, ⟨0, fun n _ => if_pos hne⟩, hp, Or.inr fun t ht => ?_⟩
    rw [hne] at ht
    cases ht
  · have hlt := scheduleStrategy_lt hne htask
    obtain ⟨pool', hr, hp', hs⟩ := startLoop_spec P hP hlt _ 0 false pool rfl
      (Nat.zero_lt_of_lt hlt) hp hle (fun _ j hj => absurd hj (Nat.not_lt_zero j)) le_rfl
    have hzero : place pool.stages.length (scheduleStrategy pool.stages task) 0 =
        scheduleStrategy pool.stages task := by
      unfold place
      rw [if_pos (by omega), Nat.add_zero]
    rw [hzero] at hr
    refine ⟨pool', ?_, hp', hs.imp_right fun h t ht hf => ?_⟩
    · have heq : (fun n => startTasks n pool task) = fun n => startLoop
          (scheduleStrategy pool.stages task) n (scheduleStrategy pool.stages task) false pool := by
        funext n
        rw [startTasks, if_neg hne]
      rw [heq]
      exact hr
    · have hst := h t ht
      simp only [startable, Bool.and_eq_false_iff, decide_eq_false_iff_not, not_not] at hst
      exact hst.resolve_left hf

/-- The pool a call starts tasks in. -/
def afterComplete (pool : ThreadPool) : Option (ScheduledTask × TaskStatus) →
    ThreadPool × Option (ℕ × TaskStatus)
  | none => (pool, none)
  | some (task, status) => complete pool task status

theorem rescheduleTask_eq (n : ℕ) (pool : ThreadPool) (task : Option (ScheduledTask × TaskStatus)) :
    rescheduleTask n pool task = startTasks n (afterComplete pool task).1 (afterComplete pool task).2 := by
  cases task <;> rfl

/-- The task whose step was completed has a stage, if it is not finished. -/
theorem stage_of_completed (hi : Inv pool) {task : ScheduledTask} (ht : task ∈ tasks pool.stages)
    (hf : task.id ∈ pool.inFlight) {status : TaskStatus} {num : ℕ} {status' : TaskStatus}
    (h : (complete pool task status).2 = some (num, status')) :
    ∃ s ∈ (complete pool task status).1.stages, s.1 = num := by
  obtain ⟨A, B, -, -, htasks, -, -, hnum⟩ := complete_spec hi ht hf status
  have hcase : status ≠ .finished ∧ num = task.num := by
    unfold complete at h
    split_ifs at h with hfin
    · rw [Option.some.injEq, Prod.mk.injEq] at h
      exact ⟨hfin, h.1.symm⟩
  rw [if_neg hcase.1] at htasks
  have hmem : { task with status } ∈ tasks (complete pool task status).1.stages := by
    rw [htasks]
    simp
  obtain ⟨s, hs, hts⟩ := List.mem_flatMap.mp hmem
  exact ⟨s, hs, by rw [← hnum s hs _ hts, hcase.2]⟩

theorem call_cases {e : Event} {task : Option (ScheduledTask × TaskStatus)}
    (h : e.call pool = some task) : task = none ∨ ∃ t status, task = some (t, status) ∧
      e = .completed t status ∧ t ∈ tasks pool.stages ∧ t.id ∈ pool.inFlight := by
  cases e with
  | schedule num n => cases h
  | reschedule => exact Or.inl (Option.some.inj h).symm
  | completed t status =>
    rw [Event.call] at h
    split_ifs at h with hc
    exact Or.inr ⟨t, status, (Option.some.inj h).symm, rfl, hc⟩

/-- **A call of `rescheduleTask`** in a pool with the invariant. -/
theorem call_spec (hi : Inv pool) {e : Event} {task : Option (ScheduledTask × TaskStatus)}
    (h : e.call pool = some task) (hm : Meets pool e) :
    ∃ pool', Returns (fun n => rescheduleTask n pool task) pool' ∧ Inv pool' ∧ Saturated pool' := by
  have hP : ∀ pool pool' t, Inv pool → pool.runningThreads < pool.maxThreads →
      Starts pool pool' t → Inv pool' := fun _ _ _ hi hlt hst => hi.starts hlt hst
  simp only [rescheduleTask_eq]
  rcases call_cases h with rfl | ⟨t, status, rfl, rfl, ht, hf⟩
  · exact startTasks_spec Inv hP hi hi.le fun _ _ h => nomatch h
  · have hi' : Inv (complete pool t status).1 := hi.complete ht hf hm
    exact startTasks_spec Inv hP hi' hi'.le fun _ _ h => stage_of_completed hi ht hf h

/-- A step that leaves its instance running leaves one more running instance than is counted. -/
theorem not_consistent_of_running (hi : Inv pool) {t : ScheduledTask} (ht : t ∈ tasks pool.stages)
    (hf : t.id ∈ pool.inFlight)
    (hr : Returns (fun n => rescheduleTask n pool (some (t, .running))) pool') :
    ¬ Consistent pool' := by
  obtain ⟨A, B, hsplit, hrun, htasks, -, -, -⟩ := complete_spec hi ht hf .running
  have hcount := hi.count
  rw [hsplit, List.countP_append, List.countP_cons, hrun] at hcount
  have hnew : isRunning { t with status := .running } = true := rfl
  have hoff : (complete pool t .running).1.runningThreads + 1 =
      (tasks (complete pool t .running).1.stages).countP isRunning := by
    rw [htasks, if_neg (by decide), List.countP_append, List.countP_cons, hnew]
    show pool.runningThreads - 1 + 1 = _
    simp only [if_true] at hcount ⊢
    omega
  have hle : (complete pool t .running).1.runningThreads ≤ (complete pool t .running).1.maxThreads := by
    show pool.runningThreads - 1 ≤ pool.maxThreads
    have := hi.le
    omega
  obtain ⟨pool₁, hr₁, hoff₁, -⟩ := startTasks_spec
    (fun pool => pool.runningThreads + 1 = (tasks pool.stages).countP isRunning)
    (fun _ _ _ h _ hst => by rw [hst.running, hst.countP, h]) hoff hle
    fun _ _ h => stage_of_completed hi ht hf h
  simp only [rescheduleTask_eq] at hr
  rw [hr.unique hr₁]
  intro hc
  have := hc.count
  omega

/-- A task that is scheduled again while it runs leaves more threads counted than run. -/
theorem not_consistent_of_schedule (hi : Inv pool) {num maxInstances : ℕ}
    (hm : ¬ Meets pool (.schedule num maxInstances)) :
    ¬ Consistent (scheduleFuture pool num maxInstances) := by
  obtain ⟨n, l₁, old, l₂, hsplit, hs, h1, h2, h3⟩ := schedule_spec hi num maxInstances
  intro hc
  have hcount := hc.count
  rw [hs] at hcount
  simp only [tasks_append, tasks_cons, List.countP_append, countP_newStage] at hcount
  have hcount' := hi.count
  rw [hsplit, tasks_append, tasks_append, List.countP_append, List.countP_append] at hcount'
  have hzero : (tasks old).countP isRunning = 0 := by omega
  refine hm fun s hss hnum t ht hrun => ?_
  have hso : s ∈ old := by
    rw [hsplit] at hss
    rcases List.mem_append.mp hss with hss | hss
    · have := h1 s hss
      omega
    · rcases List.mem_append.mp hss with hss | hss
      · exact hss
      · have := h3 s hss
        omega
  exact List.countP_eq_zero.mp hzero t (List.mem_flatMap.mpr ⟨s, hso, ht⟩) (decide_eq_true hrun)

theorem inv_step {e : Event} (hi : Inv pool) (hm : Meets pool e) (h : Step e pool pool') : Inv pool' := by
  cases h with
  | schedule num n => exact hi.schedule hm
  | call hc hr =>
    obtain ⟨pool₁, hr₁, hi₁, -⟩ := call_spec hi hc hm
    rw [hr.unique hr₁]
    exact hi₁

theorem breaks_step {e : Event} (hi : Inv pool) (hm : ¬ Meets pool e) (h : Step e pool pool') :
    ¬ Consistent pool' := by
  cases h with
  | schedule num n => exact not_consistent_of_schedule hi hm
  | call hc hr =>
    rcases call_cases hc with rfl | ⟨t, status, rfl, rfl, ht, hf⟩
    · cases e with
      | schedule num n => cases hc
      | reschedule => exact absurd trivial hm
      | completed t status =>
        rw [Event.call] at hc
        split_ifs at hc
        cases hc
    · rw [Meets, not_not] at hm
      subst hm
      exact not_consistent_of_running hi ht hf hr

/-- **The pool stays consistent exactly while its steps meet the conditions**, and then every call of
`rescheduleTask` ends and leaves a saturated pool. -/
theorem pool_run {past : List (ThreadPool × Event)} (h : Run Init Step past pool) :
    ((Consistent pool ∧ ∀ p ∈ past, Consistent p.1) ↔ ∀ p ∈ past, Meets p.1 p.2) ∧
      ((∀ p ∈ past, Meets p.1 p.2) → ∀ e task, e.call pool = some task → Meets pool e →
        ∃ pool', Returns (fun n => rescheduleTask n pool task) pool' ∧ Saturated pool') := by
  constructor
  · exact h.holds_iff Inv (fun _ => inv_init) (fun _ _ _ hi hm hs => inv_step hi hm hs)
      (fun _ hi => hi.consistent) fun _ _ _ hi hm hs => breaks_step hi hm hs
  · intro hmeets e task hc hm
    obtain ⟨hi, -⟩ := h.invariant Inv Meets (fun _ => inv_init)
      (fun _ _ _ hi hm hs => inv_step hi hm hs) hmeets
    obtain ⟨pool', hr, -, hs⟩ := call_spec hi hc hm
    exact ⟨pool', hr, hs⟩

/-! ### A pool with one thread and one task -/

def newPool : ThreadPool := ⟨1, 0, [], 0, [], []⟩

/-- The instance of the task runs. -/
def startedPool : ThreadPool := ⟨1, 1, [(1, [⟨0, 1, .running⟩])], 1, [0], []⟩

def startedPast : List (ThreadPool × Event) :=
  [(scheduleFuture newPool 1 1, .reschedule), (newPool, .schedule 1 1)]

theorem run_started : Run Init Step startedPast startedPool := by
  refine .step (.step (.start ⟨1, rfl⟩) (.schedule 1 1 newPool)) (.call rfl ⟨2, fun n hn => ?_⟩)
  obtain ⟨m, rfl⟩ : ∃ m, n = m + 2 := ⟨n - 2, by omega⟩
  rfl

theorem pool_run_started : (Consistent startedPool ∧ ∀ p ∈ startedPast, Consistent p.1) ∧
    ∃ pool', Returns (fun n => rescheduleTask n startedPool (some (⟨0, 1, .running⟩, .yield))) pool' ∧
      Saturated pool' := by
  have hmeets : ∀ p ∈ startedPast, Meets p.1 p.2 := by
    intro p hp
    rcases List.mem_cons.mp hp with rfl | hp
    · exact trivial
    · rw [List.mem_singleton.mp hp]
      exact fun s hs => nomatch hs
  obtain ⟨hcons, hcall⟩ := pool_run run_started
  refine ⟨hcons.mpr hmeets, hcall hmeets (.completed ⟨0, 1, .running⟩ .yield) _ ?_ ?_⟩
  · rw [Event.call, if_pos (by decide)]
  · exact fun h => nomatch h

/-- A step that leaves the instance running, and the task scheduled again while it runs. -/
theorem pool_inconsistent :
    (∃ past pool, Run Init Step ((startedPool, .completed ⟨0, 1, .running⟩ .running) :: past) pool ∧
      ¬ Consistent pool) ∧
    ∃ past pool, Run Init Step ((startedPool, .schedule 1 1) :: past) pool ∧ ¬ Consistent pool := by
  constructor
  · have hcall : Event.call startedPool (.completed ⟨0, 1, .running⟩ .running) =
        some (some (⟨0, 1, .running⟩, .running)) := by
      rw [Event.call, if_pos (by decide)]
    refine ⟨startedPast, ⟨1, 0, [(1, [⟨0, 1, .running⟩])], 1, [], []⟩,
      .step run_started (.call hcall ⟨2, fun n hn => ?_⟩), fun h => ?_⟩
    · obtain ⟨m, rfl⟩ : ∃ m, n = m + 2 := ⟨n - 2, by omega⟩
      rfl
    · have hc := h.count
      revert hc
      decide
  · refine ⟨startedPast, _, .step run_started (.schedule 1 1 startedPool), fun h => ?_⟩
    have hc := h.count
    revert hc
    decide

end Joda.Scheduling.Threads
