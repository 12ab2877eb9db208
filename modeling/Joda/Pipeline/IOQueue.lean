import Joda.Concurrency.MPMCRuns
import Joda.Pipeline.Executor

/-! # When the queue between tasks is finished

A task of a pipeline is a template; what runs are its clones. A `PipelineIOQueue` counts the producers
that are registered: every template with this queue as its output from the planning on, and every one of
its clones until it has finished. The first clone of a template takes the reservation of the template
over. `Pipeline::defaultSchedule` makes all clones of the asynchronous tasks before the first of them
runs, then it clones and executes the synchronous tasks one after the other.

The main thread, the clones and the queue run interleaved. A consumer leaves its input loop when it finds
no producer and then the size 0, in two loads of the counters; from then on nothing is left in the
queue and nothing can come. -/

namespace Joda.Pipeline.IOQueue

open Joda.Lib.Custody Joda.Lib.Runs Joda.Pipeline.Executor
open Joda.Concurrency

/-- What the queue is to a task. -/
inductive Role where
  | producer | consumer | other
  deriving DecidableEq

/-- A template. -/
structure Task where
  num : ℕ
  async : AsyncType
  role : Role
  deriving DecidableEq

structure Config where
  maxThreads : ℕ
  subtasks : List Task
  nodup : subtasks.Nodup
  queue : MPMCQueue.Config

/-- The clones that `scheduleFuture` makes. -/
def scheduleFuture (maxThreads maxInstances : ℕ) : ℕ :=
  let maxInstances := if maxInstances = 0 then maxThreads else maxInstances
  if maxInstances > maxThreads then maxThreads else maxInstances

/-- What is left to do for the main thread. -/
inductive Op where
  /-- the registration of a clone, in `PipelineIOTask::clone` -/
  | clone (t : Task) (k : ℕ)
  /-- the end of `PipelineIOTask::clone` -/
  | release (t : Task) (k : ℕ)
  | reschedule
  /-- at `while (task_clone->execute(..) != FINISHED)` -/
  | await (t : Task) (k : ℕ)
  deriving DecidableEq

def asyncOps (maxThreads : ℕ) (t : Task) : List Op :=
  match t.async with
  | .synchronous => []
  | .singleThreaded => (List.range (scheduleFuture maxThreads 1)).map (.clone t)
  | .multiThreaded => (List.range (scheduleFuture maxThreads 0)).map (.clone t)

def syncOps (t : Task) : List Op :=
  match t.async with
  | .synchronous => [.reschedule, .clone t 0, .await t 0]
  | _ => []

def Config.defaultSchedule (cfg : Config) : List Op :=
  cfg.subtasks.flatMap (asyncOps cfg.maxThreads) ++ cfg.subtasks.flatMap syncOps

/-- A task with the number of its clone. -/
abbrev Clone := Task × ℕ

/-- Where a clone is. -/
inductive Phase where
  | absent
  | running
  /-- in `isFinished`, past `producers.load() == 0` -/
  | noProducers
  /-- in `size`, with what was loaded first -/
  | loadedHead (head : ℕ)
  | loadedTail (tail : ℕ)
  /-- past the input loop, or `FINISHED` -/
  | done
  deriving DecidableEq

structure State (cfg : Config) (T : Type) where
  queue : MPMCQueue.State cfg.queue Clone T
  producers : ℕ
  /-- the template has not given up its reservation -/
  reserved : Task → Bool
  phase : Clone → Phase
  main : List Op
  /-- the thread pool was told to reschedule -/
  started : Bool

variable {cfg : Config} {T : Type}

namespace State

def setPhase (s : State cfg T) (i : Clone) (p : Phase) : State cfg T :=
  { s with phase := Function.update s.phase i p }

def registerProducer (s : State cfg T) (r : Role) : State cfg T :=
  { s with producers := if r = .producer then s.producers + 1 else s.producers }

def unregisterProducer (s : State cfg T) (r : Role) : State cfg T :=
  { s with producers := if r = .producer then s.producers - 1 else s.producers }

end State

/-- **A step of the main thread.** -/
def mainStep (s : State cfg T) : Option (State cfg T) :=
  match s.main with
  | [] => none
  | .clone t k :: ops =>
    some { (s.registerProducer t.role).setPhase (t, k) .running with main := .release t k :: ops }
  | .release t _ :: ops =>
    some (if s.reserved t then
      { s.unregisterProducer t.role with main := ops, reserved := Function.update s.reserved t false }
    else { s with main := ops })
  | .reschedule :: ops => some { s with main := ops, started := true }
  | .await t k :: ops => if s.phase (t, k) = .done then some { s with main := ops } else none

inductive Action (T : Type) where
  | main
  /-- an access to the queue, in a call of `execute` -/
  | queue (i : Clone) (a : MPMCQueue.Action T)
  /-- `execute` gives `FINISHED` without an input from this queue -/
  | finish (i : Clone)
  /-- the next load of `isFinished` -/
  | loadProducers (i : Clone)
  | loadHead (i : Clone)
  | loadTail (i : Clone)

/-- The calls that the executors make. -/
def Role.calls : Role → MPMCQueue.Call T → Bool
  | .producer, .emplace _ | .producer, .tryEmplace _ | .consumer, .tryPop => true
  | _, _ => false

def Role.allows (r : Role) : MPMCQueue.Action T → Bool
  | .call c => r.calls c
  | .run => true

/-- The end of `isFinished`, with both counters loaded. -/
def Phase.ofSize (head tail : ℕ) : Phase := if head = tail then .done else .running

/-- **One step** of the main thread or of a clone. -/
inductive Step : Action T → State cfg T → State cfg T → Prop
  | main {s s' : State cfg T} (h : mainStep s = some s') : Step .main s s'
  | queue {s : State cfg T} {i : Clone} {a : MPMCQueue.Action T}
      {q : MPMCQueue.State cfg.queue Clone T} (hs : s.started = true) (hi : s.phase i = .running)
      (ha : i.1.role.allows a = true) (h : MPMCQueue.Step (i, a) s.queue q) :
      Step (.queue i a) s { s with queue := q }
  | finish {s : State cfg T} {i : Clone} (hs : s.started = true) (hi : s.phase i = .running)
      (hrole : i.1.role ≠ .consumer) (hout : (s.queue.pc i).inside = false) :
      Step (.finish i) s ((s.unregisterProducer i.1.role).setPhase i .done)
  | loadProducers {s : State cfg T} {i : Clone} (hs : s.started = true) (hi : s.phase i = .running)
      (hrole : i.1.role = .consumer) (hout : (s.queue.pc i).inside = false) :
      Step (.loadProducers i) s (s.setPhase i (if s.producers = 0 then .noProducers else .running))
  | loadHead {s : State cfg T} {i : Clone} (hrole : i.1.role = .consumer)
      (hi : s.phase i = .noProducers) :
      Step (.loadHead i) s (s.setPhase i (.loadedHead s.queue.head))
  | loadTail {s : State cfg T} {i : Clone} (hrole : i.1.role = .consumer)
      (hi : s.phase i = .noProducers) :
      Step (.loadTail i) s (s.setPhase i (.loadedTail s.queue.tail))
  | sizeTail {s : State cfg T} {i : Clone} {head : ℕ} (hrole : i.1.role = .consumer)
      (hi : s.phase i = .loadedHead head) :
      Step (.loadTail i) s (s.setPhase i (.ofSize head s.queue.tail))
  | sizeHead {s : State cfg T} {i : Clone} {tail : ℕ} (hrole : i.1.role = .consumer)
      (hi : s.phase i = .loadedTail tail) :
      Step (.loadHead i) s (s.setPhase i (.ofSize s.queue.head tail))

/-- After the planning: every template is registered at its output queue. -/
structure Init (s : State cfg T) : Prop where
  queue : MPMCQueue.Init s.queue
  producers : s.producers = (cfg.subtasks.filter fun t => t.role = .producer).length
  reserved : ∀ t, s.reserved t = true
  phase : ∀ i, s.phase i = .absent
  main : s.main = cfg.defaultSchedule
  started : s.started = false

/-! ### The invariant -/

/-- A template or a clone that counts as a producer. -/
def Registered (s : State cfg T) : Task ⊕ Clone → Prop
  | .inl t => t ∈ cfg.subtasks ∧ t.role = .producer ∧ s.reserved t = true
  | .inr i => i.1.role = .producer ∧ s.phase i = .running

/-- Of the clones still to make: those of a synchronous task are one, those of an asynchronous one are
made before the thread pool starts. -/
def Once (started : Bool) (t : Task) (ops : List Op) : Prop :=
  if t.async = .synchronous then ∀ k, .clone t k ∉ ops else started = false

def Planned (cfg : Config) : Bool → List Op → Prop
  | _, [] => True
  | started, .clone t k :: ops =>
    t ∈ cfg.subtasks ∧ .clone t k ∉ ops ∧ Once started t ops ∧ Planned cfg started ops
  | started, .release t _ :: ops => t ∈ cfg.subtasks ∧ Once started t ops ∧ Planned cfg started ops
  | _, .reschedule :: ops =>
    (∀ t k, .clone t k ∈ ops → t.async = .synchronous) ∧ Planned cfg true ops
  | started, .await _ _ :: ops => Planned cfg started ops

/-- What a consumer knows in `isFinished` and after it. -/
def Finds (s : State cfg T) : Phase → Prop
  | .noProducers => s.producers = 0
  | .loadedHead head => s.producers = 0 ∧ head = s.queue.head
  | .loadedTail tail => s.producers = 0 ∧ tail ≤ s.queue.tail
  | .done => s.producers = 0 ∧ s.queue.tail = s.queue.head
  | _ => True

/-- The calls that a clone can be in. -/
def Legal (r : Role) (pc : MPMCQueue.Pc T) : Prop :=
  pc.inside = true → (r = .producer ∧ pc.produces = true) ∨ (r = .consumer ∧ pc.tries = true)

structure Inv (s : State cfg T) : Prop where
  queue : MPMCQueue.Inv s.queue
  le : s.queue.tail ≤ s.queue.head
  legal : ∀ i : Clone, Legal i.1.role (s.queue.pc i)
  idle : ∀ i, s.phase i ≠ .running → (s.queue.pc i).inside = false
  counted : Counted (Registered s) s.producers
  fresh : s.started = false → ∀ i, s.phase i = .absent ∨ s.phase i = .running
  planned : Planned cfg s.started s.main
  /-- a clone still to make is not there yet, and the reservation of its template is not given up
  unless another clone has it -/
  pending : ∀ t k, .clone t k ∈ s.main → s.phase (t, k) = .absent ∧ (s.reserved t = true ∨
    t.async ≠ .synchronous ∧ s.started = false ∧ ∃ k, s.phase (t, k) = .running)
  releasing : ∀ t k, .release t k ∈ s.main → s.phase (t, k) ≠ .absent
  finds : ∀ i : Clone, i.1.role = .consumer → Finds s (s.phase i)

section facts

variable {s s' : State cfg T} {i : Clone}

@[simp] theorem phase_setPhase (p : Phase) (j : Clone) :
    (s.setPhase i p).phase j = if j = i then p else s.phase j :=
  Function.update_apply ..

theorem Planned.clone_mem {started : Bool} : ∀ {ops : List Op}, Planned cfg started ops →
    ∀ {t k}, .clone t k ∈ ops → t ∈ cfg.subtasks := by
  intro ops
  induction ops generalizing started with
  | nil => exact fun _ _ _ hm => absurd hm List.not_mem_nil
  | cons op ops ih =>
    intro h t k hm
    cases op with
    | clone u l =>
      rcases List.mem_cons.mp hm with heq | hm
      · cases heq
        exact h.1
      · exact ih h.2.2.2 hm
    | release u l => exact ih h.2.2 (List.mem_of_ne_of_mem (by simp) hm)
    | reschedule => exact ih h.2 (List.mem_of_ne_of_mem (by simp) hm)
    | await u l => exact ih h (List.mem_of_ne_of_mem (by simp) hm)

/-- While a producer is still to be made there is one. -/
theorem Inv.producers_of_pending (h : Inv s) {t : Task} {k : ℕ} (hm : .clone t k ∈ s.main)
    (hrole : t.role = .producer) : s.producers ≠ 0 := by
  refine (Nat.ne_of_gt ?_ : s.producers ≠ 0)
  rcases (h.pending t k hm).2 with hres | ⟨-, -, l, hl⟩
  · exact h.counted.pos (a := .inl t) ⟨h.planned.clone_mem hm, hrole, hres⟩
  · exact h.counted.pos (a := .inr (t, l)) ⟨hrole, hl⟩

theorem Inv.producers_of_running (h : Inv s) (hi : s.phase i = .running)
    (hrole : i.1.role = .producer) : s.producers ≠ 0 :=
  Nat.ne_of_gt (h.counted.pos (a := .inr i) ⟨hrole, hi⟩)

/-- What a consumer knows stays so, if the steps of the others bring nothing once there is no producer. -/
theorem Finds.frame {p : Phase} (h : Finds s p)
    (hkeep : s.producers = 0 → s'.producers = 0 ∧ s'.queue.head = s.queue.head ∧
      s.queue.tail ≤ s'.queue.tail ∧ s'.queue.tail ≤ s'.queue.head) : Finds s' p := by
  cases p with
  | noProducers => exact (hkeep h).1
  | loadedHead head =>
    obtain ⟨h0, hhead, -, -⟩ := hkeep h.1
    exact ⟨h0, h.2.trans hhead.symm⟩
  | loadedTail tail =>
    obtain ⟨h0, -, htail, -⟩ := hkeep h.1
    exact ⟨h0, h.2.trans htail⟩
  | done =>
    obtain ⟨h0, hhead, htail, hle⟩ := hkeep h.1
    refine ⟨h0, le_antisymm hle ?_⟩
    rw [hhead, ← h.2]
    exact htail
  | _ => trivial

theorem Finds.same {p : Phase} (h : Finds s p) (hproducers : s'.producers = s.producers)
    (hqueue : s'.queue = s.queue) : Finds s' p := by
  cases p with
  | noProducers => exact hproducers.trans h
  | loadedHead | loadedTail | done => exact ⟨hproducers.trans h.1, by rw [hqueue]; exact h.2⟩
  | _ => trivial

end facts

/-! ### The planning -/

theorem clone_mem_asyncOps {n : ℕ} {l : List Task} {t : Task} {k : ℕ}
    (h : .clone t k ∈ l.flatMap (asyncOps n)) : t ∈ l ∧ t.async ≠ .synchronous := by
  obtain ⟨u, hu, hm⟩ := List.mem_flatMap.mp h
  rw [asyncOps] at hm
  cases hasync : u.async <;> rw [hasync] at hm
  · exact absurd hm List.not_mem_nil
  all_goals
    obtain ⟨l, -, heq⟩ := List.mem_map.mp hm
    cases heq
    exact ⟨hu, by rw [hasync]; nofun⟩

theorem clone_mem_syncOps {l : List Task} {t : Task} {k : ℕ} (h : .clone t k ∈ l.flatMap syncOps) :
    t ∈ l ∧ t.async = .synchronous := by
  obtain ⟨u, hu, hm⟩ := List.mem_flatMap.mp h
  rw [syncOps] at hm
  cases hasync : u.async <;> rw [hasync] at hm
  · simp only [List.mem_cons, reduceCtorEq, Op.clone.injEq, List.not_mem_nil, or_false, false_or] at hm
    exact ⟨hm.1 ▸ hu, hm.1 ▸ hasync⟩
  all_goals exact absurd hm List.not_mem_nil

theorem planned_clones {t : Task} (ht : t ∈ cfg.subtasks) (hasync : t.async ≠ .synchronous)
    {ops : List Op} (hops : Planned cfg false ops) (hnew : ∀ k, .clone t k ∉ ops) :
    ∀ {ks : List ℕ}, ks.Nodup → Planned cfg false (ks.map (.clone t) ++ ops)
  | [], _ => hops
  | k :: ks, hks => by
    obtain ⟨hk, hks⟩ := List.nodup_cons.mp hks
    refine ⟨ht, fun hm => ?_, by rw [Once, if_neg hasync], planned_clones ht hasync hops hnew hks⟩
    rcases List.mem_append.mp hm with hm | hm
    · obtain ⟨l, hl, heq⟩ := List.mem_map.mp hm
      cases heq
      exact hk hl
    · exact hnew k hm

theorem planned_async {ops : List Op} (hops : Planned cfg false ops)
    (hsync : ∀ t k, .clone t k ∈ ops → t.async = .synchronous) :
    ∀ {l : List Task}, l.Nodup → (∀ t ∈ l, t ∈ cfg.subtasks) →
      Planned cfg false (l.flatMap (asyncOps cfg.maxThreads) ++ ops)
  | [], _, _ => hops
  | t :: l, hl, hsub => by
    obtain ⟨ht, hl⟩ := List.nodup_cons.mp hl
    have hrest := planned_async hops hsync hl fun u hu => hsub u (List.mem_cons_of_mem t hu)
    have hclones (hasync : t.async ≠ .synchronous) (n : ℕ) := planned_clones
      (hsub t List.mem_cons_self) hasync hrest (fun k hm => by
        rcases List.mem_append.mp hm with hm | hm
        · exact ht (clone_mem_asyncOps hm).1
        · exact hasync (hsync t k hm)) (List.nodup_range (n := n))
    rw [List.flatMap_cons, List.append_assoc, asyncOps]
    cases hasync : t.async with
    | synchronous => exact hrest
    | singleThreaded => exact hclones (by rw [hasync]; nofun) _
    | multiThreaded => exact hclones (by rw [hasync]; nofun) _

theorem planned_sync : ∀ {l : List Task}, l.Nodup → (∀ t ∈ l, t ∈ cfg.subtasks) → ∀ started,
    Planned cfg started (l.flatMap syncOps)
  | [], _, _, _ => trivial
  | t :: l, hl, hsub, started => by
    obtain ⟨ht, hl⟩ := List.nodup_cons.mp hl
    have hrest := planned_sync hl fun u hu => hsub u (List.mem_cons_of_mem t hu)
    rw [List.flatMap_cons, syncOps]
    cases hasync : t.async with
    | synchronous =>
      have hnew (k : ℕ) : .clone t k ∉ .await t 0 :: l.flatMap syncOps := fun hm =>
        ht (clone_mem_syncOps (List.mem_of_ne_of_mem (by simp) hm)).1
      refine ⟨fun u k hm => ?_, hsub t List.mem_cons_self, hnew 0, ?_, hrest true⟩
      · exact (clone_mem_syncOps (l := t :: l) (by
          rw [List.flatMap_cons, syncOps, hasync]
          exact List.mem_cons_of_mem _ hm)).2
      · rw [Once, if_pos hasync]
        exact hnew
    | singleThreaded => exact hrest started
    | multiThreaded => exact hrest started

theorem planned_defaultSchedule (cfg : Config) : Planned cfg false cfg.defaultSchedule :=
  planned_async (planned_sync cfg.nodup (fun _ h => h) false) (fun _ _ hm => (clone_mem_syncOps hm).2)
    cfg.nodup fun _ h => h

theorem release_not_mem (cfg : Config) (t : Task) (k : ℕ) : .release t k ∉ cfg.defaultSchedule := by
  intro hm
  rw [Config.defaultSchedule, List.mem_append, List.mem_flatMap, List.mem_flatMap] at hm
  rcases hm with ⟨u, -, hm⟩ | ⟨u, -, hm⟩
  · rw [asyncOps] at hm
    cases hasync : u.async <;> rw [hasync] at hm <;> simp at hm
  · rw [syncOps] at hm
    cases hasync : u.async <;> rw [hasync] at hm <;> simp at hm

theorem inv_init {s : State cfg T} (h : Init s) : Inv s where
  queue := MPMCQueue.init_inv h.queue
  le := by rw [h.queue]
  legal i := by
    rw [h.queue]
    exact fun hin => by cases hin
  idle i _ := by
    rw [h.queue]
    rfl
  counted := by
    refine ⟨((cfg.subtasks.filter fun t => t.role = .producer).map Sum.inl).toFinset, ?_, fun a => ?_⟩
    · rw [List.toFinset_card_of_nodup, List.length_map, h.producers]
      exact (cfg.nodup.filter _).map Sum.inl_injective
    · cases a with
      | inl t => simp [Registered, h.reserved t]
      | inr i => simp [Registered, h.phase i]
  fresh _ i := Or.inl (h.phase i)
  planned := by
    rw [h.main, h.started]
    exact planned_defaultSchedule cfg
  pending t k _ := ⟨h.phase (t, k), Or.inl (h.reserved t)⟩
  releasing t k hm := by
    rw [h.main] at hm
    exact absurd hm (release_not_mem cfg t k)
  finds i _ := by
    rw [h.phase i]
    exact trivial

/-! ### The main thread -/

section main

variable {s s' : State cfg T} {t : Task} {k : ℕ} {ops : List Op}

theorem Inv.clone (h : Inv s) (hmain : s.main = .clone t k :: ops) :
    Inv { (s.registerProducer t.role).setPhase (t, k) .running with main := .release t k :: ops } := by
  have hplanned := h.planned
  rw [hmain] at hplanned
  obtain ⟨hsub, hnew, honce, hrest⟩ := hplanned
  have hmem : .clone t k ∈ s.main := by
    rw [hmain]
    exact List.mem_cons_self
  have habsent := (h.pending t k hmem).1
  have hphase (i : Clone) : ((s.registerProducer t.role).setPhase (t, k) .running).phase i =
      if i = (t, k) then .running else s.phase i := phase_setPhase _ _
  refine ⟨h.queue, h.le, h.legal, fun i hi => ?_, ?_, fun hs i => ?_, ⟨hsub, honce, hrest⟩,
    fun u l hm => ?_, fun u l hm => ?_, fun i hrole => ?_⟩
  · refine h.idle i fun hrun => hi ?_
    rw [hphase, hrun, ite_self]
  · change Counted _ (if t.role = .producer then s.producers + 1 else s.producers)
    split_ifs with hrole
    · refine h.counted.add (a := .inr (t, k)) (fun hreg => ?_) fun b => ?_
      · rw [Registered, habsent] at hreg
        cases hreg.2
      · cases b with
        | inl u => simp [Registered, State.setPhase, State.registerProducer]
        | inr i =>
          simp only [Registered, hphase, Sum.inr.injEq]
          by_cases hi : i = (t, k)
          · simp [hi, hrole]
          · simp [hi]
    · refine h.counted.congr fun b => ?_
      cases b with
      | inl u => rfl
      | inr i =>
        simp only [Registered, hphase]
        by_cases hi : i = (t, k)
        · simp [hi, hrole]
        · simp [hi]
  · rw [hphase]
    split_ifs
    · exact Or.inr rfl
    · exact h.fresh hs i
  · have hm : .clone u l ∈ ops := List.mem_of_ne_of_mem (by simp) hm
    have hne : (u, l) ≠ (t, k) := by
      rintro heq
      cases heq
      exact hnew hm
    obtain ⟨hul, hcases⟩ := h.pending u l (by rw [hmain]; exact List.mem_cons_of_mem _ hm)
    refine ⟨by rw [hphase, if_neg hne, hul], hcases.imp_right ?_⟩
    rintro ⟨hasync, hs, j, hj⟩
    exact ⟨hasync, hs, j, by rw [hphase, hj, ite_self]⟩
  · rw [hphase]
    split_ifs with heq
    · nofun
    · refine h.releasing u l ?_
      rcases List.mem_cons.mp hm with hm | hm
      · cases hm
        exact absurd rfl heq
      · rw [hmain]
        exact List.mem_cons_of_mem _ hm
  · rw [hphase]
    split_ifs with heq
    · exact trivial
    · refine (h.finds i hrole).frame fun h0 => ⟨?_, rfl, le_rfl, h.le⟩
      exact (if_neg fun hp => h.producers_of_pending hmem hp h0).trans h0

theorem Inv.release (h : Inv s) (hmain : s.main = .release t k :: ops) :
    Inv (if s.reserved t then
      { s.unregisterProducer t.role with main := ops, reserved := Function.update s.reserved t false }
    else { s with main := ops }) := by
  have hplanned := h.planned
  rw [hmain] at hplanned
  obtain ⟨hsub, honce, hrest⟩ := hplanned
  have hthere := h.releasing t k (by rw [hmain]; exact List.mem_cons_self)
  have hpending (u : Task) (l : ℕ) (hm : .clone u l ∈ ops) :=
    h.pending u l (by rw [hmain]; exact List.mem_cons_of_mem _ hm)
  have hreleasing (u : Task) (l : ℕ) (hm : .release u l ∈ ops) :=
    h.releasing u l (by rw [hmain]; exact List.mem_cons_of_mem _ hm)
  split_ifs with hres
  · refine ⟨h.queue, h.le, h.legal, h.idle, ?_, h.fresh, hrest, fun u l hm => ?_, hreleasing,
      fun i hrole => ?_⟩
    · change Counted _ (if t.role = .producer then s.producers - 1 else s.producers)
      split_ifs with hrole
      · refine h.counted.remove (a := .inl t) ⟨hsub, hrole, hres⟩ fun b => ?_
        cases b with
        | inl u =>
          simp only [Registered, Function.update_apply, ne_eq, Sum.inl.injEq]
          split_ifs with hu <;> simp [hu]
        | inr i => simp [Registered, State.unregisterProducer]
      · refine h.counted.congr fun b => ?_
        cases b with
        | inl u =>
          simp only [Registered, Function.update_apply]
          split_ifs with hu
          · simp [hu, hrole]
          · rfl
        | inr i => rfl
    · obtain ⟨hul, hcases⟩ := hpending u l hm
      refine ⟨hul, ?_⟩
      rw [Once] at honce
      simp only [Function.update_apply]
      split_ifs with hu
      · -- the clone that was made before has taken the reservation over
        subst hu
        split_ifs at honce with hasync
        · exact absurd hm (honce l)
        · exact Or.inr ⟨hasync, honce, k, (h.fresh honce (u, k)).resolve_left hthere⟩
      · exact hcases
    · refine (h.finds i hrole).frame fun h0 => ⟨?_, rfl, le_rfl, h.le⟩
      change (if t.role = .producer then s.producers - 1 else s.producers) = 0
      rw [h0, ite_self]
  · exact ⟨h.queue, h.le, h.legal, h.idle, h.counted, h.fresh, hrest, hpending, hreleasing, h.finds⟩

theorem Inv.reschedule (h : Inv s) (hmain : s.main = .reschedule :: ops) :
    Inv { s with main := ops, started := true } := by
  have hplanned := h.planned
  rw [hmain] at hplanned
  obtain ⟨hsync, hrest⟩ := hplanned
  refine ⟨h.queue, h.le, h.legal, h.idle, h.counted, nofun, hrest, fun u l hm => ?_, fun u l hm => ?_,
    h.finds⟩
  · obtain ⟨hul, hcases⟩ := h.pending u l (by rw [hmain]; exact List.mem_cons_of_mem _ hm)
    exact ⟨hul, Or.inl (hcases.resolve_right fun hother => hother.1 (hsync u l hm))⟩
  · exact h.releasing u l (by rw [hmain]; exact List.mem_cons_of_mem _ hm)

theorem Inv.await (h : Inv s) (hmain : s.main = .await t k :: ops) : Inv { s with main := ops } := by
  have hplanned := h.planned
  rw [hmain] at hplanned
  exact ⟨h.queue, h.le, h.legal, h.idle, h.counted, h.fresh, hplanned,
    fun u l hm => h.pending u l (by rw [hmain]; exact List.mem_cons_of_mem _ hm),
    fun u l hm => h.releasing u l (by rw [hmain]; exact List.mem_cons_of_mem _ hm), h.finds⟩

theorem mainStep_queue (hs : mainStep s = some s') : s'.queue = s.queue := by
  rw [mainStep] at hs
  cases hmain : s.main with
  | nil =>
    rw [hmain] at hs
    cases hs
  | cons op ops =>
    rw [hmain] at hs
    cases op with
    | clone t k | reschedule =>
      cases hs
      rfl
    | release t k =>
      cases hs
      split_ifs <;> rfl
    | await t k =>
      simp only at hs
      split_ifs at hs
      cases hs
      rfl

theorem mainStep_inv (h : Inv s) (hs : mainStep s = some s') : Inv s' := by
  rw [mainStep] at hs
  cases hmain : s.main with
  | nil =>
    rw [hmain] at hs
    cases hs
  | cons op ops =>
    rw [hmain] at hs
    cases op with
    | clone t k =>
      cases hs
      exact h.clone hmain
    | release t k =>
      cases hs
      exact h.release hmain
    | reschedule =>
      cases hs
      exact h.reschedule hmain
    | await t k =>
      simp only at hs
      split_ifs at hs
      cases hs
      exact h.await hmain

end main

/-! ### The clones -/

section clones

variable {s s' : State cfg T} {i : Clone}

/-- What an access of a clone does to the queue. -/
structure Accessed (r : Role) (i : Clone) (q q' : MPMCQueue.State cfg.queue Clone T) : Prop where
  inv : MPMCQueue.Inv q'
  le : q'.tail ≤ q'.head
  mono : q.tail ≤ q'.tail
  other : ∀ j, j ≠ i → q'.pc j = q.pc j
  legal : Legal r (q'.pc i)
  pushed : r ≠ .producer → q'.head = q.head ∧ q'.pushed = q.pushed

theorem accessed_of_step {r : Role} {q q' : MPMCQueue.State cfg.queue Clone T}
    {a : MPMCQueue.Action T} (h : MPMCQueue.Inv q) (hle : q.tail ≤ q.head) (hlegal : Legal r (q.pc i))
    (ha : r.allows a = true) (hs : MPMCQueue.Step (i, a) q q') : Accessed r i q q' := by
  have hmoved := MPMCQueue.moved_of_step hs
  have hinv := MPMCQueue.step_inv (i, a) q q' h hs
  cases a with
  | call c =>
    obtain ⟨-, rfl⟩ := hs
    refine ⟨hinv, hle, le_rfl, hmoved.other, fun _ => ?_, fun _ => ⟨rfl, rfl⟩⟩
    rw [MPMCQueue.pc_goto, if_pos rfl]
    cases r <;> cases c <;> cases ha
    · exact Or.inl ⟨rfl, rfl⟩
    · exact Or.inl ⟨rfl, rfl⟩
    · exact Or.inr ⟨rfl, rfl⟩
  | run =>
    obtain ⟨hin, hexec⟩ := hs
    rcases hlegal hin with ⟨rfl, hp⟩ | ⟨rfl, hp⟩
    · obtain ⟨htail, hnext⟩ := MPMCQueue.exec_produces hexec hp
      refine ⟨hinv, ?_, hmoved.tail, hmoved.other, fun hin' => Or.inl ⟨rfl, hnext hin'⟩,
        fun hne => absurd rfl hne⟩
      rw [htail]
      exact le_trans hle hmoved.head
    · obtain ⟨hhead, hpushed, hle', hnext⟩ := MPMCQueue.exec_tries hexec h hp hle
      exact ⟨hinv, hle', hmoved.tail, hmoved.other, fun hin' => Or.inr ⟨rfl, hnext hin'⟩,
        fun _ => ⟨hhead, hpushed⟩⟩

theorem Inv.access (h : Inv s) (hi : s.phase i = .running)
    {q : MPMCQueue.State cfg.queue Clone T} (hq : Accessed i.1.role i s.queue q) :
    Inv { s with queue := q } := by
  refine ⟨hq.inv, hq.le, fun j => ?_, fun j hj => ?_, h.counted.congr fun b => ?_, h.fresh, h.planned,
    h.pending, h.releasing, fun j hrole => (h.finds j hrole).frame fun h0 => ⟨h0, ?_, hq.mono, hq.le⟩⟩
  · by_cases hji : j = i
    · rw [hji]
      exact hq.legal
    · exact hq.other j hji ▸ h.legal j
  · have hji : j ≠ i := by
      rintro rfl
      exact hj hi
    exact hq.other j hji ▸ h.idle j hj
  · cases b <;> rfl
  · exact (hq.pushed fun hrole => h.producers_of_running hi hrole h0).1

/-- A consumer goes on in `isFinished`. -/
theorem Inv.setPhase (h : Inv s) (hrole : i.1.role = .consumer) (hs : s.started = true)
    (hi : s.phase i ≠ .absent) {p : Phase} (hp : p ≠ .absent)
    (hout : (s.queue.pc i).inside = false) (hfinds : Finds s p) : Inv (s.setPhase i p) := by
  refine ⟨h.queue, h.le, h.legal, fun j hj => ?_, h.counted.congr fun b => ?_, fun hs' => ?_, h.planned,
    fun u l hm => ?_, fun u l hm => ?_, fun j hj => ?_⟩
  · rw [phase_setPhase] at hj
    split_ifs at hj with hji
    · rw [hji]
      exact hout
    · exact h.idle j hj
  · cases b with
    | inl u => rfl
    | inr j =>
      simp only [Registered, phase_setPhase]
      split_ifs with hji
      · simp [hji, hrole]
      · rfl
  · exact absurd (hs.symm.trans hs') nofun
  · obtain ⟨hul, hcases⟩ := h.pending u l hm
    have hne : (u, l) ≠ i := by
      rintro rfl
      exact hi hul
    refine ⟨by rw [phase_setPhase, if_neg hne, hul], Or.inl (hcases.resolve_right ?_)⟩
    exact fun hother => absurd (hs.symm.trans hother.2.1) nofun
  · rw [phase_setPhase]
    split_ifs
    · exact hp
    · exact h.releasing u l hm
  · rw [phase_setPhase]
    split_ifs
    · exact hfinds.same rfl rfl
    · exact (h.finds j hj).same rfl rfl

theorem Inv.finish (h : Inv s) (hs : s.started = true) (hi : s.phase i = .running)
    (hrole : i.1.role ≠ .consumer) (hout : (s.queue.pc i).inside = false) :
    Inv ((s.unregisterProducer i.1.role).setPhase i .done) := by
  have hphase (j : Clone) : ((s.unregisterProducer i.1.role).setPhase i .done).phase j =
      if j = i then .done else s.phase j := phase_setPhase _ _
  refine ⟨h.queue, h.le, h.legal, fun j hj => ?_, ?_, fun hs' => ?_, h.planned, fun u l hm => ?_,
    fun u l hm => ?_, fun j hj => ?_⟩
  · by_cases hji : j = i
    · rw [hji]
      exact hout
    · rw [hphase, if_neg hji] at hj
      exact h.idle j hj
  · change Counted _ (if i.1.role = .producer then s.producers - 1 else s.producers)
    split_ifs with hp
    · refine h.counted.remove (a := .inr i) ⟨hp, hi⟩ fun b => ?_
      cases b with
      | inl u => simp [Registered, State.setPhase, State.unregisterProducer]
      | inr j =>
        simp only [Registered, hphase, ne_eq, Sum.inr.injEq]
        by_cases hji : j = i <;> simp [hji]
    · refine h.counted.congr fun b => ?_
      cases b with
      | inl u => rfl
      | inr j =>
        simp only [Registered, hphase]
        by_cases hji : j = i <;> simp [hji, hp]
  · exact absurd (hs.symm.trans hs') nofun
  · obtain ⟨hul, hcases⟩ := h.pending u l hm
    have hne : (u, l) ≠ i := by
      rintro rfl
      rw [hul] at hi
      cases hi
    refine ⟨by rw [hphase, if_neg hne, hul], Or.inl (hcases.resolve_right ?_)⟩
    exact fun hother => absurd (hs.symm.trans hother.2.1) nofun
  · rw [hphase]
    split_ifs
    · nofun
    · exact h.releasing u l hm
  · have hji : j ≠ i := by
      rintro rfl
      exact hrole hj
    rw [hphase, if_neg hji]
    refine (h.finds j hj).frame fun h0 => ⟨?_, rfl, le_rfl, h.le⟩
    change (if i.1.role = .producer then s.producers - 1 else s.producers) = 0
    rw [h0, ite_self]

/-- Only a started consumer is in `isFinished`. -/
theorem Inv.setPhase_found (h : Inv s) (hrole : i.1.role = .consumer) (hi : s.phase i ≠ .absent)
    (hrun : s.phase i ≠ .running) {p : Phase} (hp : p ≠ .absent) (hfinds : Finds s p) :
    Inv (s.setPhase i p) := by
  refine h.setPhase hrole ?_ hi hp (h.idle i hrun) hfinds
  by_contra hs
  rcases h.fresh (Bool.not_eq_true _ ▸ hs) i with hphase | hphase
  · exact hi hphase
  · exact hrun hphase

theorem Phase.ofSize_ne (head tail : ℕ) : Phase.ofSize head tail ≠ .absent := by
  rw [Phase.ofSize]
  split_ifs <;> nofun

theorem step_inv {a : Action T} (h : Inv s) (hs : Step a s s') : Inv s' := by
  cases hs with
  | main hs => exact mainStep_inv h hs
  | @queue _ i a q hs hi ha hq => exact h.access hi (accessed_of_step h.queue h.le (h.legal i) ha hq)
  | finish hs hi hrole hout => exact h.finish hs hi hrole hout
  | loadProducers hs hi hrole hout =>
    refine h.setPhase hrole hs (by rw [hi]; nofun) (by split_ifs <;> nofun) hout ?_
    split_ifs with h0
    · exact h0
    · exact trivial
  | @loadHead _ i hrole hi =>
    have hfinds := h.finds i hrole
    rw [hi] at hfinds
    exact h.setPhase_found hrole (by rw [hi]; nofun) (by rw [hi]; nofun) nofun ⟨hfinds, rfl⟩
  | @loadTail _ i hrole hi =>
    have hfinds := h.finds i hrole
    rw [hi] at hfinds
    exact h.setPhase_found hrole (by rw [hi]; nofun) (by rw [hi]; nofun) nofun ⟨hfinds, le_rfl⟩
  | @sizeTail _ i head hrole hi =>
    have hfinds := h.finds i hrole
    rw [hi] at hfinds
    refine h.setPhase_found hrole (by rw [hi]; nofun) (by rw [hi]; nofun) (Phase.ofSize_ne _ _) ?_
    rw [Phase.ofSize]
    split_ifs with heq
    · exact ⟨hfinds.1, heq.symm.trans hfinds.2⟩
    · exact trivial
  | @sizeHead _ i tail hrole hi =>
    have hfinds := h.finds i hrole
    rw [hi] at hfinds
    refine h.setPhase_found hrole (by rw [hi]; nofun) (by rw [hi]; nofun) (Phase.ofSize_ne _ _) ?_
    rw [Phase.ofSize]
    split_ifs with heq
    · exact ⟨hfinds.1, le_antisymm h.le (heq ▸ hfinds.2)⟩
    · exact trivial

theorem run_inv {past : List (State cfg T × Action T)} (h : Run Init Step past s) : Inv s :=
  (h.invariant Inv (fun _ _ => True) (fun _ => inv_init) (fun _ _ _ hi _ hs => step_inv hi hs)
    fun _ _ => trivial).1

end clones

end Joda.Pipeline.IOQueue
