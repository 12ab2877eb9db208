import Joda.Pipeline.PlanLoad

/-! # Planning the clauses

After the imports every clause adds a short segment of tasks, complete in itself: what a task of the
segment needs is in the segment (`Sound.pushAll`). A subquery is planned by a planner of its own, so
its tasks are all the tasks that carry its number. Together: a query is planned with every
requirement met, unless it reads a stream under a similarity measure; then the planning never
ends. -/

namespace Joda.Pipeline.PlanClauses

open Joda.Lib.Fuel Joda.Pipeline.Task Joda.Pipeline.Plan Joda.Pipeline.Requirements
  Joda.Pipeline.PlanLoad TaskId

/-- **The state of the planner between two clauses**: nothing is outstanding and every requirement
of every planner is met, with tasks of the stages below `k` only. Before the join there are no other
planners. -/
structure Sound (s : PlanState) (k : ℕ) : Prop where
  added : s.addedIDs = ownIds s.planner s.taskQueue
  settled : s.unfulfilledRequirements = []
  met : Met s.addedIDs
  below : ∀ t ∈ s.addedIDs, stage t < k
  later : ∀ t ∈ s.taskQueue, s.planner ≤ t.planner
  subs : ∀ p, s.planner < p → Met (ownIds p s.taskQueue)
  alone : k ≤ 3 → ∀ t ∈ s.taskQueue, t.planner = s.planner

theorem Sound.mono {s : PlanState} {k k' : ℕ} (h : Sound s k) (hk : k ≤ k') : Sound s k' :=
  ⟨h.added, h.settled, h.met, fun t ht => lt_of_lt_of_le (h.below t ht) hk, h.later, h.subs,
    fun h3 => h.alone (hk.trans h3)⟩

/-- The planner after it has added its own tasks `ids`. -/
def pushAll (s : PlanState) (ids : List TaskId) : PlanState :=
  ids.foldl (fun s id => s.push (s.task id)) s

theorem pushAll_spec {s : PlanState} (hs : s.unfulfilledRequirements = []) (ids : List TaskId) :
    pushAll s ids = { s with
      taskQueue := s.taskQueue ++ ids.map s.task
      addedIDs := s.addedIDs ++ ids } := by
  induction ids generalizing s with
  | nil => simp [pushAll]
  | cons id rest ih =>
    have : pushAll s (id :: rest) = pushAll (s.push (s.task id)) rest := rfl
    rw [this, ih (by simp [PlanState.push, hs])]
    simp [PlanState.push, PlanState.task, hs]

/-- **A segment** of tasks that need only each other. -/
theorem Sound.pushAll {s : PlanState} {k k' : ℕ} {ids : List TaskId} (h : Sound s k) (hm : Met ids)
    (hk : ∀ t ∈ ids, (stage t = k ∨ stage t = 0) ∧ stage t < k') (hkk : k ≤ k') :
    Sound (pushAll s ids) k' := by
  have hown : ownIds s.planner (ids.map s.task) = ids := by
    simp [ownIds, PlanState.task, List.filter_map, Function.comp_def]
  have hother : ∀ p, s.planner < p → ownIds p (ids.map s.task) = [] := fun p hp => by
    refine ownIds_of_other fun t ht => ?_
    obtain ⟨id, -, rfl⟩ := List.mem_map.mp ht
    exact ne_of_lt hp
  rw [pushAll_spec h.settled]
  refine ⟨?_, h.settled, h.met.append hm h.below fun t ht => (hk t ht).1, ?_, ?_, ?_, ?_⟩
  · show s.addedIDs ++ ids = ownIds s.planner (s.taskQueue ++ ids.map s.task)
    rw [ownIds_append, hown, h.added]
  · intro t ht
    rcases List.mem_append.mp ht with ht | ht
    · exact lt_of_lt_of_le (h.below t ht) hkk
    · exact (hk t ht).2
  · intro t ht
    rcases List.mem_append.mp ht with ht | ht
    · exact h.later t ht
    · obtain ⟨id, -, rfl⟩ := List.mem_map.mp ht
      exact le_rfl
  · intro p hp
    show Met (ownIds p (s.taskQueue ++ ids.map s.task))
    rw [ownIds_append, hother p hp, List.append_nil]
    exact h.subs p hp
  · intro h3 t ht
    rcases List.mem_append.mp ht with ht | ht
    · exact h.alone (hkk.trans h3) t ht
    · obtain ⟨id, -, rfl⟩ := List.mem_map.mp ht
      rfl

theorem pushAll_planner {s : PlanState} (hs : s.unfulfilledRequirements = []) (ids : List TaskId) :
    (PlanClauses.pushAll s ids).planner = s.planner := by
  rw [pushAll_spec hs]

/-! ### The segments -/

/-- The tasks that the clauses after the imports ask for. -/
def clauseIds : List TaskId := [loadJoin, loadJoinFiles, storageReceiver, storageSender, innerJoin,
  outerJoin, choosePipeline, aggPipeline, windowAgg, writeFile, writeFiles, writeOutStream, storeJoin]

/-- The tasks that one of them comes with. -/
def segment : TaskId → List TaskId
  | loadJoinFiles => [loadJoinFiles, loadJoinFileParser]
  | choosePipeline => [choosePipeline, asPipeline]
  | aggPipeline => [aggPipeline, aggMerger]
  | writeFile => [jsonStringifier, writeFile]
  | writeFiles => [jsonStringifier, writeFiles]
  | writeOutStream => [jsonStringifier, writeOutStream]
  | t => [t]

theorem segment_stage {id : TaskId} (h : id ∈ clauseIds) : ∀ t ∈ segment id, stage t = stage id := by
  revert h; cases id <;> decide

/-- The three kinds of segments: a task alone, one with the task after it, one with the task before
it. -/
theorem segment_cases {id : TaskId} (h : id ∈ clauseIds) :
    TaskRequirement.get id = none ∧ TaskPrerequisite.get id = none ∧ segment id = [id] ∨
    (∃ r, TaskRequirement.get id = some r ∧ TaskPrerequisite.get id = none ∧
      segment id = [id, r] ∧ count r [id, r] = 1 ∧ TaskRequirement.get r = none ∧
      TaskPrerequisite.get r = none ∧ stage r = stage id ∧ 0 < stage id ∧ r ≠ id ∧
      ∀ cfg s, requiredTask cfg s r = some (s.task r) ∧ afterRequirement r s = s) ∨
    TaskRequirement.get id = none ∧ TaskPrerequisite.get id = some jsonStringifier ∧
      segment id = [jsonStringifier, id] ∧ count jsonStringifier [jsonStringifier, id] = 1 ∧
      stage id = stage jsonStringifier := by
  simp only [clauseIds, List.mem_cons, List.not_mem_nil, or_false] at h
  rcases h with rfl | rfl | rfl | rfl | rfl | rfl | rfl | rfl | rfl | rfl | rfl | rfl | rfl <;>
    first
    | exact Or.inl ⟨rfl, rfl, rfl⟩
    | exact Or.inr (Or.inr ⟨rfl, rfl, rfl, rfl, rfl⟩)
    | exact Or.inr (Or.inl ⟨_, rfl, rfl, rfl, rfl, rfl, rfl, rfl, by decide, by decide,
        fun _ _ => ⟨rfl, rfl⟩⟩)

theorem met_singleton {t : TaskId} (h1 : TaskRequirement.get t = none)
    (h2 : TaskPrerequisite.get t = none) : Met [t] := by
  intro u hu r hn
  rw [List.mem_singleton.mp hu] at hn
  rcases hn with hn | hn
  · rw [h1] at hn; cases hn
  · rw [h2] at hn; cases hn

theorem segment_met {id : TaskId} (h : id ∈ clauseIds) : Met (segment id) := by
  rcases segment_cases h with ⟨h1, h2, h3⟩ | ⟨r, h1, h2, h3, h4, h5, h6, -⟩ | ⟨h1, h2, h3, h4, -⟩
  · rw [h3]
    exact met_singleton h1 h2
  · rw [h3]
    intro t ht r' hn
    simp only [List.mem_cons, List.not_mem_nil, or_false] at ht
    rcases ht with rfl | rfl <;> rcases hn with hn | hn
    · obtain rfl := Option.some.inj (h1.symm.trans hn)
      exact h4
    · rw [h2] at hn; cases hn
    · rw [h5] at hn; cases hn
    · rw [h6] at hn; cases hn
  · rw [h3]
    intro t ht r' hn
    simp only [List.mem_cons, List.not_mem_nil, or_false] at ht
    rcases ht with rfl | rfl <;> rcases hn with hn | hn
    · cases hn
    · cases hn
    · rw [h1] at hn; cases hn
    · obtain rfl := Option.some.inj (h2.symm.trans hn)
      exact h4

theorem addTask_lone {cfg : Config} {s : PlanState} {t : PipelineTask}
    (h1 : TaskRequirement.get t.id = none) (h2 : TaskPrerequisite.get t.id = none) :
    Returns (fun n => addTask cfg n t true s) (s.push t) :=
  (Returns.pure _).of_succ fun n => by rw [addTask_succ h2, h1, resolveRequirement_none]

/-- Adding the task of a clause adds its segment. -/
theorem addNow_returns {cfg : Config} {s : PlanState} {k : ℕ} {id : TaskId} (h : Sound s k)
    (hid : id ∈ clauseIds) (hk : stage id = k ∨ stage id = 0) :
    Returns (fun n => addNow cfg n id s) (PlanClauses.pushAll s (segment id)) := by
  have hnew : ∀ r, stage r = stage id → 0 < stage id → r ∉ s.addedIDs := fun r hr h0 hm => by
    have := h.below r hm
    omega
  rcases segment_cases hid with ⟨h1, h2, h3⟩ | ⟨r, h1, h2, h3, -, h5, h6, h7, h8, h9, h10⟩ |
    ⟨h1, h2, h3, -, h5⟩
  · rw [h3]
    exact addTask_lone h1 h2
  · rw [h3]
    have hmem : r ∉ (s.push (s.task id)).addedIDs := fun hm => by
      rcases List.mem_append.mp hm with hm | hm
      · exact hnew r h7 h8 hm
      · exact h9 (List.mem_singleton.mp hm)
    refine Returns.of_succ (g := fun n => (addTask cfg n ((s.push (s.task id)).task r) true
      (s.push (s.task id))).map (afterRequirement r)) (fun n => ?_) ?_
    · show addTask cfg (n + 1) (s.task id) true s = _
      rw [addTask_succ h2]
      show resolveRequirement cfg n (TaskRequirement.get id) _ = _
      rw [h1, resolveRequirement_add hmem (h10 cfg _).1]
    · have hr : Returns (fun n => addTask cfg n ((s.push (s.task id)).task r) true
          (s.push (s.task id))) _ := addTask_lone h5 h6
      have hmap := hr.map (afterRequirement r)
      rwa [(h10 cfg _).2] at hmap
  · rw [h3]
    have hmem : jsonStringifier ∉ s.addedIDs := hnew _ h5.symm (by rw [h5]; decide)
    refine Returns.of_succ (g := fun n => (addTask cfg n (s.task jsonStringifier) true s).bind
      fun s' => some (s'.push (s.task id))) (fun n => ?_) ?_
    · show addTask cfg (n + 1) (s.task id) true s = _
      simp only [addTask, PlanState.task, h2, h1, resolvePrerequisiteWith, if_neg hmem, if_true,
        resolveRequirementWith]
    · exact Returns.bind (addTask_lone rfl rfl) (Returns.pure _)

theorem Sound.addNow (cfg : Config) {s : PlanState} {k : ℕ} (id : TaskId) (k' : ℕ) (h : Sound s k)
    (hid : id ∈ clauseIds) (hk : stage id = k ∨ stage id = 0) (hlt : stage id < k')
    (hkk : k ≤ k') :
    ∃ s', Returns (fun n => addNow cfg n id s) s' ∧ Sound s' k' ∧ s'.planner = s.planner :=
  ⟨_, addNow_returns h hid hk, h.pushAll (segment_met hid)
    (fun t ht => by rw [segment_stage hid t ht]; exact ⟨hk, hlt⟩) hkk, pushAll_planner h.settled _⟩

theorem Sound.addIf (cfg : Config) {s : PlanState} {k : ℕ} (b : Bool) (id : TaskId) (k' : ℕ)
    (h : Sound s k) (hid : id ∈ clauseIds) (hk : stage id = k ∨ stage id = 0) (hlt : stage id < k')
    (hkk : k ≤ k') :
    ∃ s', Returns (fun n => addIf cfg n b id s) s' ∧ Sound s' k' ∧ s'.planner = s.planner := by
  cases b with
  | false => exact ⟨s, Returns.pure s, h.mono hkk, rfl⟩
  | true => exact h.addNow cfg id k' hid hk hlt hkk

/-! ### Queries -/

/-- Somewhere in what is planned for the query documents come over a stream. -/
def ReadsStream : Query → Prop
  | .plain c => ∃ src ∈ c.importSources, src.IsStream
  | .joinPartner c _ => ∃ src ∈ c.importSources, src.IsStream
  | .joinQuery c sub => (∃ src ∈ c.importSources, src.IsStream) ∨ ReadsStream sub

theorem readsStream_of_import {q : Query} (h : ∃ src ∈ q.clauses.importSources, src.IsStream) :
    ReadsStream q := by
  cases q with
  | plain c => exact h
  | joinPartner c partner => exact h
  | joinQuery c sub => exact Or.inl h

theorem not_default_of_readsStream {q : Query} (h : ReadsStream q) :
    (q.isDefault && q.clauses.importSources.isEmpty) = false := by
  cases q with
  | plain c =>
    obtain ⟨src, hm, -⟩ := h
    simp [Query.clauses, List.ne_nil_of_mem hm]
  | joinPartner c partner => simp [Query.isDefault, Query.hasJOIN]
  | joinQuery c sub => simp [Query.isDefault, Query.hasJOIN]

/-- A planner that has planned nothing yet, or has handed over all it has planned. -/
structure Idle (s : PlanState) : Prop where
  taskQueue : s.taskQueue = []
  settled : s.unfulfilledRequirements = []
  added : s.addedIDs = []

theorem Idle.imported {cfg : Config} {s : PlanState} (h : Idle s) : Imported cfg s := by
  obtain ⟨h1, h2, h3⟩ := h
  refine ⟨?_, ?_, ?_, ?_, ?_, ?_⟩ <;> simp [h1, h2, h3]

theorem Loading.sound {cfg : Config} {s : PlanState} (h : Loading cfg s none)
    (hs : s.unfulfilledRequirements = []) : Sound s 2 := by
  have hown : ∀ p, p ≠ s.planner → ownIds p s.taskQueue = [] := fun p hp =>
    ownIds_of_other fun t ht => by rw [h.own t ht]; exact hp.symm
  refine ⟨?_, hs, ?_, fun t ht => by rw [h.inv.staged t ht]; exact Nat.lt_succ_self 1,
    fun t ht => (h.own t ht).ge, fun p hp => by rw [hown p hp.ne']; exact met_nil, fun _ => h.own⟩
  · rw [h.added, ownIds, List.filter_eq_self.mpr]
    intro t ht
    simpa using h.own t ht
  · intro t ht r hn
    refine (h.inv.met t ht r hn).resolve_right ?_
    rintro (hm | hm)
    · rw [hs] at hm; cases hm
    · cases hm

theorem planLoadJoin_returns (cfg : Config) (c : Clauses) {s : PlanState} (h : Sound s 2) :
    ∃ s', Returns (fun n => planLoadJoin cfg n c s) s' ∧ Sound s' 3 ∧ s'.planner = s.planner := by
  unfold planLoadJoin
  cases c.loadJoinManager with
  | none => exact ⟨s, Returns.pure s, h.mono (by decide), rfl⟩
  | some jm =>
    cases jm with
    | file => exact h.addNow cfg loadJoinFiles 3 (by decide) (by decide) (by decide) (by decide)
    | memory => exact h.addNow cfg loadJoin 3 (by decide) (by decide) (by decide) (by decide)

theorem planStorage_returns (cfg : Config) (q : Query) {s : PlanState} (h : Sound s 3) :
    ∃ s', Returns (fun n => planStorage cfg n q s) s' ∧ Sound s' 3 ∧ s'.planner = s.planner := by
  unfold planStorage
  split_ifs with hload
  · exact ⟨s, Returns.pure s, h, rfl⟩
  · obtain ⟨s₁, hr₁, hs₁, hp₁⟩ := h.addIf cfg (!s.taskQueue.isEmpty) storageReceiver 3 (by decide)
      (by decide) (by decide) (by decide)
    have hs₂ : Sound (if !s.taskQueue.isEmpty then { s₁ with currentIsStored := true } else s₁) 3 := by
      split_ifs
      · exact ⟨hs₁.added, hs₁.settled, hs₁.met, hs₁.below, hs₁.later, hs₁.subs, hs₁.alone⟩
      · exact hs₁
    obtain ⟨s₃, hr₃, hs₃, hp₃⟩ := hs₂.addIf cfg (!q.isDefault) storageSender 3 (by decide)
      (by decide) (by decide) (by decide)
    refine ⟨s₃, hr₁.bind hr₃, hs₃, ?_⟩
    rw [hp₃]
    split_ifs <;> exact hp₁

theorem planLOAD_returns (cfg : Config) (q : Query) {s : PlanState} (h : Idle s)
    (hq : cfg.simMeasure = .noSimilarity ∨ ∀ src ∈ q.clauses.importSources, ¬ src.IsStream) :
    ∃ s', Returns (fun n => planLOAD cfg n q s) s' ∧ Sound s' 3 ∧ s'.planner = s.planner := by
  obtain ⟨s₁, hr₁, hs₁, hp₁⟩ := addImports_returns q.clauses.importSources s hq h.imported
  have hl := hs₁.loading
  have hl' : Loading cfg (splitSizes cfg s₁) none := ⟨hl.inv, hl.added, hl.own⟩
  obtain ⟨s₂, hr₂, hs₂, hp₂, hout⟩ := resolveRequirements_returns hl'
  obtain ⟨s₃, hr₃, hs₃, hp₃⟩ := planLoadJoin_returns cfg q.clauses (Loading.sound hs₂ hout)
  obtain ⟨s₄, hr₄, hs₄, hp₄⟩ := planStorage_returns cfg q hs₃
  exact ⟨s₄, hr₁.bind (hr₂.bind (hr₃.bind hr₄)), hs₄, by rw [hp₄, hp₃, hp₂]; exact hp₁⟩

theorem planCHOOSE_AGG_returns (cfg : Config) (q : Query) {s : PlanState} (h : Sound s 4) :
    ∃ s', Returns (fun n => (planCHOOSE cfg n q s).bind (planAGG cfg n q)) s' ∧ Sound s' 6 ∧
      s'.planner = s.planner := by
  obtain ⟨s₁, hr₁, hs₁, hp₁⟩ := h.addIf cfg (q.clauses.hasChoose || q.clauses.hasAS)
    choosePipeline 5 (by decide) (by decide) (by decide) (by decide)
  obtain ⟨s₂, hr₂, hs₂, hp₂⟩ := hs₁.addIf cfg q.clauses.hasAggregators
    (if q.clauses.aggWindowSize ≠ 0 then windowAgg else aggPipeline) 6
    (by split_ifs <;> decide) (by split_ifs <;> decide) (by split_ifs <;> decide) (by decide)
  exact ⟨s₂, hr₁.bind hr₂, hs₂, hp₂.trans hp₁⟩

theorem resolveRequirements_settled {cfg : Config} {s : PlanState}
    (h : s.unfulfilledRequirements = []) : Returns (fun n => resolveRequirements cfg n s) s :=
  loop_returns_of_not (by simp [h])

/-- The tasks of a subquery join the queue. -/
theorem Sound.append {s sub : PlanState} (h : Sound s 3) (hsub : Sound sub 6)
    (hp : sub.planner = s.planner + 1) :
    Sound { s with taskQueue := s.taskQueue ++ sub.taskQueue } 4 := by
  have hown : ∀ p, s.planner < p → ownIds p s.taskQueue = [] := fun p hp =>
    ownIds_of_other fun t ht => by rw [h.alone le_rfl t ht]; exact ne_of_lt hp
  have hne : ∀ t ∈ sub.taskQueue, s.planner < t.planner := fun t ht => by
    have := hsub.later t ht
    omega
  have hsubs : ∀ p, s.planner < p → Met (ownIds p (s.taskQueue ++ sub.taskQueue)) := by
    intro p hlt
    rw [ownIds_append, hown p hlt, List.nil_append]
    rcases Nat.lt_or_ge sub.planner p with h1 | h1
    · exact hsub.subs p h1
    · obtain rfl : p = sub.planner := by omega
      rw [← hsub.added]
      exact hsub.met
  refine ⟨?_, h.settled, h.met, fun t ht => Nat.lt_succ_of_lt (h.below t ht), ?_, hsubs, by omega⟩
  · show s.addedIDs = ownIds s.planner (s.taskQueue ++ sub.taskQueue)
    rw [ownIds_append, ownIds_of_other fun t ht => (hne t ht).ne', List.append_nil, h.added]
  · intro t ht
    rcases List.mem_append.mp ht with ht | ht
    · exact h.later t ht
    · exact (hne t ht).le

/-- **Every clause of a query is planned**, by induction on the nesting of subqueries. -/
theorem planClauses_returns (cfg : Config) : ∀ (q : Query) (s : PlanState), Idle s →
    (cfg.simMeasure = .noSimilarity ∨ ¬ ReadsStream q) →
    ∃ s', Returns (fun n => planClauses cfg n q s) s' ∧ Sound s' 6 ∧ s'.planner = s.planner := by
  intro q
  have hload : ∀ (q : Query), (cfg.simMeasure = .noSimilarity ∨ ¬ ReadsStream q) →
      cfg.simMeasure = .noSimilarity ∨ ∀ src ∈ q.clauses.importSources, ¬ src.IsStream :=
    fun q hq => hq.imp id fun hn src hm hs => hn (readsStream_of_import ⟨src, hm, hs⟩)
  induction q with
  | plain c =>
    intro s hs hq
    obtain ⟨s₁, hr₁, hs₁, hp₁⟩ := planLOAD_returns cfg (.plain c) hs (hload _ hq)
    obtain ⟨s₂, hr₂, hs₂, hp₂⟩ := planCHOOSE_AGG_returns cfg (.plain c) (hs₁.mono (by decide))
    exact ⟨s₂, hr₁.bind hr₂, hs₂, hp₂.trans hp₁⟩
  | joinPartner c partner =>
    intro s hs hq
    obtain ⟨s₁, hr₁, hs₁, hp₁⟩ := planLOAD_returns cfg (.joinPartner c partner) hs (hload _ hq)
    obtain ⟨s₂, hr₂, hs₂, hp₂⟩ := hs₁.addNow cfg innerJoin 3 (by decide) (by decide) (by decide)
      (by decide)
    obtain ⟨s₃, hr₃, hs₃, hp₃⟩ := hs₂.addNow cfg storageSender 3 (by decide) (by decide)
      (by decide) (by decide)
    obtain ⟨s₄, hr₄, hs₄, hp₄⟩ := hs₃.addNow cfg outerJoin 4 (by decide) (by decide) (by decide)
      (by decide)
    obtain ⟨s₅, hr₅, hs₅, hp₅⟩ := planCHOOSE_AGG_returns cfg (.joinPartner c partner) hs₄
    exact ⟨s₅, hr₁.bind (hr₂.bind (hr₃.bind (hr₄.bind hr₅))), hs₅,
      by rw [hp₅, hp₄, hp₃, hp₂, hp₁]⟩
  | joinQuery c sub ih =>
    intro s hs hq
    obtain ⟨s₁, hr₁, hs₁, hp₁⟩ := planLOAD_returns cfg (.joinQuery c sub) hs (hload _ hq)
    obtain ⟨s₂, hr₂, hs₂, hp₂⟩ := hs₁.addNow cfg innerJoin 3 (by decide) (by decide) (by decide)
      (by decide)
    obtain ⟨s₃, hr₃, hs₃, hp₃⟩ : ∃ s₃, Returns (fun n =>
        if sub.isDefault && sub.clauses.importSources.isEmpty then addNow cfg n storageSender s₂
        else ((planClauses cfg n sub (.init (s₂.planner + 1))).bind
          (resolveRequirements cfg n)).map
            fun sub => { s₂ with taskQueue := s₂.taskQueue ++ sub.taskQueue }) s₃ ∧
        Sound s₃ 4 ∧ s₃.planner = s₂.planner := by
      split_ifs with hd
      · exact hs₂.addNow cfg storageSender 4 (by decide) (by decide) (by decide) (by decide)
      · obtain ⟨t, hrt, hst, hpt⟩ := ih (.init (s₂.planner + 1)) ⟨rfl, rfl, rfl⟩
          (hq.imp id fun hn h => hn (Or.inr h))
        exact ⟨_, (hrt.bind (resolveRequirements_settled hst.settled)).map _,
          hs₂.append hst hpt, rfl⟩
    obtain ⟨s₄, hr₄, hs₄, hp₄⟩ := hs₃.addNow cfg outerJoin 4 (by decide) (by decide) (by decide)
      (by decide)
    obtain ⟨s₅, hr₅, hs₅, hp₅⟩ := planCHOOSE_AGG_returns cfg (.joinQuery c sub) hs₄
    exact ⟨s₅, hr₁.bind (hr₂.bind (hr₃.bind (hr₄.bind hr₅))), hs₅,
      by rw [hp₅, hp₄, hp₃, hp₂, hp₁]⟩

theorem planSTORE_returns (cfg : Config) (lastQuery : Bool) (q : Query) {s : PlanState}
    (h : Sound s 6) :
    ∃ s', Returns (fun n => planSTORE cfg n lastQuery q s) s' ∧ Sound s' 7 ∧
      s'.planner = s.planner := by
  unfold planSTORE
  split_ifs
  · exact ⟨s, Returns.pure s, h.mono (by decide), rfl⟩
  · cases q.clauses.exportDestination with
    | none =>
      exact h.addIf cfg lastQuery storageReceiver 7 (by decide) (by decide) (by decide) (by decide)
    | some d =>
      refine h.addNow cfg d.getTask 7 ?_ ?_ ?_ (by decide) <;> cases d <;> decide

/-- **The planned query**: whatever was planned before, its plan is made and its requirements are
met. -/
def Planned (cfg : Config) (q : Query) (lastQuery : Bool) : Prop :=
  ∀ s, Idle s → ∃ tasks s', Returns (fun n => createPlan cfg n q lastQuery s) (tasks, s') ∧
    RequirementsMet tasks

theorem Sound.requirementsMet {s : PlanState} {k : ℕ} (h : Sound s k) :
    RequirementsMet s.taskQueue := by
  refine requirementsMet_iff.mpr fun p => ?_
  rcases lt_trichotomy p s.planner with hp | rfl | hp
  · rw [ownIds_of_other fun t ht => ?_]
    · exact met_nil
    · have := h.later t ht
      omega
  · rw [← h.added]
    exact h.met
  · exact h.subs p hp

theorem planned_of_condition {cfg : Config} {q : Query} (lastQuery : Bool)
    (hq : cfg.simMeasure = .noSimilarity ∨ ¬ ReadsStream q) : Planned cfg q lastQuery := by
  intro s hs
  obtain ⟨s₁, hr₁, hs₁, -⟩ := planClauses_returns cfg q { s with currentIsStored := false }
    ⟨hs.taskQueue, hs.settled, hs.added⟩ hq
  obtain ⟨s₂, hr₂, hs₂, -⟩ := planSTORE_returns cfg lastQuery q hs₁
  have hr₃ : Returns (fun n => resolveRequirements cfg n s₂) s₂ :=
    resolveRequirements_settled hs₂.settled
  exact ⟨s₂.taskQueue, _, hr₁.bind (hr₂.bind (hr₃.bind (hr₃.map _))), hs₂.requirementsMet⟩

/-! ### The plan that never ends -/

theorem requiredTask_ne {cfg : Config} (hs : cfg.simMeasure ≠ .noSimilarity) {s : PlanState}
    {r : TaskId} {t : PipelineTask} (h : requiredTask cfg s r = some t) :
    t.id ≠ defaultStreamParser := by
  cases r <;> cases hm : cfg.simMeasure <;> simp [requiredTask, hm] at h hs <;> subst h <;>
    simp [PlanState.task]

theorem resolve_stuck {cfg : Config} (hs : cfg.simMeasure ≠ .noSimilarity) {n : ℕ}
    (ih : ∀ (t : PipelineTask) (instant : Bool) (s s' : PlanState), t.id ≠ defaultStreamParser →
      addTask cfg n t instant s = some s' → defaultStreamParser ∈ s.unfulfilledRequirements →
      defaultStreamParser ∈ s'.unfulfilledRequirements) {s s' : PlanState} {r : Option TaskId}
    (h : resolveRequirement cfg n r s = some s')
    (hm : defaultStreamParser ∈ s.unfulfilledRequirements) :
    defaultStreamParser ∈ s'.unfulfilledRequirements := by
  cases r with
  | none => exact Option.some.inj h ▸ hm
  | some r =>
    by_cases hmem : r ∈ s.addedIDs
    · rw [resolveRequirement_of_mem hmem] at h
      exact Option.some.inj h ▸ hm
    · cases ht : requiredTask cfg s r with
      | some t =>
        rw [resolveRequirement_add hmem ht] at h
        obtain ⟨s₁, h₁, rfl⟩ := Option.map_eq_some_iff.mp h
        rw [afterRequirement_unfulfilledRequirements]
        exact ih t true s s₁ (requiredTask_ne hs ht) h₁ hm
      | none =>
        simp only [resolveRequirement, resolveRequirementWith, if_neg hmem, ht,
          Option.some.injEq] at h
        subst h
        refine List.mem_filter.mpr ⟨hm, ?_⟩
        rw [decide_eq_true_eq]
        rintro rfl
        revert ht
        cases hc : cfg.simMeasure <;> simp [requiredTask, hc]

/-- Under a similarity measure nothing crosses `DefaultStreamParser` off. -/
theorem addTask_stuck {cfg : Config} (hs : cfg.simMeasure ≠ .noSimilarity) : ∀ (n : ℕ)
    (t : PipelineTask) (instant : Bool) (s s' : PlanState), t.id ≠ defaultStreamParser →
    addTask cfg n t instant s = some s' → defaultStreamParser ∈ s.unfulfilledRequirements →
    defaultStreamParser ∈ s'.unfulfilledRequirements := by
  intro n
  induction n with
  | zero => intro t instant s s' ht h; simp [addTask] at h
  | succ n ih =>
    intro t instant s s' ht h hm
    rw [addTask] at h
    obtain ⟨s₁, h₁, h₂⟩ := Option.bind_eq_some_iff.mp h
    have hm₁ : defaultStreamParser ∈ s₁.unfulfilledRequirements := by
      cases hp : TaskPrerequisite.get t.id with
      | none =>
        rw [hp] at h₁
        exact Option.some.inj h₁ ▸ hm
      | some p =>
        rw [hp, resolvePrerequisiteWith] at h₁
        split_ifs at h₁
        · exact Option.some.inj h₁ ▸ hm
        · exact ih _ true s s₁ (by simp [PlanState.task]) h₁ hm
        · exact Option.some.inj h₁ ▸ hm
    have hm₂ : defaultStreamParser ∈ (s₁.push t).unfulfilledRequirements :=
      List.mem_filter.mpr ⟨hm₁, by simpa using ht.symm⟩
    split_ifs at h₂ with hi
    · exact resolve_stuck hs ih h₂ hm₂
    · obtain rfl := Option.some.inj h₂
      cases hr : TaskRequirement.get t.id with
      | none => exact hm₂
      | some r => exact PlanState.mem_require.mpr (Or.inl hm₂)

/-- **The requirement loop never ends** once `DefaultStreamParser` is outstanding. -/
theorem resolveRequirements_diverges {cfg : Config} (hs : cfg.simMeasure ≠ .noSimilarity) (n : ℕ)
    {s : PlanState} (hm : defaultStreamParser ∈ s.unfulfilledRequirements) :
    resolveRequirements cfg n s = none := by
  refine loop_diverges (fun s => defaultStreamParser ∈ s.unfulfilledRequirements) ?_ ?_ n s hm
  · intro s hm
    simpa using List.ne_nil_of_mem hm
  · intro n s s' hm h
    exact resolve_stuck hs (addTask_stuck hs n) h hm

theorem getTask_ne (src : ImportSource) : src.getTask ≠ defaultStreamParser := fun h =>
  absurd (h ▸ getTask_mem src) (by decide)

theorem getTask_requirement {src : ImportSource} (h : src.IsStream) :
    TaskRequirement.get src.getTask = some defaultStreamParser := by
  rcases h with rfl | rfl <;> rfl

/-- An import from a stream leaves `DefaultStreamParser` outstanding. -/
theorem addImports_stuck {cfg : Config} (hs : cfg.simMeasure ≠ .noSimilarity) (n : ℕ) :
    ∀ (srcs : List ImportSource) (s s' : PlanState), addImports cfg n srcs s = some s' →
    (defaultStreamParser ∈ s.unfulfilledRequirements ∨ ∃ src ∈ srcs, src.IsStream) →
    defaultStreamParser ∈ s'.unfulfilledRequirements
  | [], s, s', h, hm => by
    obtain rfl := Option.some.inj h
    simpa using hm
  | src :: rest, s, s', h, hm => by
    rw [addImports] at h
    obtain ⟨s₁, h₁, h₂⟩ := Option.bind_eq_some_iff.mp h
    refine addImports_stuck hs n rest s₁ s' h₂ ?_
    rcases hm with hm | ⟨u, hu, hstream⟩
    · exact Or.inl (addTask_stuck hs n _ _ _ _ (getTask_ne src) h₁ hm)
    · rcases List.mem_cons.mp hu with rfl | hu
      · left
        cases n with
        | zero => simp [addTask] at h₁
        | succ n =>
          rw [addTask_import (getTask_mem u)] at h₁
          obtain rfl := Option.some.inj h₁
          exact getTask_requirement hstream ▸ PlanState.mem_require.mpr (Or.inr rfl)
      · exact Or.inr ⟨u, hu, hstream⟩

theorem planLOAD_diverges {cfg : Config} (hs : cfg.simMeasure ≠ .noSimilarity) (n : ℕ) {q : Query}
    (hq : ∃ src ∈ q.clauses.importSources, src.IsStream) (s : PlanState) :
    planLOAD cfg n q s = none := by
  rw [planLOAD]
  cases h : addImports cfg n q.clauses.importSources s with
  | none => rfl
  | some s₁ =>
    have hm := addImports_stuck hs n _ _ _ h (Or.inr hq)
    have : resolveRequirements cfg n (splitSizes cfg s₁) = none :=
      resolveRequirements_diverges hs n hm
    simp [this]

theorem planClauses_diverges {cfg : Config} (hs : cfg.simMeasure ≠ .noSimilarity) (n : ℕ) :
    ∀ (q : Query) (s : PlanState), ReadsStream q → planClauses cfg n q s = none := by
  intro q
  induction q with
  | plain c =>
    intro s hq
    simp [planClauses, planLOAD_diverges hs n (q := .plain c) hq]
  | joinPartner c partner =>
    intro s hq
    simp [planClauses, planLOAD_diverges hs n (q := .joinPartner c partner) hq]
  | joinQuery c sub ih =>
    intro s hq
    rcases hq with hq | hq
    · simp [planClauses, planLOAD_diverges hs n (q := .joinQuery c sub) hq]
    · have hd : (sub.isDefault && sub.clauses.importSources.isEmpty) = false :=
        not_default_of_readsStream hq
      simp [planClauses, hd, ih _ hq]

/-- **A query is planned, with every requirement met, exactly if it reads no stream under a
similarity measure.** -/
theorem planned_iff (cfg : Config) (q : Query) (lastQuery : Bool) :
    Planned cfg q lastQuery ↔ (cfg.simMeasure = .noSimilarity ∨ ¬ ReadsStream q) := by
  constructor
  · intro h
    by_contra hn
    push Not at hn
    obtain ⟨tasks, s', hr, -⟩ := h (.init 0) ⟨rfl, rfl, rfl⟩
    refine not_returns_of_none (fun n => ?_) _ hr
    simp [createPlan, planClauses_diverges hn.1 n q _ hn.2]
  · exact planned_of_condition lastQuery

/-- `LOAD A FROM STDIN` under `PATH_JACCARD` is never planned. -/
theorem stdin_not_planned :
    ¬ Planned ⟨.pathJaccard, 4⟩ (.plain ⟨"A", [.stream], none, false, false, false, 0, none⟩)
      true := by
  intro h
  obtain ⟨tasks, s', hr, -⟩ := h (.init 0) ⟨rfl, rfl, rfl⟩
  have hs : (⟨.pathJaccard, 4⟩ : Config).simMeasure ≠ .noSimilarity := by decide
  refine not_returns_of_none (fun n => ?_) _ hr
  simp [createPlan, planClauses_diverges hs n
    (.plain ⟨"A", [.stream], none, false, false, false, 0, none⟩) _ ⟨.stream, by simp, Or.inl rfl⟩]

end Joda.Pipeline.PlanClauses
