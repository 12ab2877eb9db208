import Joda.Pipeline.Plan

/-! # Requirements of planned tasks

`Met l` says of a list of tasks that what each of them needs is there exactly once. The tasks of one
clause meet each other's requirements and never those of another clause (`stage`), so lists of
different stages can be put together (`Met.append`). -/

namespace Joda.Pipeline.Requirements

open Joda.Pipeline.Task Joda.Pipeline.Plan TaskId

/-- `t` needs `r`, after it or before it. -/
def Needs (t r : TaskId) : Prop := TaskRequirement.get t = some r ∨ TaskPrerequisite.get t = some r

instance (t r : TaskId) : Decidable (Needs t r) := by unfold Needs; infer_instance

/-- How many of the tasks do what `r` is required for. -/
def count (r : TaskId) (l : List TaskId) : ℕ := l.countP fun u => decide (Fulfils r u)

/-- **Every need is met exactly once.** -/
def Met (l : List TaskId) : Prop := ∀ t ∈ l, ∀ r, Needs t r → count r l = 1

/-- The ids of the tasks one planner added. -/
def ownIds (planner : ℕ) (tasks : List PipelineTask) : List TaskId :=
  (tasks.filter fun t => t.planner = planner).map PipelineTask.id

/-- **The requirements of a plan are met**: what a task needs was added exactly once by the planner
that added the task. -/
def RequirementsMet (tasks : List PipelineTask) : Prop :=
  ∀ t ∈ tasks, ∀ r, Needs t.id r →
    (tasks.filter fun u => u.planner = t.planner ∧ Fulfils r u.id).length = 1

/-- The clause a task with or for a requirement belongs to; `0` for a task that has no requirement
and is none. -/
def stage : TaskId → ℕ
  | lsListFile | listFile | lsListDir | listDir | lsFileOpener | unformattedFileOpener
  | lsStreamReader | inStream | urlStream | defaultTextParser | pathJaccardSimilarityTextParser
  | attributeJaccardSimilarityTextParser | defaultStreamParser
  | pathJaccardSimilarityStreamParser | attributeJaccardSimilarityStreamParser => 1
  | loadJoinFiles | loadJoinFileParser => 2
  | choosePipeline | asPipeline => 4
  | aggPipeline | filterAggPipeline | aggMerger => 5
  | jsonStringifier | writeFile | writeFiles | writeOutStream => 6
  | _ => 0

/-- The name under which a task is required. -/
def role : TaskId → TaskId
  | pathJaccardSimilarityTextParser | attributeJaccardSimilarityTextParser => defaultTextParser
  | pathJaccardSimilarityStreamParser | attributeJaccardSimilarityStreamParser =>
    defaultStreamParser
  | t => t

theorem role_of_needs {t r : TaskId} (h : Needs t r) : role r = r := by
  rcases h with h | h <;> cases t <;> simp [TaskRequirement.get, TaskPrerequisite.get] at h <;>
    subst h <;> rfl

theorem fulfils_iff {r u : TaskId} (hr : role r = r) : Fulfils r u ↔ role u = r := by
  constructor
  · rintro (rfl | ⟨rfl, rfl | rfl⟩ | ⟨rfl, rfl | rfl⟩) <;> exact hr
  · rintro rfl
    cases u <;> simp [Fulfils, role]

theorem needs_stage {t r u : TaskId} (hn : Needs t r) (hf : Fulfils r u) :
    stage u = stage t ∧ 0 < stage t := by
  rcases hn with hn | hn <;> cases t <;> simp [TaskRequirement.get, TaskPrerequisite.get] at hn <;>
    subst hn <;> rcases hf with rfl | ⟨h, rfl | rfl⟩ | ⟨h, rfl | rfl⟩ <;> simp_all [stage]

theorem count_append (r : TaskId) (a b : List TaskId) :
    count r (a ++ b) = count r a + count r b := List.countP_append

theorem count_singleton {r t u : TaskId} (hn : Needs u r) :
    count r [t] = if role t = r then 1 else 0 := by
  simp [count, List.countP_singleton, fulfils_iff (role_of_needs hn)]

theorem count_eq_zero {r : TaskId} {l : List TaskId} : count r l = 0 ↔ ∀ u ∈ l, ¬ Fulfils r u := by
  simp [count, List.countP_eq_zero]

theorem count_pos {r : TaskId} {l : List TaskId} : 0 < count r l ↔ ∃ u ∈ l, Fulfils r u := by
  simp [count, List.countP_pos_iff]

theorem met_nil : Met [] := fun _ h => by simp at h

/-- Tasks of earlier stages do not meet the needs of the tasks of this one, nor the other way. -/
theorem Met.append {a b : List TaskId} {k : ℕ} (ha : Met a) (hb : Met b)
    (hlt : ∀ t ∈ a, stage t < k) (hk : ∀ t ∈ b, stage t = k ∨ stage t = 0) : Met (a ++ b) := by
  intro t ht r hn
  rw [count_append]
  rcases List.mem_append.mp ht with h | h
  · have hz : count r b = 0 := count_eq_zero.mpr fun u hu hf => by
      obtain ⟨h1, h2⟩ := needs_stage hn hf
      have := hlt t h
      rcases hk u hu with h3 | h3 <;> omega
    rw [ha t h r hn, hz]
  · have hz : count r a = 0 := count_eq_zero.mpr fun u hu hf => by
      obtain ⟨h1, h2⟩ := needs_stage hn hf
      have := hlt u hu
      rcases hk t h with h3 | h3 <;> omega
    rw [hb t h r hn, hz]

theorem ownIds_append (p : ℕ) (a b : List PipelineTask) :
    ownIds p (a ++ b) = ownIds p a ++ ownIds p b := by
  simp [ownIds]

theorem ownIds_of_other {p : ℕ} {l : List PipelineTask} (h : ∀ t ∈ l, t.planner ≠ p) :
    ownIds p l = [] := by
  simp only [ownIds, List.map_eq_nil_iff, List.filter_eq_nil_iff, decide_eq_true_eq]
  exact h

theorem count_ownIds (r : TaskId) (p : ℕ) (l : List PipelineTask) :
    count r (ownIds p l) = (l.filter fun u => u.planner = p ∧ Fulfils r u.id).length := by
  rw [count, ownIds, List.countP_map, List.countP_filter, List.countP_eq_length_filter]
  congr 1
  refine List.filter_congr fun t _ => ?_
  simp [Bool.and_comm]

/-- The requirements are met when those of each planner are. -/
theorem requirementsMet_iff {l : List PipelineTask} :
    RequirementsMet l ↔ ∀ p, Met (ownIds p l) := by
  constructor
  · intro h p t ht r hn
    simp only [ownIds, List.mem_map, List.mem_filter, decide_eq_true_eq] at ht
    obtain ⟨u, ⟨hu, rfl⟩, rfl⟩ := ht
    rw [count_ownIds]
    exact h u hu r hn
  · intro h t ht r hn
    rw [← count_ownIds]
    refine h t.planner t.id ?_ r hn
    simp only [ownIds, List.mem_map, List.mem_filter, decide_eq_true_eq]
    exact ⟨t, ⟨ht, rfl⟩, rfl⟩

end Joda.Pipeline.Requirements
