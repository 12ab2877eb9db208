import Joda.Pipeline.Requirements

/-! # The requirement loop

`LoadInv` says what holds of the import tasks and of the outstanding requirements while
`resolveRequirements` runs: what a task needs is there exactly once or is still due. Resolving a
requirement adds a chain of tasks, each the need of the one before; the invariant is kept with the
end of the chain as its pending requirement, and no chain leaves one behind. Each round takes a
requirement off the list, so the loop ends (`resolveRequirements_returns`).

Under a similarity measure a task that was put off waiting for `DefaultStreamParser` is never
crossed off: the parser that is added has another name. -/

namespace Joda.Pipeline.PlanLoad

open Joda.Lib.Fuel Joda.Pipeline.Task Joda.Pipeline.Plan Joda.Pipeline.Requirements TaskId

/-! ### The invariant -/

/-- `r` is still to be resolved: it is on the list, or it is the need of the task added last. -/
def Due (out : List TaskId) (pend : Option TaskId) (r : TaskId) : Prop := r ∈ out ∨ pend = some r

/-- **The invariant of the loop**, for the added ids, the outstanding requirements and the pending
one. -/
structure LoadInv (cfg : Config) (added out : List TaskId) (pend : Option TaskId) : Prop where
  met : ∀ t ∈ added, ∀ r, Needs t r → count r added = 1 ∨ Due out pend r
  due : ∀ r, Due out pend r → count r added = 0 ∧ ∃ t ∈ added, Needs t r
  once : ∀ t r, Needs t r → count r added ≤ 1
  cause : ∀ t r, Needs t r → 0 < count r added → ∃ u ∈ added, Needs u r
  known : ∀ r ∈ out, r = lsFileOpener ∨ r = unformattedFileOpener ∨ r = defaultStreamParser
  nodup : out.Nodup
  staged : ∀ t ∈ added, stage t = 1
  plain : cfg.simMeasure ≠ .noSimilarity →
    defaultStreamParser ∉ out ∧ inStream ∉ added ∧ urlStream ∉ added
  named : cfg.simMeasure = .noSimilarity → ∀ t ∈ added, role t = t

/-- What `t` still needs once `added` are there. -/
def openNeed (added : List TaskId) (t : TaskId) : Option TaskId :=
  (TaskRequirement.get t).filter fun r => decide (count r added = 0)

theorem no_prerequisite {t r : TaskId} (ht : stage t = 1) : ¬ TaskPrerequisite.get t = some r := by
  cases t <;> simp_all [stage, TaskPrerequisite.get]

/-- **One push**: a task that takes the role of a requirement that is due settles it, and leaves its
own need pending. -/
theorem LoadInv.push {cfg : Config} {added out : List TaskId} {pend : Option TaskId} {t : TaskId}
    (h : LoadInv cfg added out pend) (hd : Due out pend (role t)) (hp : ∀ r, pend = some r → r = role t)
    (ho : role t ∈ out → role t = t) (ht : t ≠ inStream ∧ t ≠ urlStream)
    (hs : cfg.simMeasure = .noSimilarity → role t = t) :
    LoadInv cfg (added ++ [t]) (out.filter (· ≠ t)) (openNeed (added ++ [t]) t) := by
  obtain ⟨hz, u, hu, hn⟩ := h.due _ hd
  have hcount : ∀ v r, Needs v r →
      count r (added ++ [t]) = count r added + if role t = r then 1 else 0 := fun v r hv => by
    rw [count_append, count_singleton hv]
  have hstage : stage t = 1 := by
    have := (needs_stage hn ((fulfils_iff (role_of_needs hn)).mpr rfl)).1
    rw [this]; exact h.staged u hu
  have hpend : ∀ r, openNeed (added ++ [t]) t = some r ↔
      TaskRequirement.get t = some r ∧ count r (added ++ [t]) = 0 := fun r => by
    simp [openNeed, Option.filter_eq_some_iff]
  have honce : ∀ v r, Needs v r → count r (added ++ [t]) ≤ 1 := fun v r hv => by
    have h1 := h.once v r hv
    rw [hcount v r hv]
    split_ifs with hr
    · rw [← hr, hz]
    · exact h1
  have hkeep : ∀ r, Due out pend r → role t ≠ r → Due (out.filter (· ≠ t)) pend r := by
    rintro r (hr | hr) hne
    · refine Or.inl (List.mem_filter.mpr ⟨hr, ?_⟩)
      rw [decide_eq_true_eq]
      rintro rfl
      exact hne (role_of_needs (h.due r (Or.inl hr)).2.choose_spec.2)
    · exact Or.inr hr
  refine ⟨?_, ?_, honce, ?_, fun r hr => h.known r (List.mem_filter.mp hr).1,
    h.nodup.filter _, ?_, fun hsim => ?_, fun hsim v hv => ?_⟩
  · intro v hv r hvr
    rcases List.mem_append.mp hv with hv | hv
    · by_cases hr : role t = r
      · left; rw [hcount v r hvr, if_pos hr, ← hr, hz]
      · rcases h.met v hv r hvr with h1 | h1
        · left; rw [hcount v r hvr, if_neg hr, h1]
        · rcases hkeep r h1 hr with h2 | h2
          · exact Or.inr (Or.inl h2)
          · exact absurd (hp r h2).symm hr
    · obtain rfl : v = t := by simpa using hv
      rcases Nat.eq_zero_or_pos (count r (added ++ [v])) with h0 | h0
      · right; right
        exact (hpend r).mpr ⟨hvr.resolve_right (fun h => no_prerequisite hstage h), h0⟩
      · have := honce v r hvr
        left; omega
  · rintro r (hr | hr)
    · obtain ⟨hr, hne⟩ := List.mem_filter.mp hr
      rw [decide_eq_true_eq] at hne
      obtain ⟨h0, v, hv, hvr⟩ := h.due r (Or.inl hr)
      refine ⟨?_, v, List.mem_append_left _ hv, hvr⟩
      rw [hcount v r hvr, h0, if_neg]
      rintro rfl
      exact hne (ho hr)
    · obtain ⟨hr, h0⟩ := (hpend r).mp hr
      exact ⟨h0, t, by simp, Or.inl hr⟩
  · intro v r hvr hpos
    rw [hcount v r hvr] at hpos
    by_cases hr : role t = r
    · exact ⟨u, List.mem_append_left _ hu, hr ▸ hn⟩
    · rw [if_neg hr] at hpos
      obtain ⟨w, hw, hwr⟩ := h.cause v r hvr hpos
      exact ⟨w, List.mem_append_left _ hw, hwr⟩
  · intro v hv
    rcases List.mem_append.mp hv with hv | hv
    · exact h.staged v hv
    · obtain rfl : v = t := by simpa using hv
      exact hstage
  · obtain ⟨h1, h2, h3⟩ := h.plain hsim
    refine ⟨fun hm => h1 (List.mem_filter.mp hm).1, ?_, ?_⟩ <;>
      simp_all [List.mem_append, eq_comm]
  · rcases List.mem_append.mp hv with hv | hv
    · exact h.named hsim v hv
    · obtain rfl : v = t := by simpa using hv
      exact hs hsim

/-! ### The planner -/

/-- The invariant in the planner's state; up to the join all tasks are its own. -/
structure Loading (cfg : Config) (s : PlanState) (pend : Option TaskId) : Prop where
  inv : LoadInv cfg s.addedIDs s.unfulfilledRequirements pend
  added : s.addedIDs = s.taskQueue.map PipelineTask.id
  own : ∀ t ∈ s.taskQueue, t.planner = s.planner

/-- How many tasks a requirement draws in, at most. -/
def depth : TaskId → ℕ
  | lsListFile | lsListDir => 3
  | lsFileOpener | listFile | listDir => 2
  | lsStreamReader | unformattedFileOpener | inStream | urlStream => 1
  | _ => 0

theorem depth_lt {t r : TaskId} (ht : stage t = 1) (h : TaskRequirement.get t = some r) :
    depth r < depth t := by
  cases t <;> simp [TaskRequirement.get, stage] at h ht <;> subst h <;> decide

theorem depth_role (t : TaskId) : depth (role t) = depth t := by cases t <;> rfl

/-- What is required during loading. -/
theorem required_of_needs {t r : TaskId} (ht : stage t = 1) (h : Needs t r) :
    r ∈ [lsFileOpener, unformattedFileOpener, lsStreamReader, defaultTextParser,
      defaultStreamParser] := by
  rcases h with h | h <;> cases t <;>
    simp [TaskRequirement.get, TaskPrerequisite.get, stage] at h ht <;> subst h <;> decide

/-- No two tasks of a chain need the same, imports from a stream apart. -/
theorem requirer_unique {t r u : TaskId}
    (ht : role t ∈ [lsFileOpener, unformattedFileOpener, lsStreamReader, defaultTextParser,
      defaultStreamParser]) (h : TaskRequirement.get t = some r) (hu : Needs u r) :
    u = t ∨ u = inStream ∨ u = urlStream := by
  cases t <;> simp [role, TaskRequirement.get] at ht h <;> subst h <;> revert hu <;> cases u <;>
    decide

theorem requiredTask_load (cfg : Config) (s : PlanState) {r : TaskId}
    (hr : r ∈ [lsFileOpener, unformattedFileOpener, lsStreamReader, defaultTextParser,
      defaultStreamParser]) :
    ∃ t, requiredTask cfg s r = some t ∧ t.planner = s.planner ∧ role t.id = r ∧
      (cfg.simMeasure = .noSimilarity → t.id = r) ∧
      (r = lsFileOpener ∨ r = unformattedFileOpener → t.id = r) := by
  simp only [List.mem_cons, List.not_mem_nil, or_false] at hr
  rcases hr with rfl | rfl | rfl | rfl | rfl <;> cases h : cfg.simMeasure <;>
    simp [requiredTask, h, PlanState.task, role]

/-- The task made for an outstanding requirement has its name. -/
theorem LoadInv.name_eq {cfg : Config} {added out : List TaskId} {pend : Option TaskId}
    {t r : TaskId} (h : LoadInv cfg added out pend) (hr : r ∈ out)
    (hsim : cfg.simMeasure = .noSimilarity → t = r)
    (hopener : r = lsFileOpener ∨ r = unformattedFileOpener → t = r) : r = t := by
  rcases h.known r hr with hk | hk | hk
  · exact (hopener (Or.inl hk)).symm
  · exact (hopener (Or.inr hk)).symm
  · by_cases hs : cfg.simMeasure = .noSimilarity
    · exact (hsim hs).symm
    · exact absurd (hk ▸ hr) (h.plain hs).1

/-- A need of a task that is due is new, unless a task of its name is there. -/
theorem LoadInv.not_needed {cfg : Config} {added out : List TaskId} {pend : Option TaskId}
    {t r : TaskId} (h : LoadInv cfg added out pend) (hd : Due out pend (role t))
    (hr : TaskRequirement.get t = some r) (hout : r ∉ added) : count r added = 0 := by
  obtain ⟨hz, u, hu, hn⟩ := h.due _ hd
  by_contra h0
  obtain ⟨w, hw, hwr⟩ := count_pos.mp (Nat.pos_of_ne_zero h0)
  rw [fulfils_iff (role_of_needs (Or.inl hr))] at hwr
  by_cases hsim : cfg.simMeasure = .noSimilarity
  · rw [h.named hsim w hw] at hwr
    exact hout (hwr ▸ hw)
  · obtain ⟨v, hv, hvr⟩ := h.cause t r (Or.inl hr) (Nat.pos_of_ne_zero h0)
    obtain ⟨-, h1, h2⟩ := h.plain hsim
    rcases requirer_unique (required_of_needs (h.staged u hu) hn) hr hvr with rfl | rfl | rfl
    · have := count_eq_zero.mp hz v hv
      rw [fulfils_iff (role_of_needs hn)] at this
      exact this rfl
    · exact h1 hv
    · exact h2 hv

@[simp] theorem afterRequirement_planner (r : TaskId) (s : PlanState) :
    (afterRequirement r s).planner = s.planner := by
  unfold afterRequirement; split <;> rfl

@[simp] theorem afterRequirement_taskQueue (r : TaskId) (s : PlanState) :
    (afterRequirement r s).taskQueue = s.taskQueue := by
  unfold afterRequirement; split <;> rfl

@[simp] theorem afterRequirement_addedIDs (r : TaskId) (s : PlanState) :
    (afterRequirement r s).addedIDs = s.addedIDs := by
  unfold afterRequirement; split <;> rfl

@[simp] theorem afterRequirement_unfulfilledRequirements (r : TaskId) (s : PlanState) :
    (afterRequirement r s).unfulfilledRequirements = s.unfulfilledRequirements := by
  unfold afterRequirement; split <;> rfl

theorem Loading.afterRequirement {cfg : Config} {s : PlanState} {pend : Option TaskId}
    (h : Loading cfg s pend) (r : TaskId) : Loading cfg (afterRequirement r s) pend :=
  ⟨by simpa using h.inv, by simpa using h.added, by simpa using h.own⟩

theorem addTask_succ {cfg : Config} {t : PipelineTask} (h : TaskPrerequisite.get t.id = none)
    (n : ℕ) (s : PlanState) :
    addTask cfg (n + 1) t true s = resolveRequirement cfg n (TaskRequirement.get t.id) (s.push t) := by
  simp [addTask, h, resolvePrerequisiteWith, resolveRequirement]

theorem resolveRequirement_none (cfg : Config) (n : ℕ) (s : PlanState) :
    resolveRequirement cfg n none s = some s := rfl

theorem resolveRequirement_of_mem {cfg : Config} {n : ℕ} {r : TaskId} {s : PlanState}
    (h : r ∈ s.addedIDs) : resolveRequirement cfg n (some r) s = some s := by
  simp [resolveRequirement, resolveRequirementWith, h]

theorem resolveRequirement_add {cfg : Config} {n : ℕ} {r : TaskId} {s : PlanState}
    {t : PipelineTask} (h : r ∉ s.addedIDs) (ht : requiredTask cfg s r = some t) :
    resolveRequirement cfg n (some r) s =
      (addTask cfg n t true s).map (Plan.afterRequirement r) := by
  simp [resolveRequirement, resolveRequirementWith, h, ht]

theorem Loading.push {cfg : Config} {s : PlanState} {pend : Option TaskId} {t : PipelineTask}
    (h : Loading cfg s pend) (hd : Due s.unfulfilledRequirements pend (role t.id))
    (hp : ∀ r, pend = some r → r = role t.id)
    (ho : role t.id ∈ s.unfulfilledRequirements → role t.id = t.id)
    (hs : cfg.simMeasure = .noSimilarity → role t.id = t.id) (ht : t.planner = s.planner) :
    Loading cfg (s.push t) (openNeed (s.addedIDs ++ [t.id]) t.id) := by
  refine ⟨h.inv.push hd hp ho ?_ hs, ?_, ?_⟩
  · obtain ⟨-, u, hu, hn⟩ := h.inv.due _ hd
    have hreq := required_of_needs (h.inv.staged u hu) hn
    constructor <;> intro he <;> rw [he] at hreq <;> revert hreq <;> decide
  · simp [PlanState.push, h.added]
  · intro v hv
    rcases List.mem_append.mp hv with hv | hv
    · exact h.own v hv
    · rw [List.mem_singleton.mp hv]; exact ht

/-- **A chain of requirements**: adding a task that is due adds what it draws in, and leaves nothing
pending. The induction is on the length of the chain. -/
theorem addTask_returns {cfg : Config} : ∀ (k : ℕ) (t : PipelineTask) (s : PlanState)
    (pend : Option TaskId), depth t.id < k → Loading cfg s pend →
    Due s.unfulfilledRequirements pend (role t.id) → (∀ r, pend = some r → r = role t.id) →
    (role t.id ∈ s.unfulfilledRequirements → role t.id = t.id) →
    (cfg.simMeasure = .noSimilarity → role t.id = t.id) → t.planner = s.planner →
    ∃ s', Returns (fun n => addTask cfg n t true s) s' ∧ Loading cfg s' none ∧
      s'.planner = s.planner ∧
      s'.unfulfilledRequirements.Sublist (s.unfulfilledRequirements.filter (· ≠ t.id)) := by
  intro k
  induction k with
  | zero => intro t s pend hk; omega
  | succ k ih =>
    intro t s pend hk hl hd hp ho hs ht
    obtain ⟨hz, u, hu, hn⟩ := hl.inv.due _ hd
    have hstage : stage t.id = 1 := by
      rw [(needs_stage hn ((fulfils_iff (role_of_needs hn)).mpr rfl)).1]
      exact hl.inv.staged u hu
    have hpre : TaskPrerequisite.get t.id = none :=
      Option.eq_none_iff_forall_ne_some.mpr fun r => no_prerequisite hstage
    have hpush := hl.push hd hp ho hs ht
    cases hr : TaskRequirement.get t.id with
    | none =>
      refine ⟨s.push t, ?_, ?_, rfl, List.Sublist.refl _⟩
      · exact (Returns.pure _).of_succ fun n => by
          rw [addTask_succ hpre, hr, resolveRequirement_none]
      · simpa [openNeed, hr] using hpush
    | some r =>
      by_cases hmem : r ∈ s.addedIDs ++ [t.id]
      · refine ⟨s.push t, ?_, ?_, rfl, List.Sublist.refl _⟩
        · exact (Returns.pure _).of_succ fun n => by
            rw [addTask_succ hpre, hr, resolveRequirement_of_mem hmem]
        · have hpos : count r (s.addedIDs ++ [t.id]) ≠ 0 := by
            refine Nat.ne_of_gt (count_pos.mpr ⟨r, hmem, ?_⟩)
            exact (fulfils_iff (role_of_needs (Or.inl hr))).mpr (role_of_needs (Or.inl hr))
          have hopen : openNeed (s.addedIDs ++ [t.id]) t.id = none := by
            rw [openNeed, hr, Option.filter_some, if_neg (by simpa using hpos)]
          rwa [hopen] at hpush
      · have hreq := required_of_needs hstage (Or.inl hr)
        have hne : role t.id ≠ r := fun he => by
          have h1 := depth_lt hstage hr
          rw [← he, depth_role] at h1
          omega
        have hcount : count r (s.addedIDs ++ [t.id]) = 0 := by
          rw [count_append, count_singleton (Or.inl hr), if_neg hne,
            hl.inv.not_needed hd hr fun hm => hmem (List.mem_append_left _ hm)]
        have hopen : openNeed (s.addedIDs ++ [t.id]) t.id = some r := by
          simp [openNeed, hr, hcount]
        rw [hopen] at hpush
        obtain ⟨t', htask, hown, hrole, hsim, hlist⟩ := requiredTask_load cfg (s.push t) hreq
        have hname : r ∈ (s.push t).unfulfilledRequirements → r = t'.id := fun hm =>
          hpush.inv.name_eq hm hsim hlist
        obtain ⟨s', hs', hl', hpl, hsub⟩ := ih t' (s.push t) (some r)
          (by rw [← depth_role t'.id, hrole]; exact lt_of_lt_of_le (depth_lt hstage hr) (by omega))
          hpush (by rw [hrole]; exact Or.inr rfl) (by simp [hrole])
          (by rw [hrole]; exact hname) (by rw [hrole]; exact fun h => (hsim h).symm)
          hown
        refine ⟨Plan.afterRequirement r s', ?_, hl'.afterRequirement r, by simp [hpl]; rfl, ?_⟩
        · exact (hs'.map (Plan.afterRequirement r)).of_succ fun n => by
            rw [addTask_succ hpre, hr, resolveRequirement_add hmem htask]
        · simp only [afterRequirement_unfulfilledRequirements]
          exact hsub.trans List.filter_sublist

/-- **One round of the loop** takes its requirement off the list. -/
theorem resolveRequirement_returns {cfg : Config} {s : PlanState} {r : TaskId}
    (hl : Loading cfg s none) (hr : r ∈ s.unfulfilledRequirements) :
    ∃ s', Returns (fun n => resolveRequirement cfg n (some r) s) s' ∧ Loading cfg s' none ∧
      s'.planner = s.planner ∧
      s'.unfulfilledRequirements.length < s.unfulfilledRequirements.length := by
  obtain ⟨hz, u, hu, hn⟩ := hl.inv.due r (Or.inl hr)
  have hmem : r ∉ s.addedIDs := fun hm =>
    count_eq_zero.mp hz r hm ((fulfils_iff (role_of_needs hn)).mpr (role_of_needs hn))
  obtain ⟨t, htask, hown, hrole, hsim, hlist⟩ :=
    requiredTask_load cfg s (required_of_needs (hl.inv.staged u hu) hn)
  have hname : r = t.id := hl.inv.name_eq hr hsim hlist
  obtain ⟨s', hs', hl', hpl, hsub⟩ := addTask_returns (depth t.id + 1) t s none (Nat.lt_succ_self _)
    hl (by rw [hrole]; exact Or.inl hr) (by simp) (by rw [hrole]; exact fun _ => hname)
    (by rw [hrole]; exact fun _ => hname) hown
  refine ⟨Plan.afterRequirement r s', ?_, hl'.afterRequirement r, by simp [hpl], ?_⟩
  · obtain ⟨N, hN⟩ := hs'.map (Plan.afterRequirement r)
    exact ⟨N, fun n hn => (resolveRequirement_add hmem htask).trans (hN n hn)⟩
  · rw [afterRequirement_unfulfilledRequirements]
    refine lt_of_le_of_lt hsub.length_le (List.length_filter_lt_length_iff_exists.mpr ⟨r, hr, ?_⟩)
    simp [← hname]

/-- **The requirement loop ends**, with nothing outstanding. -/
theorem resolveRequirements_returns {cfg : Config} {s : PlanState} (hl : Loading cfg s none) :
    ∃ s', Returns (fun n => resolveRequirements cfg n s) s' ∧ Loading cfg s' none ∧
      s'.planner = s.planner ∧ s'.unfulfilledRequirements = [] := by
  obtain ⟨t, ht, ⟨h1, h2⟩, h3⟩ := loop_returns
    (fun s : PlanState => !s.unfulfilledRequirements.isEmpty)
    (fun n s => resolveRequirement cfg n s.unfulfilledRequirements.head? s)
    (fun t => Loading cfg t none ∧ t.planner = s.planner)
    (fun t => t.unfulfilledRequirements.length)
    (fun t ht hc => by
      obtain ⟨r, rest, hr⟩ : ∃ r rest, t.unfulfilledRequirements = r :: rest :=
        List.exists_cons_of_ne_nil (by simpa using hc)
      obtain ⟨t', h1, h2, h3, h4⟩ := resolveRequirement_returns ht.1 (r := r) (by simp [hr])
      refine ⟨t', ?_, ⟨h2, h3.trans ht.2⟩, h4⟩
      simpa [hr] using h1)
    _ s le_rfl ⟨hl, rfl⟩
  exact ⟨t, ht, h1, h2, by simpa using h3⟩

/-! ### The imports -/

def importIds : List TaskId := [lsListFile, listFile, lsListDir, listDir, inStream, urlStream]

theorem getTask_mem (src : ImportSource) : src.getTask ∈ importIds := by
  rcases src with ⟨_ | _, _⟩ | ⟨_ | _, _⟩ | _ | _ <;> simp [importIds, ImportSource.getTask]

/-- What holds after some imports: their requirements, and nothing else, are outstanding. -/
structure Imported (cfg : Config) (s : PlanState) : Prop where
  imports : ∀ t ∈ s.addedIDs, t ∈ importIds
  out : ∀ r, r ∈ s.unfulfilledRequirements ↔ ∃ t ∈ s.addedIDs, TaskRequirement.get t = some r
  nodup : s.unfulfilledRequirements.Nodup
  added : s.addedIDs = s.taskQueue.map PipelineTask.id
  own : ∀ t ∈ s.taskQueue, t.planner = s.planner
  plain : cfg.simMeasure ≠ .noSimilarity → inStream ∉ s.addedIDs ∧ urlStream ∉ s.addedIDs

theorem import_spec {t : TaskId} (ht : t ∈ importIds) :
    stage t = 1 ∧ TaskPrerequisite.get t = none ∧ role t = t ∧ (∀ u, ¬ Needs u t) ∧
      ∃ r, TaskRequirement.get t = some r ∧ r ≠ t ∧
        (r = lsFileOpener ∨ r = unformattedFileOpener ∨
          r = defaultStreamParser ∧ (t = inStream ∨ t = urlStream)) := by
  simp only [importIds, List.mem_cons, List.not_mem_nil, or_false] at ht
  rcases ht with rfl | rfl | rfl | rfl | rfl | rfl <;>
    refine ⟨rfl, rfl, rfl, fun u => by cases u <;> decide, _, rfl, by decide, by decide⟩

theorem Imported.loading {cfg : Config} {s : PlanState} (h : Imported cfg s) :
    Loading cfg s none := by
  have hz : ∀ u r, Needs u r → count r s.addedIDs = 0 := fun u r hn => by
    refine count_eq_zero.mpr fun v hv hf => ?_
    obtain ⟨-, -, hrole, hno, -⟩ := import_spec (h.imports v hv)
    rw [fulfils_iff (role_of_needs hn), hrole] at hf
    exact hno u (hf ▸ hn)
  refine ⟨⟨?_, ?_, ?_, ?_, ?_, h.nodup, ?_, fun hs => ⟨?_, h.plain hs⟩, ?_⟩, h.added, h.own⟩
  · intro t ht r hn
    have hpre := (import_spec (h.imports t ht)).2.1
    refine Or.inr (Or.inl ((h.out r).mpr ⟨t, ht, hn.resolve_right ?_⟩))
    rw [hpre]; simp
  · rintro r (hr | hr)
    · obtain ⟨t, ht, hn⟩ := (h.out r).mp hr
      exact ⟨hz t r (Or.inl hn), t, ht, Or.inl hn⟩
    · cases hr
  · intro t r hn
    rw [hz t r hn]; exact Nat.zero_le 1
  · intro t r hn hpos
    rw [hz t r hn] at hpos; omega
  · intro r hr
    obtain ⟨t, ht, hn⟩ := (h.out r).mp hr
    obtain ⟨-, -, -, -, r', hr', -, hcase⟩ := import_spec (h.imports t ht)
    obtain rfl : r' = r := Option.some.inj (hr'.symm.trans hn)
    tauto
  · exact fun t ht => (import_spec (h.imports t ht)).1
  · intro hm
    obtain ⟨t, ht, hn⟩ := (h.out _).mp hm
    obtain ⟨-, -, -, -, r', hr', -, hcase⟩ := import_spec (h.imports t ht)
    obtain rfl := Option.some.inj (hr'.symm.trans hn)
    rcases hcase with hc | hc | ⟨-, rfl | rfl⟩
    · cases hc
    · cases hc
    · exact (h.plain hs).1 ht
    · exact (h.plain hs).2 ht
  · exact fun _ t ht => (import_spec (h.imports t ht)).2.2.1

theorem addTask_import {cfg : Config} {t : PipelineTask} (ht : t.id ∈ importIds) (n : ℕ)
    (s : PlanState) :
    addTask cfg (n + 1) t false s = some ((s.push t).require (TaskRequirement.get t.id)) := by
  simp [addTask, (import_spec ht).2.1, resolvePrerequisiteWith]

theorem Imported.add {cfg : Config} {s : PlanState} {src : ImportSource} (h : Imported cfg s)
    (hs : cfg.simMeasure = .noSimilarity ∨ ¬ src.IsStream) :
    Imported cfg ((s.push (s.task src.getTask)).require (TaskRequirement.get src.getTask)) := by
  obtain ⟨-, -, -, hno, r, hr, hne, hcase⟩ := import_spec (getTask_mem src)
  have hout : src.getTask ∉ s.unfulfilledRequirements := fun hm => by
    obtain ⟨u, -, hn⟩ := (h.out _).mp hm
    exact hno u (Or.inl hn)
  have hfilter : (s.push (s.task src.getTask)).unfulfilledRequirements =
      s.unfulfilledRequirements := by
    refine List.filter_eq_self.mpr fun r hr => ?_
    rw [decide_eq_true_eq]
    rintro rfl
    exact hout hr
  have hadd : (s.push (s.task src.getTask)).addedIDs = s.addedIDs ++ [src.getTask] := rfl
  have hqueue : (s.push (s.task src.getTask)).taskQueue = s.taskQueue ++ [s.task src.getTask] := rfl
  rw [hr]
  refine ⟨?_, ?_, ?_, ?_, ?_, ?_⟩
  · intro t ht
    rw [PlanState.require_addedIDs, hadd] at ht
    rcases List.mem_append.mp ht with ht | ht
    · exact h.imports t ht
    · rw [List.mem_singleton.mp ht]; exact getTask_mem src
  · intro r'
    rw [PlanState.mem_require, PlanState.require_addedIDs, hadd, hfilter, h.out]
    simp only [List.mem_append, List.mem_singleton, or_and_right, exists_or, exists_eq_left, hr,
      Option.some.injEq, eq_comm]
  · rw [PlanState.require_some, hfilter]
    split_ifs with hm
    · exact h.nodup
    · refine List.nodup_append.mpr ⟨h.nodup, by simp, fun a ha b hb he => ?_⟩
      rw [he, List.mem_singleton.mp hb] at ha
      exact hm ha
  · rw [PlanState.require_addedIDs, PlanState.require_taskQueue, hadd, hqueue, h.added]
    simp [PlanState.task]
  · rw [PlanState.require_taskQueue, PlanState.require_planner, hqueue]
    intro t ht
    rcases List.mem_append.mp ht with ht | ht
    · exact h.own t ht
    · rw [List.mem_singleton.mp ht]; rfl
  · intro hsim
    have hns := hs.resolve_left hsim
    rw [PlanState.require_addedIDs, hadd]
    obtain ⟨h1, h2⟩ := h.plain hsim
    rcases src with ⟨_ | _, _⟩ | ⟨_ | _, _⟩ | _ | _ <;>
      simp_all [ImportSource.IsStream, ImportSource.getTask]

/-- **The imports** are added one after the other. -/
theorem addImports_returns {cfg : Config} : ∀ (srcs : List ImportSource) (s : PlanState),
    (cfg.simMeasure = .noSimilarity ∨ ∀ src ∈ srcs, ¬ src.IsStream) → Imported cfg s →
    ∃ s', Returns (fun n => addImports cfg n srcs s) s' ∧ Imported cfg s' ∧ s'.planner = s.planner
  | [], s, _, h => ⟨s, Returns.pure s, h, rfl⟩
  | src :: rest, s, hs, h => by
    let s₁ : PlanState := { s with
      streamSize := s.streamSize + src.estimatedSize
      lsSize := s.lsSize + src.estimatedSize }
    have h₁ : Imported cfg s₁ := ⟨h.imports, h.out, h.nodup, h.added, h.own, h.plain⟩
    obtain ⟨s', hs', hi, hp⟩ := addImports_returns rest _
      (hs.imp id fun hm u hu => hm u (List.mem_cons_of_mem _ hu))
      (h₁.add (hs.imp id fun hm => hm src List.mem_cons_self))
    refine ⟨s', Returns.bind ?_ hs', hi, hp.trans (by simp; rfl)⟩
    exact (Returns.pure _).of_succ (fun n => addTask_import (getTask_mem src) n s₁)

end Joda.Pipeline.PlanLoad
