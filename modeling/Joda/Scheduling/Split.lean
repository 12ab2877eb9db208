import Joda.Scheduling.TaskGraph
import Mathlib.Data.List.Induction
import Mathlib.Data.List.Perm.Subperm
import Mathlib.Logic.Relation
import Mathlib.Order.Nat

/-! # Splitting a pipeline into independent parts

`splitIndependentPipelines` goes through the tasks in order and keeps the parts found so far, each with
the number of its last task. A task is put into the first part whose last task is connected to it, and
the other such parts are merged into that one, at the places they had before the first merge.

With two such parts this is right: the parts are then the connected components (`Good`). With a third
one a wrong part is merged, if there is one at all, and from then on the parts are never right again
(`Bad`). -/

namespace Joda.Scheduling.Split

open Joda.Scheduling.TaskGraph

variable {ν : Type}

/-- `pipes` and `pipe_num`, entry by entry. -/
abbrev Pipes (ν : Type) := List (List (PipelineTask ν) × ℕ)

/-- The places of the parts whose last task is connected to `t`. -/
def connectedPipes (connections : List (ℕ × ℕ)) (pipes : Pipes ν) (t : PipelineTask ν) : List ℕ :=
  (List.range pipes.length).filter fun i =>
    pipes[i]?.any fun pipe => connections.contains (pipe.2, t.num)

def sortPipe (pipe : List (PipelineTask ν)) : List (PipelineTask ν) :=
  pipe.mergeSort fun a b => a.num ≤ b.num

/-- The second part is put into the first one and erased; `none` where a place is out of range. -/
def merge (pipes : Pipes ν) (m : ℕ × ℕ) : Option (Pipes ν) :=
  match pipes[m.1]?, pipes[m.2]? with
  | some p, some q => some ((pipes.set m.1 (sortPipe (p.1 ++ q.1), p.2)).eraseIdx m.2)
  | _, _ => none

/-- The body of the loop over the tasks, with `toMerge` for the list of the merges. -/
def addToPipes (connections : List (ℕ × ℕ)) (pipes : Pipes ν) (t : PipelineTask ν) :
    Option (Pipes ν) :=
  match connectedPipes connections pipes t with
  | [] => some (pipes ++ [([t], t.num)])
  | found :: rest =>
    let toMerge := rest.map fun i => (found, i)
    toMerge.foldlM merge (pipes.modify found fun pipe => (pipe.1 ++ [t], t.num))

/-- **`Pipeline::splitIndependentPipelines`**, `none` where an index is out of range. -/
def splitIndependentPipelines (p : Pipeline ν) : Option (List (List (PipelineTask ν))) :=
  (p.tasks.foldlM (addToPipes p.connections) []).map (List.map Prod.fst)

/-! ### Components -/

/-- Two tasks of the pipeline are connected directly. -/
def Joined (connections : List (ℕ × ℕ)) (tasks : List (PipelineTask ν)) (a b : PipelineTask ν) : Prop :=
  a ∈ tasks ∧ b ∈ tasks ∧ (a.num, b.num) ∈ connections

def Together (pipes : List (List (PipelineTask ν))) (a b : PipelineTask ν) : Prop :=
  ∃ pipe ∈ pipes, a ∈ pipe ∧ b ∈ pipe

/-- **The parts are the connected components**: every task is in exactly one, and two tasks are in the
same if a path of connections joins them. -/
structure IsComponents (p : Pipeline ν) (pipes : List (List (PipelineTask ν))) : Prop where
  perm : pipes.flatten.Perm p.tasks
  together : ∀ a ∈ p.tasks, ∀ b ∈ p.tasks,
    (Together pipes a b ↔ Relation.EqvGen (Joined p.connections p.tasks) a b)

/-- The tasks that are connected to `t`. -/
def incoming (connections : List (ℕ × ℕ)) (tasks : List (PipelineTask ν)) (t : PipelineTask ν) : ℕ :=
  tasks.countP fun a => connections.contains (a.num, t.num)

/-! ### Merges -/

theorem sortPipe_perm (pipe : List (PipelineTask ν)) : (sortPipe pipe).Perm pipe :=
  List.mergeSort_perm pipe _

theorem exists_append_of_getElem? {α : Type} {l : List α} {i : ℕ} {a : α} (h : l[i]? = some a) :
    ∃ l₁ l₂, l = l₁ ++ a :: l₂ ∧ l₁.length = i := by
  obtain ⟨hi, rfl⟩ := List.getElem?_eq_some_iff.mp h
  refine ⟨l.take i, l.drop (i + 1), ?_, by simp; omega⟩
  rw [← List.drop_eq_getElem_cons hi, List.take_append_drop]

theorem merge_spec {pipes pipes' : Pipes ν} {first second : ℕ} (hlt : first < second)
    (h : merge pipes (first, second) = some pipes') :
    ∃ l₁ p l₂ q l₃, pipes = l₁ ++ p :: (l₂ ++ q :: l₃) ∧ l₁.length = first ∧
      first + 1 + l₂.length = second ∧
        pipes' = l₁ ++ (sortPipe (p.1 ++ q.1), p.2) :: (l₂ ++ l₃) := by
  unfold merge at h
  simp only at h
  split at h
  · next p q hp hq =>
    obtain ⟨l₁, rest, rfl, rfl⟩ := exists_append_of_getElem? hp
    obtain ⟨k, rfl⟩ : ∃ k, second = l₁.length + (k + 1) := ⟨second - l₁.length - 1, by omega⟩
    rw [List.getElem?_append_right (by omega), Nat.add_sub_cancel_left, List.getElem?_cons_succ] at hq
    obtain ⟨l₂, l₃, rfl, rfl⟩ := exists_append_of_getElem? hq
    refine ⟨l₁, p, l₂, q, l₃, rfl, rfl, by omega, ?_⟩
    rw [← Option.some.inj h, List.set_append_right _ _ (Nat.le_refl _), Nat.sub_self, List.set_cons_zero,
      List.eraseIdx_append_of_length_le (by omega), Nat.add_sub_cancel_left, List.eraseIdx_cons_succ,
      List.eraseIdx_append_of_length_le (Nat.le_refl _), Nat.sub_self, List.eraseIdx_cons_zero]
  · cases h

/-- What a merge does, whichever parts it takes: `n` parts are gone. -/
structure Merged (pipes pipes' : Pipes ν) (n : ℕ) : Prop where
  perm : (pipes'.flatMap Prod.fst).Perm (pipes.flatMap Prod.fst)
  length : pipes'.length + n = pipes.length
  last : (pipes'.map Prod.snd).Sublist (pipes.map Prod.snd)
  grow : ∀ p ∈ pipes, ∃ p' ∈ pipes', p.1 ⊆ p'.1
  kept : ∀ p' ∈ pipes', ∃ p ∈ pipes, p.2 = p'.2 ∧ p.1 ⊆ p'.1

theorem Merged.refl (pipes : Pipes ν) : Merged pipes pipes 0 :=
  ⟨.refl _, rfl, .refl _, fun p hp => ⟨p, hp, List.Subset.refl _⟩,
    fun p hp => ⟨p, hp, rfl, List.Subset.refl _⟩⟩

theorem Merged.trans {p₁ p₂ p₃ : Pipes ν} {n m : ℕ} (h : Merged p₁ p₂ n) (h' : Merged p₂ p₃ m) :
    Merged p₁ p₃ (n + m) where
  perm := h'.perm.trans h.perm
  length := by
    have h1 := h.length
    have h2 := h'.length
    omega
  last := h'.last.trans h.last
  grow p hp := by
    obtain ⟨q, hq, hpq⟩ := h.grow p hp
    obtain ⟨r, hr, hqr⟩ := h'.grow q hq
    exact ⟨r, hr, List.Subset.trans hpq hqr⟩
  kept p hp := by
    obtain ⟨q, hq, h1, hqp⟩ := h'.kept p hp
    obtain ⟨r, hr, h2, hrq⟩ := h.kept q hq
    exact ⟨r, hr, h2.trans h1, List.Subset.trans hrq hqp⟩

theorem merged_merge {pipes pipes' : Pipes ν} {first second : ℕ} (hlt : first < second)
    (h : merge pipes (first, second) = some pipes') : Merged pipes pipes' 1 := by
  obtain ⟨l₁, p, l₂, q, l₃, rfl, -, -, rfl⟩ := merge_spec hlt h
  have hsub : p.1 ⊆ sortPipe (p.1 ++ q.1) ∧ q.1 ⊆ sortPipe (p.1 ++ q.1) := by
    constructor <;> intro x hx <;> rw [(sortPipe_perm _).mem_iff, List.mem_append]
    · exact Or.inl hx
    · exact Or.inr hx
  constructor
  · simp only [List.flatMap_append, List.flatMap_cons]
    refine List.Perm.append_left _ ?_
    refine ((sortPipe_perm _).append_right _).trans ?_
    rw [List.append_assoc]
    refine List.Perm.append_left _ ?_
    rw [← List.append_assoc, ← List.append_assoc]
    exact List.perm_append_comm.append_right _
  · simp only [List.length_append, List.length_cons]
    omega
  · simp only [List.map_append, List.map_cons]
    exact (List.Sublist.refl _).append
      ((List.Sublist.refl _).append (List.sublist_cons_self _ _) |>.cons_cons _)
  · intro r hr
    simp only [List.mem_append, List.mem_cons] at hr ⊢
    rcases hr with hr | rfl | hr | rfl | hr
    · exact ⟨r, Or.inl hr, List.Subset.refl _⟩
    · exact ⟨_, Or.inr (Or.inl rfl), hsub.1⟩
    · exact ⟨r, Or.inr (Or.inr (Or.inl hr)), List.Subset.refl _⟩
    · exact ⟨_, Or.inr (Or.inl rfl), hsub.2⟩
    · exact ⟨r, Or.inr (Or.inr (Or.inr hr)), List.Subset.refl _⟩
  · intro r hr
    simp only [List.mem_append, List.mem_cons] at hr ⊢
    rcases hr with hr | rfl | hr | hr
    · exact ⟨r, Or.inl hr, rfl, List.Subset.refl _⟩
    · exact ⟨p, Or.inr (Or.inl rfl), rfl, hsub.1⟩
    · exact ⟨r, Or.inr (Or.inr (Or.inl hr)), rfl, List.Subset.refl _⟩
    · exact ⟨r, Or.inr (Or.inr (Or.inr (Or.inr hr))), rfl, List.Subset.refl _⟩

/-- The last of some merges. -/
theorem merges_concat {found i : ℕ} {rest : List ℕ} {pipes pipes' : Pipes ν}
    (h : ((rest ++ [i]).map fun i => (found, i)).foldlM merge pipes = some pipes') :
    ∃ pipes₁, (rest.map fun i => (found, i)).foldlM merge pipes = some pipes₁ ∧
      merge pipes₁ (found, i) = some pipes' := by
  rw [List.map_append, List.foldlM_append] at h
  obtain ⟨pipes₁, h1, h2⟩ := Option.bind_eq_some_iff.mp h
  rw [List.map_singleton, List.foldlM_cons] at h2
  obtain ⟨pipes₂, hmerge, h3⟩ := Option.bind_eq_some_iff.mp h2
  obtain rfl := Option.some.inj h3
  exact ⟨pipes₁, h1, hmerge⟩

/-- The first part stays where it is, and beyond the places of the merges the parts move up. -/
theorem merged_merges {found : ℕ} {pipes : Pipes ν} : ∀ (rest : List ℕ) {pipes' : Pipes ν},
    (∀ i ∈ rest, found < i) → rest.Pairwise (· < ·) →
      (rest.map fun i => (found, i)).foldlM merge pipes = some pipes' →
        Merged pipes pipes' rest.length ∧
          (∀ j, (∀ i ∈ rest, i ≤ j) → found < j → pipes'[j]? = pipes[j + rest.length]?) ∧
            ∀ p, pipes[found]? = some p → ∃ p', pipes'[found]? = some p' ∧ p.1 ⊆ p'.1 := by
  intro rest
  induction rest using List.reverseRecOn with
  | nil =>
    intro pipes' _ _ h
    rw [List.map_nil, List.foldlM_nil] at h
    cases h
    exact ⟨Merged.refl _, fun j _ _ => rfl, fun p hp => ⟨p, hp, List.Subset.refl _⟩⟩
  | append_singleton rest i ih =>
    intro pipes' hlt hord h
    obtain ⟨pipes₁, h1, h2⟩ := merges_concat h
    have hi : found < i := hlt i (by simp)
    obtain ⟨ha, hb⟩ := List.pairwise_append.mp hord |>.1, List.pairwise_append.mp hord |>.2.2
    obtain ⟨hm, hmove, hfound⟩ := ih (fun j hj => hlt j (by simp [hj])) ha h1
    refine ⟨by simpa using hm.trans (merged_merge hi h2), fun j hj hfj => ?_, fun p hp => ?_⟩
    · have hij : i ≤ j := hj i (by simp)
      have hstep : pipes'[j]? = pipes₁[j + 1]? := by
        obtain ⟨l₁, p, l₂, q, l₃, rfl, hl1, hl2, rfl⟩ := merge_spec hi h2
        obtain ⟨k, rfl⟩ : ∃ k, j = l₁.length + (l₂.length + k + 1) :=
          ⟨j - l₁.length - l₂.length - 1, by omega⟩
        rw [List.getElem?_append_right (by omega), List.getElem?_append_right (by omega)]
        have e1 : l₁.length + (l₂.length + k + 1) - l₁.length = l₂.length + k + 1 := by omega
        have e2 : l₁.length + (l₂.length + k + 1) + 1 - l₁.length = l₂.length + (k + 1) + 1 := by
          omega
        rw [e1, e2, List.getElem?_cons_succ, List.getElem?_cons_succ,
          List.getElem?_append_right (by omega), List.getElem?_append_right (by omega),
          Nat.add_sub_cancel_left, Nat.add_sub_cancel_left, List.getElem?_cons_succ]
      have hle : ∀ i' ∈ rest, i' ≤ j + 1 := fun i' hi' => by
        have := hb i' hi' i (by simp)
        omega
      rw [hstep, hmove (j + 1) hle (by omega), List.length_append, List.length_singleton,
        Nat.add_assoc, Nat.add_comm 1]
    · obtain ⟨p₁, hp₁, hsub⟩ := hfound p hp
      obtain ⟨l₁, r, l₂, q, l₃, rfl, hl1, -, rfl⟩ := merge_spec hi h2
      rw [← hl1, List.getElem?_append_right (Nat.le_refl _), Nat.sub_self, List.getElem?_cons_zero] at hp₁
      cases hp₁
      refine ⟨(sortPipe (p₁.1 ++ q.1), p₁.2), ?_, fun x hx => ?_⟩
      · rw [← hl1, List.getElem?_append_right (Nat.le_refl _), Nat.sub_self, List.getElem?_cons_zero]
      · rw [(sortPipe_perm _).mem_iff, List.mem_append]
        exact Or.inl (hsub hx)

/-! ### What every step keeps -/

/-- Each task is in exactly one part, and the number of a part is that of one of its tasks. -/
structure Sound (done : List (PipelineTask ν)) (pipes : Pipes ν) : Prop where
  perm : (pipes.flatMap Prod.fst).Perm done
  last : ∀ p ∈ pipes, ∃ m ∈ p.1, m.num = p.2

variable {connections : List (ℕ × ℕ)} {done : List (PipelineTask ν)} {pipes pipes' : Pipes ν}
  {t : PipelineTask ν}

theorem Merged.sound {n : ℕ} (h : Merged pipes pipes' n) (hs : Sound done pipes) :
    Sound done pipes' where
  perm := h.perm.trans hs.perm
  last p hp := by
    obtain ⟨q, hq, hnum, hsub⟩ := h.kept p hp
    obtain ⟨m, hm, he⟩ := hs.last q hq
    exact ⟨m, hsub hm, he.trans hnum⟩

theorem Sound.mem {p : List (PipelineTask ν) × ℕ} (hs : Sound done pipes) (hp : p ∈ pipes)
    {x : PipelineTask ν} (hx : x ∈ p.1) : x ∈ done :=
  hs.perm.mem_iff.mp (List.mem_flatMap.mpr ⟨p, hp, hx⟩)

theorem Sound.exists_pipe (hs : Sound done pipes) {x : PipelineTask ν} (hx : x ∈ done) :
    ∃ p ∈ pipes, x ∈ p.1 := List.mem_flatMap.mp (hs.perm.mem_iff.mpr hx)

/-- The numbers of the parts are numbers of different tasks. -/
theorem Sound.subperm (hs : Sound done pipes) :
    (pipes.map Prod.snd).Subperm (done.map (·.num)) := by
  have h : ∀ pipes : Pipes ν, (∀ p ∈ pipes, ∃ m ∈ p.1, m.num = p.2) →
      (pipes.map Prod.snd).Subperm ((pipes.flatMap Prod.fst).map (·.num)) := by
    intro pipes
    induction pipes with
    | nil => exact fun _ => List.nil_subperm
    | cons p pipes ih =>
      intro hlast
      obtain ⟨m, hm, he⟩ := hlast p List.mem_cons_self
      rw [List.map_cons, List.flatMap_cons, List.map_append]
      have hp : [p.2].Subperm (p.1.map (·.num)) :=
        List.singleton_subperm_iff.mpr (List.mem_map.mpr ⟨m, hm, he⟩)
      exact hp.append (ih fun q hq => hlast q (List.mem_cons_of_mem _ hq))
  exact (h pipes hs.last).trans (hs.perm.map _).subperm

/-- How many parts a task is put into. -/
theorem length_connectedPipes (connections : List (ℕ × ℕ)) (t : PipelineTask ν) : ∀ pipes : Pipes ν,
    (connectedPipes connections pipes t).length =
      (pipes.map Prod.snd).countP fun n => connections.contains (n, t.num) := by
  intro pipes
  have h : ∀ (l : Pipes ν) (f : List (PipelineTask ν) × ℕ → Bool),
      ((List.range l.length).filter fun i => l[i]?.any f).length = l.countP f := by
    intro l f
    induction l with
    | nil => rfl
    | cons a l ih =>
      rw [List.length_cons, List.range_succ_eq_map, List.filter_cons, List.countP_cons, ← ih]
      have hmap : ((List.range l.length).map Nat.succ).filter (fun i => (a :: l)[i]?.any f) =
          ((List.range l.length).filter fun i => l[i]?.any f).map Nat.succ := by
        rw [List.filter_map]
        rfl
      rw [hmap]
      simp only [List.getElem?_cons_zero, Option.any_some]
      split_ifs <;> simp
  rw [connectedPipes, h, List.countP_map]
  rfl

/-- The places of the parts are in order and in range, and the parts there are connected to `t`. -/
theorem mem_connectedPipes {i : ℕ} : i ∈ connectedPipes connections pipes t ↔
    ∃ p, pipes[i]? = some p ∧ (p.2, t.num) ∈ connections := by
  rw [connectedPipes, List.mem_filter, List.mem_range]
  constructor
  · rintro ⟨hi, h⟩
    rw [List.getElem?_eq_getElem hi, Option.any_some, List.contains_iff_mem] at h
    exact ⟨pipes[i], List.getElem?_eq_getElem hi, h⟩
  · rintro ⟨p, hp, h⟩
    refine ⟨(List.getElem?_eq_some_iff.mp hp).1, ?_⟩
    rw [hp, Option.any_some, List.contains_iff_mem]
    exact h

theorem connectedPipes_pairwise (connections : List (ℕ × ℕ)) (pipes : Pipes ν) (t : PipelineTask ν) :
    (connectedPipes connections pipes t).Pairwise (· < ·) :=
  List.pairwise_lt_range.filter _

/-- The first part takes up the new task. -/
theorem sound_modify {found : ℕ} (hs : Sound done pipes) (hf : found < pipes.length) :
    Sound (done ++ [t]) (pipes.modify found fun pipe => (pipe.1 ++ [t], t.num)) := by
  obtain ⟨l₁, p, l₂, rfl, -, hmod⟩ := List.exists_of_modify (fun pipe => (pipe.1 ++ [t], t.num)) hf
  rw [hmod]
  constructor
  · refine List.Perm.trans ?_ (hs.perm.append_right [t])
    simp only [List.flatMap_append, List.flatMap_cons, List.append_assoc]
    exact List.Perm.append_left _ (List.Perm.append_left _ List.perm_append_comm)
  · intro q hq
    rcases List.mem_append.mp hq with hq | hq
    · exact hs.last q (List.mem_append_left _ hq)
    · rcases List.mem_cons.mp hq with rfl | hq
      · exact ⟨t, by simp, rfl⟩
      · exact hs.last q (List.mem_append_right _ (List.mem_cons_of_mem _ hq))

/-- **A step of the loop**, whatever parts there are. -/
theorem step_spec (hs : Sound done pipes) (h : addToPipes connections pipes t = some pipes') :
    Sound (done ++ [t]) pipes' ∧
      pipes'.length + (connectedPipes connections pipes t).length = pipes.length + 1 ∧
        (∀ n ∈ pipes'.map Prod.snd, n = t.num ∨ n ∈ pipes.map Prod.snd) ∧
          ∀ a b, Together (pipes.map Prod.fst) a b → Together (pipes'.map Prod.fst) a b := by
  unfold addToPipes at h
  have hpw := connectedPipes_pairwise connections pipes t
  have hmem : ∀ i ∈ connectedPipes connections pipes t, i < pipes.length := by
    intro i hi
    obtain ⟨p, hp, -⟩ := mem_connectedPipes.mp hi
    exact (List.getElem?_eq_some_iff.mp hp).1
  cases hc : connectedPipes connections pipes t with
  | nil =>
    rw [hc] at h
    cases h
    refine ⟨⟨?_, ?_⟩, by simp, ?_, ?_⟩
    · rw [List.flatMap_append]
      simpa using hs.perm.append_right [t]
    · intro p hp
      rcases List.mem_append.mp hp with hp | hp
      · exact hs.last p hp
      · rw [List.mem_singleton.mp hp]
        exact ⟨t, by simp, rfl⟩
    · intro n hn
      rw [List.map_append, List.mem_append] at hn
      rcases hn with hn | hn
      · exact Or.inr hn
      · exact Or.inl (by simpa using hn)
    · rintro a b ⟨p, hp, hab⟩
      exact ⟨p, by rw [List.map_append]; exact List.mem_append_left _ hp, hab⟩
  | cons found rest =>
    rw [hc] at h hpw hmem
    obtain ⟨hlt, hord⟩ := List.pairwise_cons.mp hpw
    have hf := hmem found List.mem_cons_self
    obtain ⟨hm, -, -⟩ := merged_merges rest hlt hord h
    obtain ⟨l₁, p, l₂, rfl, -, hmod⟩ :=
      List.exists_of_modify (fun pipe => (pipe.1 ++ [t], t.num)) hf
    refine ⟨hm.sound (sound_modify hs hf), ?_, ?_, ?_⟩
    · have hl := hm.length
      rw [List.length_modify] at hl
      rw [List.length_cons]
      omega
    · intro n hn
      have hn' := hm.last.subset hn
      rw [hmod] at hn'
      simp only [List.map_append, List.map_cons, List.mem_append, List.mem_cons] at hn' ⊢
      tauto
    · rintro a b ⟨r, hr, hab⟩
      obtain ⟨q, hq, rfl⟩ := List.mem_map.mp hr
      have hq' : ∃ q' ∈ (l₁ ++ p :: l₂).modify found (fun pipe => (pipe.1 ++ [t], t.num)),
          q.1 ⊆ q'.1 := by
        rw [hmod]
        rcases List.mem_append.mp hq with hq | hq
        · exact ⟨q, List.mem_append_left _ hq, List.Subset.refl _⟩
        · rcases List.mem_cons.mp hq with rfl | hq
          · exact ⟨_, List.mem_append_right _ List.mem_cons_self, List.subset_append_left _ _⟩
          · exact ⟨q, List.mem_append_right _ (List.mem_cons_of_mem _ hq), List.Subset.refl _⟩
      obtain ⟨q', hq', hsub⟩ := hq'
      obtain ⟨r', hr', hsub'⟩ := hm.grow q' hq'
      exact ⟨r'.1, List.mem_map.mpr ⟨r', hr', rfl⟩, hsub' (hsub hab.1), hsub' (hsub hab.2)⟩

/-! ### Roots -/

/-- The task has no connection to the tasks seen so far. -/
def isRoot (connections : List (ℕ × ℕ)) (done : List (PipelineTask ν)) (a : PipelineTask ν) : Bool :=
  !done.any fun b => connections.contains (a.num, b.num)

theorem isRoot_iff {a : PipelineTask ν} :
    isRoot connections done a = true ↔ ∀ b ∈ done, (a.num, b.num) ∉ connections := by
  simp [isRoot]

theorem isRoot_append {a : PipelineTask ν} : isRoot connections (done ++ [t]) a = true ↔
    isRoot connections done a = true ∧ (a.num, t.num) ∉ connections := by
  rw [isRoot_iff, isRoot_iff]
  simp only [List.mem_append, List.mem_singleton, or_imp, forall_and, forall_eq]

/-- There are as many components as roots. -/
def roots (connections : List (ℕ × ℕ)) (done : List (PipelineTask ν)) : ℕ :=
  done.countP (isRoot connections done)

/-- Connections lead to later tasks, and a task has at most one. -/
structure Forward (connections : List (ℕ × ℕ)) : Prop where
  later : ∀ c ∈ connections, c.1 < c.2
  one : ∀ a b c, (a, b) ∈ connections → (a, c) ∈ connections → b = c

section Step

variable (hfw : Forward connections) (hord : (done ++ [t]).Pairwise fun a b => a.num < b.num)

include hord in
theorem lt_of_mem {a : PipelineTask ν} (ha : a ∈ done) : a.num < t.num :=
  (List.pairwise_append.mp hord).2.2 a ha t (List.mem_singleton_self t)

include hfw hord

/-- The new task is a root. -/
theorem isRoot_new : isRoot connections (done ++ [t]) t = true := by
  rw [isRoot_iff]
  intro b hb hc
  have hlt := hfw.later _ hc
  rcases List.mem_append.mp hb with hb | hb
  · have := lt_of_mem hord hb
    simp only at hlt
    omega
  · rw [List.mem_singleton.mp hb] at hlt
    exact lt_irrefl _ hlt

/-- What is connected to the new task was a root. -/
theorem isRoot_of_joined {a : PipelineTask ν} (h : (a.num, t.num) ∈ connections) :
    isRoot connections done a = true := by
  rw [isRoot_iff]
  intro b hb hc
  have := lt_of_mem hord hb
  have := hfw.one _ _ _ h hc
  omega

/-- The roots that are connected to the new task are roots no longer. -/
theorem roots_append :
    roots connections (done ++ [t]) + incoming connections done t = roots connections done + 1 := by
  have hsplit : done.countP (isRoot connections done) =
      done.countP (isRoot connections (done ++ [t])) + incoming connections done t := by
    have h := List.countP_eq_countP_filter_add done (isRoot connections done)
      fun a => connections.contains (a.num, t.num)
    rw [h, List.countP_filter, List.countP_filter, Nat.add_comm]
    congr 1
    · refine List.countP_congr fun a _ => ?_
      simp [isRoot_append]
    · refine List.countP_congr fun a _ => ?_
      simp only [Bool.and_eq_true, List.contains_iff_mem, and_iff_right_iff_imp]
      exact isRoot_of_joined hfw hord
  have hnew : roots connections (done ++ [t]) =
      done.countP (isRoot connections (done ++ [t])) + 1 := by
    rw [roots, List.countP_append, List.countP_singleton, if_pos (isRoot_new hfw hord)]
  rw [hnew, roots, hsplit]
  omega

end Step

/-- No task is put into more parts than tasks are connected to it. -/
theorem connectedPipes_le (hs : Sound done pipes) :
    (connectedPipes connections pipes t).length ≤ incoming connections done t := by
  rw [length_connectedPipes, incoming]
  refine (hs.subperm.countP_le _).trans (le_of_eq ?_)
  rw [List.countP_map]
  rfl

/-! ### Right parts -/

/-- **The parts are the connected components of the tasks seen so far**, each with its root. -/
structure Good (connections : List (ℕ × ℕ)) (tasks done : List (PipelineTask ν))
    (pipes : Pipes ν) : Prop extends Sound done pipes where
  closed : ∀ p ∈ pipes, ∀ a ∈ p.1, ∀ b ∈ done, (a.num, b.num) ∈ connections → b ∈ p.1
  root : ∀ p ∈ pipes, ∀ a ∈ p.1, isRoot connections done a = true → a.num = p.2
  isRoot : ∀ p ∈ pipes, ∀ b ∈ done, (p.2, b.num) ∉ connections
  joined : ∀ p ∈ pipes, ∀ a ∈ p.1, ∀ b ∈ p.1, Relation.EqvGen (Joined connections tasks) a b
  count : pipes.length = roots connections done

/-- Every task connected to the new one is the last of a part. -/
theorem Good.connectedPipes_eq {tasks : List (PipelineTask ν)} (hg : Good connections tasks done pipes)
    (hfw : Forward connections) (hord : (done ++ [t]).Pairwise fun a b => a.num < b.num) :
    (connectedPipes connections pipes t).length = incoming connections done t := by
  refine le_antisymm (connectedPipes_le hg.toSound) ?_
  rw [length_connectedPipes, incoming, List.countP_eq_length_filter, List.countP_eq_length_filter,
    ← List.length_map (f := PipelineTask.num)]
  have hnd : (done.map (·.num)).Nodup := by
    rw [List.Nodup, List.pairwise_map]
    exact (List.pairwise_append.mp hord).1.imp fun h => Nat.ne_of_lt h
  refine List.Subperm.length_le (List.subperm_of_subset ?_ ?_)
  · exact hnd.sublist (List.filter_sublist.map _)
  · intro n hn
    obtain ⟨a, ha, rfl⟩ := List.mem_map.mp hn
    obtain ⟨ha, hc⟩ := List.mem_filter.mp ha
    rw [List.contains_iff_mem] at hc
    obtain ⟨p, hp, hap⟩ := hg.exists_pipe ha
    have hr := hg.root p hp a hap (isRoot_of_joined hfw hord hc)
    rw [List.mem_filter, List.contains_iff_mem, hr]
    exact ⟨List.mem_map.mpr ⟨p, hp, rfl⟩, hr ▸ hc⟩

/-- **The parts a new task is connected to become one part.** -/
theorem Good.absorb {tasks : List (PipelineTask ν)} (hg : Good connections tasks done pipes)
    (hfw : Forward connections) (hord : (done ++ [t]).Pairwise fun a b => a.num < b.num)
    (htasks : ∀ a ∈ done ++ [t], a ∈ tasks) {ms us : Pipes ν} {x : List (PipelineTask ν)}
    (hp : pipes.Perm (ms ++ us)) (hms : ∀ p ∈ ms, (p.2, t.num) ∈ connections)
    (hus : ∀ p ∈ us, (p.2, t.num) ∉ connections) (hx : x.Perm (ms.flatMap Prod.fst ++ [t]))
    (hp' : pipes'.Perm ((x, t.num) :: us)) : Good connections tasks (done ++ [t]) pipes' := by
  have hmem : ∀ p, p ∈ pipes ↔ p ∈ ms ∨ p ∈ us := fun p => by rw [hp.mem_iff, List.mem_append]
  have hmem' : ∀ p, p ∈ pipes' ↔ p = (x, t.num) ∨ p ∈ us := fun p => by
    rw [hp'.mem_iff, List.mem_cons]
  have hxmem : ∀ a, a ∈ x ↔ (∃ p ∈ ms, a ∈ p.1) ∨ a = t := fun a => by
    rw [hx.mem_iff, List.mem_append, List.mem_flatMap, List.mem_singleton]
  -- the tasks of the parts that become one are joined to the new one
  have hjoin : ∀ a ∈ x, Relation.EqvGen (Joined connections tasks) a t := by
    intro a ha
    rcases (hxmem a).mp ha with ⟨p, hpm, hap⟩ | rfl
    · have hpp := (hmem p).mpr (Or.inl hpm)
      obtain ⟨m, hm, hnum⟩ := hg.last p hpp
      have hmt : Joined connections tasks m t := by
        refine ⟨htasks m ?_, htasks t (by simp), ?_⟩
        · exact List.mem_append_left _ (hg.mem hpp hm)
        · rw [hnum]
          exact hms p hpm
      exact .trans _ _ _ (hg.joined p hpp a hap m hm) (.rel _ _ hmt)
    · exact .refl _
  constructor
  · constructor
    · refine (hp'.flatMap_right _).trans ?_
      rw [List.flatMap_cons]
      refine (hx.append_right _).trans ?_
      have hdone : (ms.flatMap Prod.fst ++ us.flatMap Prod.fst).Perm done := by
        rw [← List.flatMap_append]
        exact (hp.symm.flatMap_right _).trans hg.perm
      rw [List.append_assoc]
      refine (List.Perm.append_left _ List.perm_append_comm).trans ?_
      rw [← List.append_assoc]
      exact hdone.append_right [t]
    · intro p hpp
      rcases (hmem' p).mp hpp with rfl | hpu
      · exact ⟨t, (hxmem t).mpr (Or.inr rfl), rfl⟩
      · exact hg.last p ((hmem p).mpr (Or.inr hpu))
  · intro p hpp a ha b hb hc
    rcases (hmem' p).mp hpp with rfl | hpu
    · rcases (hxmem a).mp ha with ⟨q, hq, haq⟩ | rfl
      · rcases List.mem_append.mp hb with hb | hb
        · exact (hxmem b).mpr (Or.inl ⟨q, hq,
            hg.closed q ((hmem q).mpr (Or.inl hq)) a haq b hb hc⟩)
        · exact (hxmem b).mpr (Or.inr (List.mem_singleton.mp hb))
      · exact absurd hc (isRoot_iff.mp (isRoot_new hfw hord) b hb)
    · have hpp' := (hmem p).mpr (Or.inr hpu)
      rcases List.mem_append.mp hb with hb | hb
      · exact hg.closed p hpp' a ha b hb hc
      · rw [List.mem_singleton.mp hb] at hc
        have hr := hg.root p hpp' a ha (isRoot_of_joined hfw hord hc)
        exact absurd (hr ▸ hc) (hus p hpu)
  · intro p hpp a ha hr
    obtain ⟨hr1, hr2⟩ := isRoot_append.mp hr
    rcases (hmem' p).mp hpp with rfl | hpu
    · rcases (hxmem a).mp ha with ⟨q, hq, haq⟩ | rfl
      · have hnum := hg.root q ((hmem q).mpr (Or.inl hq)) a haq hr1
        exact absurd (hnum ▸ hms q hq) hr2
      · rfl
    · exact hg.root p ((hmem p).mpr (Or.inr hpu)) a ha hr1
  · intro p hpp b hb
    rcases (hmem' p).mp hpp with rfl | hpu
    · exact isRoot_iff.mp (isRoot_new hfw hord) b hb
    · rcases List.mem_append.mp hb with hb | hb
      · exact hg.isRoot p ((hmem p).mpr (Or.inr hpu)) b hb
      · rw [List.mem_singleton.mp hb]
        exact hus p hpu
  · intro p hpp a ha b hb
    rcases (hmem' p).mp hpp with rfl | hpu
    · exact .trans _ _ _ (hjoin a ha) (.symm _ _ (hjoin b hb))
    · exact hg.joined p ((hmem p).mpr (Or.inr hpu)) a ha b hb
  · have hroots := roots_append hfw hord
    have hcount := hg.connectedPipes_eq hfw hord
    have hM : (connectedPipes connections pipes t).length = ms.length := by
      rw [length_connectedPipes, (hp.map _).countP_eq, List.map_append, List.countP_append,
        List.countP_eq_length.mpr, List.countP_eq_zero.mpr]
      · simp
      · intro n hn
        obtain ⟨p, hpu, rfl⟩ := List.mem_map.mp hn
        rw [List.contains_iff_mem]
        exact hus p hpu
      · intro n hn
        obtain ⟨p, hpm, rfl⟩ := List.mem_map.mp hn
        rw [List.contains_iff_mem]
        exact hms p hpm
    have hlen := hp.length_eq
    have hlen' := hp'.length_eq
    rw [List.length_append] at hlen
    rw [List.length_cons] at hlen'
    have hc := hg.count
    omega

theorem exists_merge {first second : ℕ} (h1 : first < second) (h2 : second < pipes.length) :
    ∃ pipes', merge pipes (first, second) = some pipes' := by
  unfold merge
  simp only
  rw [List.getElem?_eq_getElem h2, List.getElem?_eq_getElem (h1.trans h2)]
  exact ⟨_, rfl⟩

/-- Parts that are as many as all connected ones leave none that is connected. -/
theorem not_connected {ms us : Pipes ν} (hp : pipes.Perm (ms ++ us))
    (hms : ∀ p ∈ ms, (p.2, t.num) ∈ connections)
    (hlen : (connectedPipes connections pipes t).length = ms.length) :
    ∀ p ∈ us, (p.2, t.num) ∉ connections := by
  have hM : (ms.map Prod.snd).countP (fun n => connections.contains (n, t.num)) = ms.length := by
    rw [List.countP_eq_length.mpr, List.length_map]
    intro n hn
    obtain ⟨p, hpm, rfl⟩ := List.mem_map.mp hn
    rw [List.contains_iff_mem]
    exact hms p hpm
  rw [length_connectedPipes, (hp.map _).countP_eq, List.map_append, List.countP_append, hM] at hlen
  have hzero : (us.map Prod.snd).countP (fun n => connections.contains (n, t.num)) = 0 := by omega
  intro p hpu hc
  have h := List.countP_eq_zero.mp hzero p.2 (List.mem_map.mpr ⟨p, hpu, rfl⟩)
  rw [List.contains_iff_mem] at h
  exact h hc

/-- **With at most two tasks connected to the new one the parts stay right.** -/
theorem good_step {tasks : List (PipelineTask ν)} (hg : Good connections tasks done pipes)
    (hfw : Forward connections) (hord : (done ++ [t]).Pairwise fun a b => a.num < b.num)
    (htasks : ∀ a ∈ done ++ [t], a ∈ tasks) (htwo : incoming connections done t ≤ 2) :
    ∃ pipes', addToPipes connections pipes t = some pipes' ∧
      Good connections tasks (done ++ [t]) pipes' := by
  rw [← hg.connectedPipes_eq hfw hord] at htwo
  have hpw := connectedPipes_pairwise connections pipes t
  unfold addToPipes
  rcases hc : connectedPipes connections pipes t with _ | ⟨found, _ | ⟨i, _ | ⟨j, rest⟩⟩⟩
  · refine ⟨_, rfl, ?_⟩
    have hperm : pipes.Perm ([] ++ pipes) := .refl pipes
    have hms : ∀ p ∈ ([] : Pipes ν), (p.2, t.num) ∈ connections := by simp
    have hus := not_connected hperm hms (by rw [hc]; rfl)
    exact hg.absorb hfw hord htasks hperm hms hus (.refl [t]) List.perm_append_comm
  · obtain ⟨p, hp, hcon⟩ := mem_connectedPipes.mp (hc ▸ List.mem_singleton_self found)
    obtain ⟨hf, hpf⟩ := List.getElem?_eq_some_iff.mp hp
    obtain ⟨l₁, q, l₂, rfl, hl, hmod⟩ :=
      List.exists_of_modify (fun pipe => (pipe.1 ++ [t], t.num)) hf
    rw [← hl, List.getElem?_append_right (Nat.le_refl _), Nat.sub_self,
      List.getElem?_cons_zero, Option.some.injEq] at hp
    subst hp
    refine ⟨_, rfl, ?_⟩
    rw [hmod]
    have hperm : (l₁ ++ q :: l₂).Perm ([q] ++ (l₁ ++ l₂)) := List.perm_middle
    have hms : ∀ p ∈ [q], (p.2, t.num) ∈ connections := by simpa using hcon
    have hx : (q.1 ++ [t]).Perm ([q].flatMap Prod.fst ++ [t]) := by simp
    exact hg.absorb hfw hord htasks hperm hms (not_connected hperm hms (by rw [hc]; rfl)) hx
      List.perm_middle
  · rw [hc, List.pairwise_cons] at hpw
    have hfi := hpw.1 i List.mem_cons_self
    obtain ⟨p, hp, hcon⟩ := mem_connectedPipes.mp (hc ▸ List.mem_cons_self)
    obtain ⟨r, hr, hcon'⟩ := mem_connectedPipes.mp
      (hc ▸ List.mem_cons_of_mem found (List.mem_singleton_self i))
    obtain ⟨hf, -⟩ := List.getElem?_eq_some_iff.mp hp
    obtain ⟨hi, -⟩ := List.getElem?_eq_some_iff.mp hr
    have hlen : i < (pipes.modify found fun pipe => (pipe.1 ++ [t], t.num)).length := by
      rw [List.length_modify]
      exact hi
    obtain ⟨pipes', hm⟩ := exists_merge hfi hlen
    refine ⟨pipes', ?_, ?_⟩
    · show merge _ _ >>= (fun s => List.foldlM merge s []) = _
      rw [hm]
      rfl
    · obtain ⟨l₁, q, l₂, rfl, hl, hmod⟩ :=
        List.exists_of_modify (fun pipe => (pipe.1 ++ [t], t.num)) hf
      rw [hmod] at hm
      obtain ⟨k₁, q', k₂, r', k₃, he, hk1, hk2, rfl⟩ := merge_spec hfi hm
      obtain ⟨rfl, he'⟩ := List.append_inj he (by omega)
      rw [List.cons.injEq] at he'
      obtain ⟨rfl, rfl⟩ := he'
      rw [← hl, List.getElem?_append_right (Nat.le_refl _), Nat.sub_self,
        List.getElem?_cons_zero, Option.some.injEq] at hp
      subst hp
      have hir : i = l₁.length + (k₂.length + 1) := by omega
      rw [hir, List.getElem?_append_right (by omega), Nat.add_sub_cancel_left,
        List.getElem?_cons_succ, List.getElem?_append_right (Nat.le_refl _), Nat.sub_self,
        List.getElem?_cons_zero, Option.some.injEq] at hr
      subst hr
      have hperm : (l₁ ++ q :: (k₂ ++ r' :: k₃)).Perm ([q, r'] ++ (l₁ ++ (k₂ ++ k₃))) := by
        refine List.perm_middle.trans (List.Perm.cons _ ?_)
        rw [← List.append_assoc, ← List.append_assoc]
        exact List.perm_middle
      have hms : ∀ p ∈ [q, r'], (p.2, t.num) ∈ connections := by simp [hcon, hcon']
      have hx : (sortPipe (q.1 ++ [t] ++ r'.1)).Perm ([q, r'].flatMap Prod.fst ++ [t]) := by
        refine (sortPipe_perm _).trans ?_
        simp only [List.flatMap_cons, List.flatMap_nil, List.append_nil, List.append_assoc]
        exact List.Perm.append_left _ List.perm_append_comm
      exact hg.absorb hfw hord htasks hperm hms (not_connected hperm hms (by rw [hc]; rfl)) hx
        List.perm_middle
  · rw [hc] at htwo
    simp only [List.length_cons] at htwo
    omega

/-! ### Wrong parts -/

/-- **The parts are wrong, and will stay so**: there are more of them than components, or the root `e` of
a component is lost, and `e` is in a part with a later task. -/
def Bad (connections : List (ℕ × ℕ)) (done : List (PipelineTask ν)) (pipes : Pipes ν) : Prop :=
  Sound done pipes ∧ (roots connections done < pipes.length ∨
    roots connections done ≤ pipes.length ∧ ∃ e ∈ done, ∃ s ∈ done, e.num < s.num ∧
      isRoot connections done e = true ∧ e.num ∉ pipes.map Prod.snd ∧
        Together (pipes.map Prod.fst) e s)

/-- If a lost root is connected to the new task, then too few parts become one. -/
theorem connectedPipes_lt (hs : Sound done pipes) (hnd : (done.map (·.num)).Nodup)
    {e : PipelineTask ν} (he : e ∈ done) (hlost : e.num ∉ pipes.map Prod.snd)
    (hc : (e.num, t.num) ∈ connections) :
    (connectedPipes connections pipes t).length < incoming connections done t := by
  have hsub : (e.num :: pipes.map Prod.snd).Subperm (done.map (·.num)) := by
    refine List.subperm_of_subset ?_ ?_
    · obtain ⟨l, hl, hls⟩ := hs.subperm
      exact List.nodup_cons.mpr ⟨hlost, (hl.nodup_iff).mp (hnd.sublist hls)⟩
    · rw [List.cons_subset]
      exact ⟨List.mem_map.mpr ⟨e, he, rfl⟩, hs.subperm.subset⟩
  have h := hsub.countP_le fun n => connections.contains (n, t.num)
  rw [List.countP_cons, if_pos (by rw [List.contains_iff_mem]; exact hc),
    ← length_connectedPipes connections t pipes, List.countP_map] at h
  exact h

theorem bad_step (hb : Bad connections done pipes) (hfw : Forward connections)
    (hord : (done ++ [t]).Pairwise fun a b => a.num < b.num)
    (h : addToPipes connections pipes t = some pipes') : Bad connections (done ++ [t]) pipes' := by
  obtain ⟨hs, hb⟩ := hb
  obtain ⟨hs', hlen, hlast, htog⟩ := step_spec hs h
  have hroots := roots_append hfw hord
  have hle : (connectedPipes connections pipes t).length ≤ incoming connections done t :=
    connectedPipes_le hs
  refine ⟨hs', ?_⟩
  rcases hb with hb | ⟨hb, e, he, s, hsd, hlt, hroot, hlost, htes⟩
  · exact Or.inl (by omega)
  · by_cases hc : (e.num, t.num) ∈ connections
    · have hnd : (done.map (·.num)).Nodup := by
        rw [List.Nodup, List.pairwise_map]
        exact (List.pairwise_append.mp hord).1.imp fun h => Nat.ne_of_lt h
      have hless := connectedPipes_lt hs hnd he hlost hc
      exact Or.inl (by omega)
    · refine Or.inr ⟨by omega, e, List.mem_append_left _ he, s, List.mem_append_left _ hsd, hlt,
        isRoot_append.mpr ⟨hroot, hc⟩, fun hm => ?_, htog e s htes⟩
      rcases hlast _ hm with hm | hm
      · have := lt_of_mem hord he
        omega
      · exact hlost hm

/-- **A third task connected to the new one**: if no place is out of range, then the last merge takes a
part that is not connected to the new task. -/
theorem bad_of_three {tasks : List (PipelineTask ν)} (hg : Good connections tasks done pipes)
    (hfw : Forward connections) (hord : (done ++ [t]).Pairwise fun a b => a.num < b.num)
    (hthree : 2 < incoming connections done t)
    (h : addToPipes connections pipes t = some pipes') : Bad connections (done ++ [t]) pipes' := by
  obtain ⟨hs', hlen, -, -⟩ := step_spec hg.toSound h
  have hroots := roots_append hfw hord
  have hcount := hg.count
  rw [← hg.connectedPipes_eq hfw hord] at hthree hroots
  refine ⟨hs', Or.inr ⟨by omega, ?_⟩⟩
  have hpw := connectedPipes_pairwise connections pipes t
  have hmemc : ∀ i, i ∈ connectedPipes connections pipes t ↔
      ∃ p, pipes[i]? = some p ∧ (p.2, t.num) ∈ connections := fun i => mem_connectedPipes
  unfold addToPipes at h
  rcases hc : connectedPipes connections pipes t with _ | ⟨found, rest⟩
  · rw [hc] at hthree
    exact absurd hthree (Nat.not_lt_zero _)
  · rw [hc] at h hpw hmemc hthree
    obtain ⟨hlt, hordr⟩ := List.pairwise_cons.mp hpw
    -- the last of the places
    obtain ⟨init, i, rfl⟩ : ∃ init i, rest = init ++ [i] := by
      rcases List.eq_nil_or_concat rest with rfl | ⟨init, i, rfl⟩
      · simp at hthree
      · exact ⟨init, i, by simp⟩
    have hinit : 1 ≤ init.length := by
      simp only [List.length_cons, List.length_append, List.length_nil] at hthree
      omega
    obtain ⟨hordi, -, hlast⟩ := List.pairwise_append.mp hordr
    change ((init ++ [i]).map fun i => (found, i)).foldlM merge
      (pipes.modify found fun pipe => (pipe.1 ++ [t], t.num)) = some pipes' at h
    obtain ⟨pipes₁, h1, h2⟩ := merges_concat h
    have hfi : found < i := hlt i (by simp)
    obtain ⟨hm, hmove, hkeep⟩ := merged_merges init (fun j hj => hlt j (by simp [hj])) hordi h1
    obtain ⟨l₁, p, l₂, q, l₃, rfl, hl1, hl2, rfl⟩ := merge_spec hfi h2
    -- the part the last merge takes is one beyond all places
    have hq : pipes[i + init.length]? = some q := by
      have hmv := hmove i (fun j hj => Nat.le_of_lt (hlast j hj i (by simp))) hfi
      have hir : i = l₁.length + (l₂.length + 1) := by omega
      rw [List.getElem?_modify_ne _ _ (by omega : found ≠ i + init.length)] at hmv
      rw [← hmv, hir, List.getElem?_append_right (by omega), Nat.add_sub_cancel_left,
        List.getElem?_cons_succ, List.getElem?_append_right (Nat.le_refl _), Nat.sub_self,
        List.getElem?_cons_zero]
    have hqmem : q ∈ pipes := List.mem_of_getElem? hq
    have hnot : (q.2, t.num) ∉ connections := by
      intro hcon
      have hin := (hmemc (i + init.length)).mpr ⟨q, hq, hcon⟩
      rcases List.mem_cons.mp hin with hin | hin
      · omega
      · rcases List.mem_append.mp hin with hin | hin
        · have := hlast _ hin i (by simp)
          omega
        · rw [List.mem_singleton] at hin
          omega
    obtain ⟨e, heq, hnum⟩ := hg.last q hqmem
    have hed : e ∈ done := hg.mem hqmem heq
    refine ⟨e, List.mem_append_left _ hed, t, by simp, lt_of_mem hord hed, ?_, ?_, ?_⟩
    · rw [isRoot_append, isRoot_iff, hnum]
      exact ⟨hg.isRoot q hqmem, hnot⟩
    · -- the number of the part is erased with it
      have hfr : found < pipes.length :=
        (List.getElem?_eq_some_iff.mp ((hmemc found).mp List.mem_cons_self).choose_spec.1).1
      have hs₁ := hm.sound (sound_modify (t := t) hg.toSound hfr)
      have hnd : ((done ++ [t]).map (·.num)).Nodup := by
        rw [List.Nodup, List.pairwise_map]
        exact hord.imp fun h => Nat.ne_of_lt h
      obtain ⟨l, hl, hls⟩ := hs₁.subperm
      have hnd₁ := (hl.nodup_iff).mp (hnd.sublist hls)
      rw [hnum]
      simp only [List.map_append, List.map_cons] at hnd₁ ⊢
      rw [List.nodup_append] at hnd₁
      obtain ⟨-, hnd₂, hdis⟩ := hnd₁
      rw [List.nodup_cons, List.nodup_append] at hnd₂
      obtain ⟨hp2, -, hnd₃, hdis₂⟩ := hnd₂
      intro hmem
      rcases List.mem_append.mp hmem with hmem | hmem
      · exact hdis _ hmem q.2 (by simp) rfl
      · rcases List.mem_cons.mp hmem with hmem | hmem
        · exact hp2 (by rw [← hmem]; simp)
        · rcases List.mem_append.mp hmem with hmem | hmem
          · exact hdis₂ _ hmem q.2 (by simp) rfl
          · exact (List.nodup_cons.mp hnd₃).1 hmem
    · refine ⟨sortPipe (p.1 ++ q.1), by simp, ?_, ?_⟩
      · rw [(sortPipe_perm _).mem_iff, List.mem_append]
        exact Or.inr heq
      · obtain ⟨pf, hpf, -⟩ := (hmemc found).mp List.mem_cons_self
        obtain ⟨p', hp', hsub⟩ := hkeep (pf.1 ++ [t], t.num) (by
          rw [List.getElem?_modify_eq, hpf]; rfl)
        rw [← hl1, List.getElem?_append_right (Nat.le_refl _), Nat.sub_self,
          List.getElem?_cons_zero, Option.some.injEq] at hp'
        rw [(sortPipe_perm _).mem_iff, List.mem_append, hp']
        exact Or.inl (hsub (by simp))

/-! ### The whole loop -/

section Run

variable {tasks : List (PipelineTask ν)} (hfw : Forward connections)

include hfw

/-- Later tasks are not connected to earlier ones. -/
theorem incoming_eq {rest : List (PipelineTask ν)}
    (hord : (done ++ t :: rest).Pairwise fun a b => a.num < b.num) :
    incoming connections (done ++ t :: rest) t = incoming connections done t := by
  have hzero : (t :: rest).countP (fun a => connections.contains (a.num, t.num)) = 0 := by
    rw [List.countP_eq_zero]
    intro a ha hc
    rw [List.contains_iff_mem] at hc
    have hlt := hfw.later _ hc
    obtain ⟨-, hr, -⟩ := List.pairwise_append.mp hord
    simp only at hlt
    rcases List.mem_cons.mp ha with rfl | ha
    · omega
    · have := (List.pairwise_cons.mp hr).1 a ha
      omega
  rw [incoming, incoming, List.countP_append, hzero, Nat.add_zero]

theorem bad_run : ∀ (rest done : List (PipelineTask ν)) (pipes pipes' : Pipes ν),
    Bad connections done pipes → (done ++ rest).Pairwise (fun a b => a.num < b.num) →
      rest.foldlM (addToPipes connections) pipes = some pipes' →
        Bad connections (done ++ rest) pipes'
  | [], done, pipes, pipes', hb, _, h => by
    cases h
    rwa [List.append_nil]
  | t :: rest, done, pipes, pipes', hb, hord, h => by
    rw [List.foldlM_cons] at h
    obtain ⟨pipes₁, h1, h2⟩ := Option.bind_eq_some_iff.mp h
    have hord₁ : (done ++ [t] ++ rest).Pairwise fun a b => a.num < b.num := by
      simpa [List.append_assoc] using hord
    have hb₁ := bad_step hb hfw (List.pairwise_append.mp hord₁).1 h1
    have hrun := bad_run rest (done ++ [t]) pipes₁ pipes' hb₁ hord₁ h2
    simpa [List.append_assoc] using hrun

/-- **The run of the loop**: the parts are right if no task has more than two tasks connected to it,
and wrong, if there are any, otherwise. -/
theorem run_spec (hord : tasks.Pairwise fun a b => a.num < b.num) (rest : List (PipelineTask ν)) :
    ∀ (done : List (PipelineTask ν)) (pipes : Pipes ν), Good connections tasks done pipes →
      tasks = done ++ rest →
        ((∀ t ∈ rest, incoming connections tasks t ≤ 2) →
          ∃ pipes', rest.foldlM (addToPipes connections) pipes = some pipes' ∧
            Good connections tasks tasks pipes') ∧
        ((∃ t ∈ rest, 2 < incoming connections tasks t) → ∀ pipes',
          rest.foldlM (addToPipes connections) pipes = some pipes' →
            Bad connections tasks pipes') := by
  induction rest with
  | nil =>
    intro done pipes hg ht
    rw [List.append_nil] at ht
    exact ⟨fun _ => ⟨pipes, rfl, ht ▸ hg⟩, fun ⟨t, ht, _⟩ => (nomatch ht)⟩
  | cons t rest ih =>
    intro done pipes hg ht
    have hsplit : tasks = done ++ [t] ++ rest := by simp [ht]
    have hord₁ := (List.pairwise_append.mp (hsplit ▸ hord)).1
    have hin : incoming connections tasks t = incoming connections done t := by
      rw [ht]
      exact incoming_eq hfw (ht ▸ hord)
    have hmem : ∀ a ∈ done ++ [t], a ∈ tasks := by
      intro a ha
      rw [hsplit]
      exact List.mem_append_left _ ha
    rw [List.foldlM_cons]
    by_cases htwo : incoming connections done t ≤ 2
    · obtain ⟨pipes₁, h1, hg₁⟩ := good_step hg hfw hord₁ hmem htwo
      obtain ⟨hr1, hr2⟩ := ih (done ++ [t]) pipes₁ hg₁ hsplit
      rw [h1]
      refine ⟨fun h => hr1 fun s hs => h s (List.mem_cons_of_mem _ hs), ?_⟩
      rintro ⟨s, hs, hthree⟩
      rcases List.mem_cons.mp hs with rfl | hs
      · omega
      · exact hr2 ⟨s, hs, hthree⟩
    · refine ⟨fun h => ?_, fun _ pipes' h => ?_⟩
      · have := h t List.mem_cons_self
        omega
      · obtain ⟨pipes₁, h1, h2⟩ := Option.bind_eq_some_iff.mp h
        have hb := bad_of_three hg hfw hord₁ (not_le.mp htwo) h1
        rw [hsplit]
        exact bad_run hfw rest (done ++ [t]) pipes₁ pipes' hb (hsplit ▸ hord) h2

end Run

/-! ### The parts that are returned -/

/-- A task is in one part only. -/
theorem Sound.eq_of_mem (hs : Sound done pipes) (hnd : done.Nodup) {p q : List (PipelineTask ν) × ℕ}
    (hp : p ∈ pipes) (hq : q ∈ pipes) {x : PipelineTask ν} (hxp : x ∈ p.1) (hxq : x ∈ q.1) :
    p = q := by
  have h : ∀ pipes : Pipes ν, (pipes.flatMap Prod.fst).Nodup → p ∈ pipes → q ∈ pipes → p = q := by
    intro pipes
    induction pipes with
    | nil => exact fun _ hp _ => (nomatch hp)
    | cons r pipes ih =>
      intro hnd hp hq
      rw [List.flatMap_cons, List.nodup_append] at hnd
      obtain ⟨-, hnd', hdis⟩ := hnd
      rcases List.mem_cons.mp hp with rfl | hp' <;> rcases List.mem_cons.mp hq with rfl | hq'
      · rfl
      · exact absurd rfl (hdis x hxp x (List.mem_flatMap.mpr ⟨q, hq', hxq⟩))
      · exact absurd rfl (hdis x hxq x (List.mem_flatMap.mpr ⟨p, hp', hxp⟩))
      · exact ih hnd' hp' hq'
  exact h pipes (hs.perm.nodup_iff.mpr hnd) hp hq

/-- Right parts are the connected components. -/
theorem Good.isComponents {p : Pipeline ν} (hg : Good p.connections p.tasks p.tasks pipes)
    (hnd : p.tasks.Nodup) : IsComponents p (pipes.map Prod.fst) where
  perm := by
    rw [← List.flatMap_def]
    exact hg.perm
  together a ha b hb := by
    constructor
    · rintro ⟨x, hx, hab⟩
      obtain ⟨q, hq, rfl⟩ := List.mem_map.mp hx
      exact hg.joined q hq a hab.1 b hab.2
    · -- connections do not lead out of a part
      intro h
      have hsame : ∀ q ∈ pipes, (a ∈ q.1 ↔ b ∈ q.1) := by
        clear ha hb
        induction h with
        | rel x y hxy =>
          intro q hq
          refine ⟨fun hx => hg.closed q hq x hx y hxy.2.1 hxy.2.2, fun hy => ?_⟩
          obtain ⟨r, hr, hxr⟩ := hg.exists_pipe hxy.1
          have hyr := hg.closed r hr x hxr y hxy.2.1 hxy.2.2
          rwa [hg.eq_of_mem hnd hq hr hy hyr]
        | refl x => exact fun q _ => Iff.rfl
        | symm x y _ ih => exact fun q hq => (ih q hq).symm
        | trans x y z _ _ ih₁ ih₂ => exact fun q hq => (ih₁ q hq).trans (ih₂ q hq)
      obtain ⟨q, hq, haq⟩ := hg.exists_pipe ha
      exact ⟨q.1, List.mem_map.mpr ⟨q, hq, rfl⟩, haq, (hsame q hq).mp haq⟩

section Wrong

variable {p : Pipeline ν} (hfw : Forward p.connections)
  (hord : p.tasks.Pairwise fun a b => a.num < b.num)

include hfw

/-- Every task is joined to a root. -/
theorem exists_root {N : ℕ} (hN : ∀ a ∈ p.tasks, a.num ≤ N) : ∀ (n : ℕ) (a : PipelineTask ν),
    a ∈ p.tasks → N - a.num ≤ n → ∃ r ∈ p.tasks, isRoot p.connections p.tasks r = true ∧
      Relation.EqvGen (Joined p.connections p.tasks) a r := by
  intro n
  induction n with
  | zero =>
    intro a ha hn
    refine ⟨a, ha, ?_, .refl _⟩
    rw [isRoot_iff]
    intro b hb hc
    have hlt := hfw.later _ hc
    have h1 := hN b hb
    simp only at hlt
    omega
  | succ n ih =>
    intro a ha hn
    by_cases hr : isRoot p.connections p.tasks a = true
    · exact ⟨a, ha, hr, .refl _⟩
    · rw [isRoot_iff] at hr
      push Not at hr
      obtain ⟨b, hb, hc⟩ := hr
      have hlt := hfw.later _ hc
      have h1 := hN b hb
      simp only at hlt
      obtain ⟨r, hrt, hroot, hbr⟩ := ih b hb (by omega)
      exact ⟨r, hrt, hroot, .trans _ _ _ (.rel _ _ ⟨ha, hb, hc⟩) hbr⟩

/-- A root is joined only to tasks before it. -/
theorem le_of_joined {e s : PipelineTask ν} (he : isRoot p.connections p.tasks e = true)
    (h : Relation.EqvGen (Joined p.connections p.tasks) e s) : s.num ≤ e.num := by
  have hreach : ∀ x y, Relation.EqvGen (Joined p.connections p.tasks) x y →
      (Relation.ReflTransGen (fun a b : ℕ => (a, b) ∈ p.connections) x.num e.num ↔
        Relation.ReflTransGen (fun a b : ℕ => (a, b) ∈ p.connections) y.num e.num) := by
    intro x y hxy
    induction hxy with
    | rel x y hxy =>
      refine ⟨fun hx => ?_, fun hy => .head hxy.2.2 hy⟩
      rcases Relation.ReflTransGen.cases_head hx with hx | ⟨z, hxz, hze⟩
      · rw [isRoot_iff] at he
        exact absurd (hx ▸ hxy.2.2) (he y hxy.2.1)
      · rwa [hfw.one _ _ _ hxy.2.2 hxz]
    | refl x => exact Iff.rfl
    | symm x y _ ih => exact ih.symm
    | trans x y z _ _ ih₁ ih₂ => exact ih₁.trans ih₂
  have hse := (hreach e s h).mp .refl
  have hle : ∀ a b : ℕ, Relation.ReflTransGen (fun a b : ℕ => (a, b) ∈ p.connections) a b → a ≤ b := by
    intro a b hab
    induction hab with
    | refl => exact le_rfl
    | tail _ hbc ih =>
      have hlt := hfw.later _ hbc
      simp only at hlt
      omega
  exact hle _ _ hse

include hord

/-- **Wrong parts are not the connected components.** -/
theorem Bad.not_isComponents (hb : Bad p.connections p.tasks pipes) :
    ¬ IsComponents p (pipes.map Prod.fst) := by
  rintro ⟨-, htog⟩
  obtain ⟨hs, hb⟩ := hb
  rcases hb with hb | ⟨-, e, he, s, hsd, hlt, hroot, -, htes⟩
  · -- each part has a root
    obtain ⟨N, hN⟩ : ∃ N, ∀ a ∈ p.tasks, a.num ≤ N :=
      ⟨(p.tasks.map (·.num)).foldr max 0, fun a ha => by
        have hmem := List.mem_map_of_mem (f := PipelineTask.num) ha
        generalize p.tasks.map (·.num) = l at hmem
        induction l with
        | nil => cases hmem
        | cons x l ih =>
          rw [List.foldr_cons]
          rcases List.mem_cons.mp hmem with rfl | hmem
          · exact le_max_left _ _
          · exact (ih hmem).trans (le_max_right _ _)⟩
    have hrootOf : ∀ q ∈ pipes, ∃ r ∈ q.1, isRoot p.connections p.tasks r = true := by
      intro q hq
      obtain ⟨m, hm, -⟩ := hs.last q hq
      have hmt := hs.mem hq hm
      obtain ⟨r, hr, hroot, hmr⟩ := exists_root hfw hN (N - m.num) m hmt le_rfl
      obtain ⟨x, hx, hmx, hrx⟩ := (htog m hmt r hr).mpr hmr
      obtain ⟨q', hq', rfl⟩ := List.mem_map.mp hx
      have hnd : p.tasks.Nodup := hord.imp fun h he => by
        rw [he] at h
        exact lt_irrefl _ h
      rw [hs.eq_of_mem hnd hq hq' hm hmx]
      exact ⟨r, hrx, hroot⟩
    have hcount : ∀ pipes : Pipes ν,
        (∀ q ∈ pipes, ∃ r ∈ q.1, isRoot p.connections p.tasks r = true) →
          pipes.length ≤ (pipes.flatMap Prod.fst).countP (isRoot p.connections p.tasks) := by
      intro pipes
      induction pipes with
      | nil => exact fun _ => Nat.zero_le _
      | cons q pipes ih =>
        intro h
        obtain ⟨r, hr, hroot⟩ := h q List.mem_cons_self
        have hpos : 0 < q.1.countP (isRoot p.connections p.tasks) :=
          List.countP_pos_iff.mpr ⟨r, hr, hroot⟩
        have hrest := ih fun q' hq' => h q' (List.mem_cons_of_mem _ hq')
        rw [List.flatMap_cons, List.countP_append, List.length_cons]
        omega
    have hle := hcount pipes hrootOf
    rw [hs.perm.countP_eq] at hle
    rw [roots] at hb
    omega
  · have hjoined := (htog e he s hsd).mp htes
    have := le_of_joined hfw hroot hjoined
    omega

end Wrong

/-- **When the parts are right**: exactly if no task has more than two tasks connected to it. -/
theorem split_iff [TaskKinds ν] (names : List ν) :
    let p := Pipeline.build names
    (∃ pipes, splitIndependentPipelines p = some pipes ∧ IsComponents p pipes) ↔
      ∀ t ∈ p.tasks, incoming p.connections p.tasks t ≤ 2 := by
  intro p
  have hw := Pipeline.wired_build names
  have hfw : Forward p.connections := ⟨fun c hc => (hw.range c hc).2.1, hw.one⟩
  have hord : p.tasks.Pairwise fun a b => a.num < b.num := hw.sorted
  have hnd : p.tasks.Nodup := hord.imp fun h he => by
    rw [he] at h
    exact lt_irrefl _ h
  have hstart : Good p.connections p.tasks [] [] :=
    ⟨⟨.refl _, by simp⟩, by simp, by simp, by simp, by simp, rfl⟩
  obtain ⟨hright, hwrong⟩ := run_spec hfw hord p.tasks [] [] hstart rfl
  constructor
  · rintro ⟨pipes, h, hc⟩ t ht
    by_contra hthree
    obtain ⟨pipes', hrun, rfl⟩ := Option.map_eq_some_iff.mp h
    exact (hwrong ⟨t, ht, not_le.mp hthree⟩ pipes' hrun).not_isComponents hfw hord hc
  · intro htwo
    obtain ⟨pipes', hrun, hg⟩ := hright htwo
    exact ⟨_, by rw [splitIndependentPipelines, hrun]; rfl, hg.isComponents hnd⟩

open TaskName Joda.Pipeline.Task.TaskId in
/-- `LOAD FROM FILE a, FILE b, FILE c`: the second merge is out of range. -/
theorem split_three_files :
    splitIndependentPipelines (Pipeline.build [planned lsListFile, planned lsListFile,
      planned lsListFile, planned lsFileOpener]) = none := by
  decide

end Joda.Scheduling.Split
