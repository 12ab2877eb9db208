import Joda.Lib.Fuel
import Joda.Scheduling.Optimization

/-! # The run a rule finds

`findOptimizationTarget` looks for a run of tasks with the names of a rule (`std::search`), looks at the
connections into its tasks, asks `validateOptimizationTarget` and goes on behind the first task of the
run if one of the two says no. It is meant to find the first run that `Qualifies`: nothing outside the
run is connected to one of its inner tasks.

The loop over the connections stays at the second task of the run, and at that time the set of the run
has two tasks (`SecondOutside`). -/

namespace Joda.Scheduling.OptimizationTarget

open Joda.Lib.Fuel Joda.Scheduling.TaskGraph Joda.Scheduling.Optimization

variable {ν : Type} [DecidableEq ν] {toOptimize : List ν} {validate : List (PipelineTask ν) → Bool}
  {connections : List (ℕ × ℕ)} {tasks : List (PipelineTask ν)}

/-! ### The search -/

/-- The tasks from a place on, as many as the pattern has. -/
def runAt (toOptimize : List ν) (tasks : List (PipelineTask ν)) (k : ℕ) : List (PipelineTask ν) :=
  (tasks.drop k).take toOptimize.length

def Matches (toOptimize : List ν) (tasks : List (PipelineTask ν)) (k : ℕ) : Prop :=
  (runAt toOptimize tasks k).map (·.name) = toOptimize

instance (k : ℕ) : Decidable (Matches toOptimize tasks k) := by unfold Matches; infer_instance

/-- `std::search`: the place of the first match, the end where there is none. -/
def search (toOptimize : List ν) : List (PipelineTask ν) → ℕ → ℕ
  | [], found => found
  | t :: ts, found => if Matches toOptimize (t :: ts) 0 then found else search toOptimize ts (found + 1)

/-- **`findOptimizationTarget`** from an iterator on, the iterators being places. -/
def findFrom (toOptimize : List ν) (validate : List (PipelineTask ν) → Bool)
    (connections : List (ℕ × ℕ)) (tasks : List (PipelineTask ν)) : ℕ → ℕ → Option (ℕ × ℕ)
  | 0, _ => none
  | fuel + 1, start =>
    let found := search toOptimize (tasks.drop start) start
    if found = tasks.length then some (tasks.length, tasks.length)
    else if outsideConnections connections toOptimize.length (tasks.drop found) [] = false ∧
        validate (runAt toOptimize tasks found) = true then
      some (found, found + (toOptimize.length - 1))
    else if found + 1 = tasks.length then some (tasks.length, tasks.length)
    else findFrom toOptimize validate connections tasks fuel (found + 1)

/-! ### What is looked for -/

/-- The inner tasks of a run are connected from tasks of the run only. -/
def Isolated (connections : List (ℕ × ℕ)) (run : List (PipelineTask ν)) : Prop :=
  ∀ t ∈ run.tail, ∀ c ∈ connections, c.2 = t.num → c.1 ∈ run.map (·.num)

structure Qualifies (toOptimize : List ν) (validate : List (PipelineTask ν) → Bool)
    (connections : List (ℕ × ℕ)) (tasks : List (PipelineTask ν)) (k : ℕ) : Prop where
  names : Matches toOptimize tasks k
  isolated : Isolated connections (runAt toOptimize tasks k)
  valid : validate (runAt toOptimize tasks k) = true

/-- **The first and the last place of the first run of length `n` with a property**, the end pair if
there is none. -/
def FirstRun (n length : ℕ) (P : ℕ → Prop) (r : ℕ × ℕ) : Prop :=
  (r = (length, length) ∧ ∀ k, ¬ P k) ∨
    ∃ k, P k ∧ (∀ j, j < k → ¬ P j) ∧ r = (k, k + (n - 1))

/-! ### The loop over the connections -/

/-- The second task of a run: the first one with another number than the first task. -/
def secondTask : List (PipelineTask ν) → Option (PipelineTask ν)
  | [] => none
  | first :: rest => rest.find? fun t => t.num != first.num

/-- A connection leads to the second task of a run, and not from the first two. -/
def SecondOutside (connections : List (ℕ × ℕ)) (run : List (PipelineTask ν)) : Prop :=
  ∃ first second, run.head? = some first ∧ secondTask run = some second ∧
    ∃ c ∈ connections, c.2 = second.num ∧ c.1 ≠ first.num ∧ c.1 ≠ second.num

omit [DecidableEq ν] in
theorem outside_pair {x y : ℕ} {ids : List ℕ} (h : ∀ z, z ∈ ids ↔ z = x ∨ z = y) :
    outside connections ids y = true ↔ ∃ c ∈ connections, c.2 = y ∧ c.1 ≠ x ∧ c.1 ≠ y := by
  unfold outside
  simp only [List.any_eq_true, Bool.and_eq_true, beq_iff_eq, Bool.not_eq_true', List.contains_eq_mem,
    decide_eq_false_iff_not, h, not_or]

omit [DecidableEq ν] in
/-- At the second task: it stays there until the pattern is through. -/
theorem outsideConnections_second {x : ℕ} {t : PipelineTask ν} (ts : List (PipelineTask ν))
    (hx : t.num ≠ x) : ∀ (n : ℕ) (ids : List ℕ),
      (ids = [x] ∨ ids = [t.num, x]) →
      (outsideConnections connections (n + 1) (t :: ts) ids = true ↔
        ∃ c ∈ connections, c.2 = t.num ∧ c.1 ≠ x ∧ c.1 ≠ t.num)
  | n, ids, hids => by
    have hins : ids.insert t.num = [t.num, x] := by
      rcases hids with rfl | rfl
      · exact List.insert_of_not_mem (by simpa using hx)
      · exact List.insert_of_mem List.mem_cons_self
    have hout : outside connections [t.num, x] t.num = true ↔
        ∃ c ∈ connections, c.2 = t.num ∧ c.1 ≠ x ∧ c.1 ≠ t.num :=
      outside_pair fun z => by simp [or_comm]
    rw [outsideConnections, hins, if_pos (by simp)]
    by_cases ho : outside connections [t.num, x] t.num = true
    · rw [if_pos ho]
      exact iff_of_true rfl (hout.mp ho)
    · rw [if_neg ho]
      have hno := fun h => ho (hout.mpr h)
      cases n with
      | zero => exact iff_of_false (by simp [outsideConnections]) hno
      | succ n =>
        rw [outsideConnections_second ts hx n _ (Or.inr rfl)]

omit [DecidableEq ν] in
/-- On the way to the second task all tasks have the number of the first one. -/
theorem outsideConnections_first {x : ℕ} : ∀ (n : ℕ) (ts : List (PipelineTask ν)),
    n ≤ ts.length →
      (outsideConnections connections n ts [x] = true ↔
        ∃ second, (ts.take n).find? (fun t => t.num != x) = some second ∧
          ∃ c ∈ connections, c.2 = second.num ∧ c.1 ≠ x ∧ c.1 ≠ second.num)
  | 0, ts, _ => by simp [outsideConnections]
  | n + 1, [], h => by simp at h
  | n + 1, t :: ts, h => by
    by_cases hx : t.num = x
    · have hins : [x].insert t.num = [x] := List.insert_of_mem (by simp [hx])
      rw [outsideConnections, hins, if_neg (by simp),
        outsideConnections_first n ts (by simpa using h), List.take_succ_cons,
        List.find?_cons_of_neg (by simp [hx])]
    · rw [outsideConnections_second ts hx n [x] (Or.inl rfl), List.take_succ_cons,
        List.find?_cons_of_pos (by simp [hx])]
      simp only [Option.some.injEq, exists_eq_left']

omit [DecidableEq ν] in
theorem outsideConnections_iff {n : ℕ} {ts : List (PipelineTask ν)} (h : n ≤ ts.length) :
    outsideConnections connections n ts [] = true ↔ SecondOutside connections (ts.take n) := by
  unfold SecondOutside
  cases n with
  | zero => simp [outsideConnections, secondTask]
  | succ n =>
    cases ts with
    | nil => simp at h
    | cons t ts =>
      have hins : ([] : List ℕ).insert t.num = [t.num] := rfl
      rw [outsideConnections, hins, if_neg (by simp),
        outsideConnections_first n ts (by simpa using h), List.take_succ_cons]
      simp only [List.head?_cons, Option.some.injEq, secondTask, exists_and_left, exists_eq_left']

/-! ### What is returned -/

/-- What the loop accepts. -/
structure Accepted (toOptimize : List ν) (validate : List (PipelineTask ν) → Bool)
    (connections : List (ℕ × ℕ)) (tasks : List (PipelineTask ν)) (k : ℕ) : Prop where
  names : Matches toOptimize tasks k
  second : ¬ SecondOutside connections (runAt toOptimize tasks k)
  valid : validate (runAt toOptimize tasks k) = true

omit [DecidableEq ν] in
/-- A match fits in. -/
theorem Matches.le {k : ℕ} (h : Matches toOptimize tasks k) (hn : toOptimize ≠ []) :
    k + toOptimize.length ≤ tasks.length := by
  have hlen := congrArg List.length h
  unfold runAt at hlen
  have hpos := List.length_pos_of_ne_nil hn
  simp only [List.length_map, List.length_take, List.length_drop] at hlen
  omega

omit [DecidableEq ν] in
theorem accepted_iff {k : ℕ} (hnames : Matches toOptimize tasks k) (hn : toOptimize ≠ []) :
    (outsideConnections connections toOptimize.length (tasks.drop k) [] = false ∧
      validate (runAt toOptimize tasks k) = true) ↔ Accepted toOptimize validate connections tasks k := by
  have hfit := hnames.le hn
  rw [← Bool.not_eq_true, outsideConnections_iff (by rw [List.length_drop]; omega)]
  exact ⟨fun h => ⟨hnames, h.1, h.2⟩, fun h => ⟨h.second, h.valid⟩⟩

theorem search_spec (toOptimize : List ν) : ∀ start : ℕ, start ≤ tasks.length →
    let found := search toOptimize (tasks.drop start) start
    start ≤ found ∧ (∀ j, start ≤ j → j < found → ¬ Matches toOptimize tasks j) ∧
      (found = tasks.length ∨ found < tasks.length ∧ Matches toOptimize tasks found)
  | start, hle => by
    by_cases hend : start = tasks.length
    · subst hend
      rw [List.drop_length]
      exact ⟨Nat.le_refl _, fun j h1 h2 => absurd h1 (by unfold search at h2; omega), Or.inl rfl⟩
    · have hlt : start < tasks.length := by omega
      rw [List.drop_eq_getElem_cons hlt]
      have hhere : Matches toOptimize (tasks[start] :: tasks.drop (start + 1)) 0 ↔
          Matches toOptimize tasks start := by
        unfold Matches runAt
        rw [List.drop_zero, ← List.drop_eq_getElem_cons hlt]
      unfold search
      by_cases hmatch : Matches toOptimize tasks start
      · rw [if_pos (hhere.mpr hmatch)]
        exact ⟨Nat.le_refl _, fun j h1 h2 => by omega, Or.inr ⟨hlt, hmatch⟩⟩
      · rw [if_neg fun h => hmatch (hhere.mp h)]
        obtain ⟨h1, h2, h3⟩ := search_spec toOptimize (start + 1) hlt
        refine ⟨by omega, fun j hj hlt' => ?_, h3⟩
        rcases Nat.eq_or_lt_of_le hj with rfl | hj
        · exact hmatch
        · exact h2 j hj hlt'
  termination_by start => tasks.length - start
  decreasing_by omega

/-- **The loop ends**, with the first run it accepts. -/
theorem findFrom_spec (validate : List (PipelineTask ν) → Bool) (connections : List (ℕ × ℕ))
    (hn : toOptimize ≠ []) : ∀ start : ℕ, start ≤ tasks.length →
    (∀ j, j < start → ¬ Accepted toOptimize validate connections tasks j) →
      ∃ r, Returns (fun fuel => findFrom toOptimize validate connections tasks fuel start) r ∧
        FirstRun toOptimize.length tasks.length
          (Accepted toOptimize validate connections tasks) r
  | start, hstart, hbefore => by
    obtain ⟨h1, h2, h3⟩ := search_spec toOptimize start hstart
    generalize hfound : search toOptimize (tasks.drop start) start = found at h1 h2 h3
    have hbefore' : ∀ j, j < found → ¬ Accepted toOptimize validate connections tasks j := by
      intro j hj hacc
      rcases Nat.lt_or_ge j start with h | h
      · exact hbefore j h hacc
      · exact h2 j h hj hacc.names
    have hreturn : ∀ r, (∀ fuel, findFrom toOptimize validate connections tasks (fuel + 1) start = some r) →
        Returns (fun fuel => findFrom toOptimize validate connections tasks fuel start) r :=
      fun r h => Returns.of_succ (g := fun _ => some r) h (Returns.pure r)
    rcases h3 with hend | ⟨hlt, hmatch⟩
    · refine ⟨_, hreturn (tasks.length, tasks.length) fun fuel => ?_, Or.inl ⟨rfl, fun k hk => ?_⟩⟩
      · simp only [findFrom, hfound]
        rw [if_pos hend]
      · have hpos := List.length_pos_of_ne_nil hn
        have := hk.names.le hn
        exact hbefore' k (by omega) hk
    · have hfit := hmatch.le hn
      have hacc : (outsideConnections connections toOptimize.length (tasks.drop found) [] = false ∧
          validate (runAt toOptimize tasks found) = true) ↔
          Accepted toOptimize validate connections tasks found := accepted_iff hmatch hn
      by_cases ha : Accepted toOptimize validate connections tasks found
      · refine ⟨_, hreturn (found, found + (toOptimize.length - 1)) fun fuel => ?_,
          Or.inr ⟨found, ha, hbefore', rfl⟩⟩
        simp only [findFrom, hfound]
        rw [if_neg (by omega), if_pos (hacc.mpr ha)]
      · have hbefore'' : ∀ j, j < found + 1 →
            ¬ Accepted toOptimize validate connections tasks j := by
          intro j hj
          rcases Nat.eq_or_lt_of_le (Nat.le_of_lt_succ hj) with rfl | h
          · exact ha
          · exact hbefore' j h
        by_cases hlast : found + 1 = tasks.length
        · refine ⟨_, hreturn (tasks.length, tasks.length) fun fuel => ?_,
            Or.inl ⟨rfl, fun k hk => ?_⟩⟩
          · simp only [findFrom, hfound]
            rw [if_neg (by omega), if_neg fun h => ha (hacc.mp h), if_pos hlast]
          · have hpos := List.length_pos_of_ne_nil hn
            have := hk.names.le hn
            exact hbefore'' k (by omega) hk
        · obtain ⟨r, hr, hfirst⟩ := findFrom_spec validate connections hn (found + 1) hlt hbefore''
          refine ⟨r, Returns.of_succ (fun fuel => ?_) hr, hfirst⟩
          simp only [findFrom, hfound]
          rw [if_neg (by omega), if_neg fun h => ha (hacc.mp h), if_neg hlast]
  termination_by start => tasks.length - start
  decreasing_by omega

/-- **The loop of iterators is the recursion** that `optimize` is modelled with. -/
theorem findOptimizationTarget_eq (rule : OptimizationRule ν) (hn : rule.toOptimize ≠ []) {r : ℕ × ℕ}
    (hr : Returns
      (fun fuel => findFrom rule.toOptimize rule.validate connections tasks fuel 0) r) :
    rule.findOptimizationTarget connections tasks 0 =
      if r.1 = tasks.length then none else some r.1 := by
  have hrec : ∀ start, start ≤ tasks.length →
      match rule.findOptimizationTarget connections (tasks.drop start) start with
      | none => ∀ k, start ≤ k → ¬ Accepted rule.toOptimize rule.validate connections tasks k
      | some k => start ≤ k ∧ Accepted rule.toOptimize rule.validate connections tasks k ∧
          ∀ j, start ≤ j → j < k → ¬ Accepted rule.toOptimize rule.validate connections tasks j := by
    intro start hle
    generalize hm : tasks.length - start = m
    induction m generalizing start with
    | zero =>
      obtain rfl : start = tasks.length := by omega
      rw [List.drop_length]
      intro k hk hacc
      have := hacc.names.le hn
      have := List.length_pos_of_ne_nil hn
      omega
    | succ m ih =>
      have hlt : start < tasks.length := by omega
      have ih := ih (start + 1) hlt (by omega)
      rw [List.drop_eq_getElem_cons hlt]
      unfold OptimizationRule.findOptimizationTarget
      rw [← List.drop_eq_getElem_cons hlt]
      by_cases ha : Accepted rule.toOptimize rule.validate connections tasks start
      · rw [if_pos ⟨ha.names, (accepted_iff ha.names hn).mpr ha⟩]
        exact ⟨Nat.le_refl _, ha, fun j h1 h2 => by omega⟩
      · rw [if_neg fun h => ha ((accepted_iff h.1 hn).mp h.2)]
        cases hk : rule.findOptimizationTarget connections (tasks.drop (start + 1)) (start + 1) with
        | none =>
          rw [hk] at ih
          intro k hle
          rcases Nat.eq_or_lt_of_le hle with rfl | hlt
          · exact ha
          · exact ih k hlt
        | some k =>
          rw [hk] at ih
          obtain ⟨h1, h2, h3⟩ := ih
          refine ⟨by omega, h2, fun j hle hlt' => ?_⟩
          rcases Nat.eq_or_lt_of_le hle with rfl | hlt
          · exact ha
          · exact h3 j hlt hlt'
  obtain ⟨r', hr', hfirst⟩ := findFrom_spec rule.validate connections hn 0
    (Nat.zero_le tasks.length) (fun j hj => absurd hj (Nat.not_lt_zero j))
  obtain rfl := hr.unique hr'
  have hrec := hrec 0 (Nat.zero_le _)
  rw [List.drop_zero] at hrec
  cases hk : rule.findOptimizationTarget connections tasks 0 with
  | none =>
    rw [hk] at hrec
    rcases hfirst with ⟨rfl, -⟩ | ⟨k, ha, -, -⟩
    · rw [if_pos rfl]
    · exact absurd ha (hrec k (Nat.zero_le k))
  | some k =>
    rw [hk] at hrec
    obtain ⟨-, ha, hbefore⟩ := hrec
    rcases hfirst with ⟨-, hnone⟩ | ⟨k', ha', hbefore', rfl⟩
    · exact absurd ha (hnone k)
    · have hfit := ha'.names.le hn
      have hpos := List.length_pos_of_ne_nil hn
      rcases Nat.lt_trichotomy k k' with hlt | rfl | hlt
      · exact absurd ha (hbefore' k hlt)
      · rw [if_neg (by show k ≠ tasks.length; omega)]
      · exact absurd ha' (hbefore k' (Nat.zero_le k') hlt)

/-! ### When the right run is found -/

/-- Two first runs are the same one if and only if, up to the first place with the second property,
the two properties agree. -/
theorem firstRun_iff {n length : ℕ} {P Q : ℕ → Prop} {r : ℕ × ℕ} (hn : 0 < n)
    (hP : ∀ k, P k → k + n ≤ length) (hQ : ∀ k, Q k → k + n ≤ length) (hr : FirstRun n length P r) :
    FirstRun n length Q r ↔ ∀ k, (∀ j, j < k → ¬ Q j) → (P k ↔ Q k) := by
  constructor
  · intro hq k hbefore
    rcases hr with ⟨rfl, hnone⟩ | ⟨a, ha, hbeforeA, rfl⟩
    · rcases hq with ⟨-, hnone'⟩ | ⟨b, hb, -, hpair⟩
      · exact iff_of_false (hnone k) (hnone' k)
      · have := hQ b hb
        have := (Prod.mk.inj hpair).1
        omega
    · rcases hq with ⟨hpair, -⟩ | ⟨b, hb, hbeforeB, hpair⟩
      · have := hP a ha
        have := (Prod.mk.inj hpair).1
        omega
      · obtain rfl := (Prod.mk.inj hpair).1
        rcases Nat.lt_trichotomy k a with hlt | rfl | hlt
        · exact iff_of_false (hbeforeA k hlt) (hbeforeB k hlt)
        · exact iff_of_true ha hb
        · exact absurd hb (hbefore a hlt)
  · intro h
    have hsame : ∀ k, (∀ j, j < k → ¬ P j) → ∀ j, j < k → ¬ Q j := by
      intro k
      induction k with
      | zero => intro _ j hj; omega
      | succ k ih =>
        intro hp j hj
        have hq := ih fun j hj => hp j (Nat.lt_succ_of_lt hj)
        rcases Nat.eq_or_lt_of_le (Nat.le_of_lt_succ hj) with rfl | hlt
        · exact fun hQj => hp j hj ((h j hq).mpr hQj)
        · exact hq j hlt
    rcases hr with ⟨rfl, hnone⟩ | ⟨a, ha, hbefore, rfl⟩
    · exact Or.inl ⟨rfl, fun k => hsame (k + 1) (fun j _ => hnone j) k (Nat.lt_succ_self k)⟩
    · have hq := hsame a hbefore
      exact Or.inr ⟨a, (h a hq).mp ha, hq, rfl⟩

/-- **The look at the second task is enough**: for each run of the names that is accepted by
`validate`, up to the first one that qualifies, the second task is connected from beyond the first two
if and only if some inner task is connected from outside the run. -/
def SecondTells (toOptimize : List ν) (validate : List (PipelineTask ν) → Bool)
    (connections : List (ℕ × ℕ)) (tasks : List (PipelineTask ν)) : Prop :=
  ∀ k, Matches toOptimize tasks k → validate (runAt toOptimize tasks k) = true →
    (∀ j, j < k → ¬ Qualifies toOptimize validate connections tasks j) →
      (SecondOutside connections (runAt toOptimize tasks k) ↔
        ¬ Isolated connections (runAt toOptimize tasks k))

/-- **`findOptimizationTarget` ends with the first run that qualifies if and only if the look at the
second task is enough.** -/
theorem findOptimizationTarget_iff (toOptimize : List ν) (hn : 2 ≤ toOptimize.length)
    (validate : List (PipelineTask ν) → Bool) (connections : List (ℕ × ℕ))
    (tasks : List (PipelineTask ν)) :
    (∃ r, Returns (fun fuel => findFrom toOptimize validate connections tasks fuel 0) r ∧
        FirstRun toOptimize.length tasks.length (Qualifies toOptimize validate connections tasks) r) ↔
      SecondTells toOptimize validate connections tasks := by
  have hne : toOptimize ≠ [] := List.ne_nil_of_length_pos (by omega)
  obtain ⟨r, hr, hfirst⟩ := findFrom_spec validate connections hne 0
    (Nat.zero_le tasks.length) (fun j hj => absurd hj (Nat.not_lt_zero j))
  have hiff := firstRun_iff (Q := Qualifies toOptimize validate connections tasks) (by omega)
    (fun k hk => hk.names.le hne) (fun k hk => hk.names.le hne) hfirst
  have hsecond : SecondTells toOptimize validate connections tasks ↔
      ∀ k, (∀ j, j < k → ¬ Qualifies toOptimize validate connections tasks j) →
        (Accepted toOptimize validate connections tasks k ↔
          Qualifies toOptimize validate connections tasks k) := by
    constructor
    · intro h k hbefore
      constructor
      · rintro ⟨hnames, hno, hvalid⟩
        exact ⟨hnames, not_not.mp fun hi => hno ((h k hnames hvalid hbefore).mpr hi), hvalid⟩
      · rintro ⟨hnames, hisolated, hvalid⟩
        exact ⟨hnames, fun hs => (h k hnames hvalid hbefore).mp hs hisolated, hvalid⟩
    · intro h k hnames hvalid hbefore
      constructor
      · intro hs hi
        exact ((h k hbefore).mpr ⟨hnames, hi, hvalid⟩).second hs
      · intro hi
        by_contra hno
        exact hi ((h k hbefore).mp ⟨hnames, hno, hvalid⟩).isolated
  rw [hsecond, ← hiff]
  constructor
  · rintro ⟨r', hr', hq⟩
    rwa [hr.unique hr']
  · exact fun hq => ⟨r, hr, hq⟩

open Joda.Pipeline.Task TaskId

theorem findOptimizationTarget_iff_load :
    2 ≤ fileMapOptimization.toOptimize.length ∧
    ∃ r, Returns (fun fuel => findFrom fileMapOptimization.toOptimize fileMapOptimization.validate
        (Pipeline.build loadTasks).connections (Pipeline.build loadTasks).tasks fuel 0) r ∧
      FirstRun 2 5 (Qualifies fileMapOptimization.toOptimize fileMapOptimization.validate
        (Pipeline.build loadTasks).connections (Pipeline.build loadTasks).tasks) r := by
  refine ⟨by decide, (findOptimizationTarget_iff fileMapOptimization.toOptimize (by decide)
    fileMapOptimization.validate _ _).mpr ?_⟩
  intro k hnames _ _
  have hk : k = 1 := by
    have hle := hnames.le (by decide)
    have hlen : (Pipeline.build loadTasks).tasks.length = 5 := rfl
    have htwo : fileMapOptimization.toOptimize.length = 2 := rfl
    have hcases : k = 0 ∨ k = 1 ∨ k = 2 ∨ k = 3 := by omega
    rcases hcases with rfl | rfl | rfl | rfl
    · exact absurd hnames (by decide)
    · rfl
    · exact absurd hnames (by decide)
    · exact absurd hnames (by decide)
  subst hk
  refine iff_of_false ?_ (not_not.mpr ?_)
  · rintro ⟨first, second, hfirst, hsecond, c, hc, h1, h2, h3⟩
    obtain rfl := Option.some.inj hfirst
    obtain rfl := Option.some.inj hsecond
    revert c
    decide
  · unfold Isolated
    decide

/-- The connection of the storage sender into the third task of the run is overlooked. -/
theorem not_findOptimizationTarget_three : ¬ ∃ r,
    Returns (fun fuel => findFrom threeTasks.toOptimize threeTasks.validate [(2, 3), (1, 4)]
      (Pipeline.build [.planned storageSender, .planned lsListFile, .planned lsFileOpener,
        .planned storageReceiver]).tasks fuel 0) r ∧
    FirstRun 3 4 (Qualifies threeTasks.toOptimize threeTasks.validate [(2, 3), (1, 4)]
      (Pipeline.build [.planned storageSender, .planned lsListFile, .planned lsFileOpener,
        .planned storageReceiver]).tasks) r := by
  rintro ⟨r, hr, hfirst⟩
  obtain rfl : r = (1, 3) := hr.unique (Returns.of_succ (fun _ => rfl) (Returns.pure (1, 3)))
  rcases hfirst with ⟨h, -⟩ | ⟨k, hq, -, hk⟩
  · exact absurd h (by decide)
  · obtain rfl := (Prod.mk.inj hk).1
    have h := hq.isolated
    unfold Isolated at h
    exact absurd h (by decide)

end Joda.Scheduling.OptimizationTarget
