import Joda.Lib.Runs
import Mathlib.Algebra.BigOperators.Group.Finset.Basic
import Mathlib.Algebra.Order.Group.Multiset

/-! # Networks of workers

Workers in stages, with a queue in front of each stage, from which all its workers pop and into which all
workers of the stage before push. A worker closes its input when the queue is empty and all workers
before have left, and leaves when it is done. The workers run interleaved, each by its own steps.

* `run_inv`: every worker of a reachable state has made a run of its own, and what is in a queue or was
  popped from it is what was pushed into it.
* `delivered`: when all workers of a stage have left, they have together popped what the workers of the
  stage before have pushed, each element once, and these have left too.
* `Gives`: what a worker has pushed when it leaves, by what it has popped. -/

namespace Joda.Lib.Network

open Joda.Lib.Runs

/-! ### Workers -/

section Worker

/-- What a worker does in a step. -/
inductive Act (I O : Type) where
  | think
  | pop (x : I)
  | push (y : O)
  | close
  | leave

structure Worker (I O : Type) where
  State : Type
  Init : State → Prop
  Step : Act I O → State → State → Prop

variable {I O σ : Type}

/-- The element that a step takes. -/
def Act.taken : Act I O → Option I
  | .pop x => some x
  | _ => none

def Act.given : Act I O → Option O
  | .push y => some y
  | _ => none

/-- What was popped in the steps of a run, in order. -/
def pops : List (σ × Act I O) → List I
  | [] => []
  | p :: past => pops past ++ p.2.taken.toList

def pushes : List (σ × Act I O) → List O
  | [] => []
  | p :: past => pushes past ++ p.2.given.toList

/-- A run of a worker until it leaves. -/
def Worker.Leaves (w : Worker I O) (past : List (w.State × Act I O)) (t : w.State) : Prop :=
  ∃ s, Run w.Init w.Step past s ∧ w.Step .leave s t

/-- A worker does not leave before it has closed its input. -/
def Worker.Closes (w : Worker I O) : Prop := ∀ past t, w.Leaves past t → ∃ u, (u, .close) ∈ past

/-- **What a worker has pushed when it leaves**, by what it has popped, and how it leaves. -/
def Worker.Gives (w : Worker I O) (R : List I → List O → w.State → Prop) : Prop :=
  ∀ past t, w.Leaves past t → R (pops past) (pushes past) t

end Worker

/-! ### Networks -/

/-- The workers of each stage. -/
structure Net (T : ℕ → Type) where
  size : ℕ → ℕ
  worker : ∀ k, ℕ → Worker (T k) (T (k + 1))

variable {T : ℕ → Type} {net : Net T}

/-- The queues in front of the stages and the workers, with the steps that each has made. -/
structure State (net : Net T) where
  queue : ∀ k, List (T k)
  state : ∀ k i, (net.worker k i).State
  gone : ℕ → ℕ → Bool
  past : ∀ k i, List ((net.worker k i).State × Act (T k) (T (k + 1)))

/-- Nobody will push into the queue. -/
def State.Finished (s : State net) : ℕ → Prop
  | 0 => True
  | k + 1 => ∀ i, i < net.size k → s.gone k i = true

/-- What a step of a worker needs of the queues, and what it does to them. -/
def Moves (s : State net) (k : ℕ) : Act (T k) (T (k + 1)) → (∀ k, List (T k)) → Prop
  | .pop x, queue => ∃ rest, s.queue k = x :: rest ∧ queue = Function.update s.queue k rest
  | .push y, queue => queue = Function.update s.queue (k + 1) (s.queue (k + 1) ++ [y])
  | .close, queue => s.queue k = [] ∧ s.Finished k ∧ queue = s.queue
  | _, queue => queue = s.queue

/-- A worker after a step. -/
def State.after (s : State net) (k i : ℕ) (a : Act (T k) (T (k + 1)))
    (t : (net.worker k i).State) (queue : ∀ k, List (T k)) : State net where
  queue := queue
  state := Function.update s.state k (Function.update (s.state k) i t)
  gone := match a with
    | .leave => Function.update s.gone k (Function.update (s.gone k) i true)
    | _ => s.gone
  past := Function.update s.past k (Function.update (s.past k) i ((s.state k i, a) :: s.past k i))

/-- **One step** of one worker, as long as it has not left. -/
inductive Step : (Σ k, ℕ × Act (T k) (T (k + 1))) → State net → State net → Prop
  | step {s : State net} {k i : ℕ} {a : Act (T k) (T (k + 1))} {t : (net.worker k i).State}
      {queue : ∀ k, List (T k)} (hi : i < net.size k) (hgone : s.gone k i = false)
      (hstep : (net.worker k i).Step a (s.state k i) t) (hmoves : Moves s k a queue) :
      Step ⟨k, i, a⟩ s (s.after k i a t queue)

structure Init (s : State net) : Prop where
  queue : ∀ k, s.queue k = []
  state : ∀ k i, (net.worker k i).Init (s.state k i)
  gone : ∀ k i, s.gone k i = false
  past : ∀ k i, s.past k i = []

/-! ### The invariant -/

/-- All that the workers of a stage have popped. -/
def State.popped (s : State net) (k : ℕ) : Multiset (T k) :=
  ∑ i ∈ Finset.range (net.size k), (pops (s.past k i) : Multiset (T k))

def State.pushed (s : State net) (k : ℕ) : Multiset (T (k + 1)) :=
  ∑ i ∈ Finset.range (net.size k), (pushes (s.past k i) : Multiset (T (k + 1)))

structure Inv (s : State net) : Prop where
  runs : ∀ k i, Run (net.worker k i).Init (net.worker k i).Step (s.past k i) (s.state k i)
  gone : ∀ k i, s.gone k i = true → ∃ u past, s.past k i = (u, .leave) :: past
  /-- nothing is lost between two stages, and nothing is duplicated -/
  flow : ∀ k, (s.queue (k + 1) : Multiset (T (k + 1))) + s.popped (k + 1) = s.pushed k
  source : s.queue 0 = []
  closed : ∀ k i u, (u, .close) ∈ s.past k i → s.queue k = [] ∧ s.Finished k

section Sums

variable {β : Type} [AddCommMonoid β]

theorem sum_of_step {n i : ℕ} {f g : ℕ → β} {d : β} (hi : i < n) (hself : g i = f i + d)
    (hother : ∀ j, j ≠ i → g j = f j) :
    ∑ j ∈ Finset.range n, g j = ∑ j ∈ Finset.range n, f j + d := by
  have hmem := Finset.mem_range.mpr hi
  rw [← Finset.add_sum_erase _ g hmem, ← Finset.add_sum_erase _ f hmem, hself,
    Finset.sum_congr rfl fun j hj => hother j (Finset.ne_of_mem_erase hj)]
  rw [add_right_comm]

end Sums

section Steps

variable {s : State net} {k i : ℕ} {a : Act (T k) (T (k + 1))} {t : (net.worker k i).State}
  {queue : ∀ k, List (T k)}

theorem past_after_self : (s.after k i a t queue).past k i = (s.state k i, a) :: s.past k i := by
  dsimp only [State.after]
  rw [Function.update_self, Function.update_self]

theorem past_after_of_ne {m j : ℕ} (h : m ≠ k ∨ j ≠ i) : (s.after k i a t queue).past m j = s.past m j := by
  dsimp only [State.after]
  by_cases hm : m = k
  · subst hm
    rw [Function.update_self, Function.update_of_ne (h.resolve_left fun hne => hne rfl)]
  · rw [Function.update_of_ne hm]

theorem popped_after (hi : i < net.size k) : (s.after k i a t queue).popped k =
    s.popped k + (a.taken.toList : Multiset (T k)) := by
  refine sum_of_step hi ?_ fun j hj => ?_
  · rw [past_after_self, pops, Multiset.coe_add]
  · rw [past_after_of_ne (Or.inr hj)]

theorem pushed_after (hi : i < net.size k) : (s.after k i a t queue).pushed k =
    s.pushed k + (a.given.toList : Multiset (T (k + 1))) := by
  refine sum_of_step hi ?_ fun j hj => ?_
  · rw [past_after_self, pushes, Multiset.coe_add]
  · rw [past_after_of_ne (Or.inr hj)]

theorem popped_after_of_ne {m : ℕ} (hm : m ≠ k) : (s.after k i a t queue).popped m = s.popped m :=
  Finset.sum_congr rfl fun _ _ => by rw [past_after_of_ne (Or.inl hm)]

theorem pushed_after_of_ne {m : ℕ} (hm : m ≠ k) : (s.after k i a t queue).pushed m = s.pushed m :=
  Finset.sum_congr rfl fun _ _ => by rw [past_after_of_ne (Or.inl hm)]

/-- **What a step does to the queues.** -/
structure Moved (s : State net) (k : ℕ) (a : Act (T k) (T (k + 1))) (queue : ∀ k, List (T k)) :
    Prop where
  input : (queue k : Multiset (T k)) + (a.taken.toList : Multiset (T k)) = s.queue k
  output : (queue (k + 1) : Multiset (T (k + 1))) =
    s.queue (k + 1) + (a.given.toList : Multiset (T (k + 1)))
  other : ∀ m, m ≠ k → m ≠ k + 1 → queue m = s.queue m
  empty : s.queue k = [] → queue k = []

theorem Moves.moved (h : Moves s k a queue) : Moved s k a queue := by
  have hsame : queue = s.queue → a.taken = none → a.given = none → Moved s k a queue := by
    rintro rfl htaken hgiven
    refine ⟨?_, ?_, fun _ _ _ => rfl, id⟩
    · rw [htaken]
      exact add_zero _
    · rw [hgiven]
      exact (add_zero _).symm
  cases a with
  | think => exact hsame h rfl rfl
  | leave => exact hsame h rfl rfl
  | close => exact hsame h.2.2 rfl rfl
  | pop x =>
    obtain ⟨rest, hq, rfl⟩ := h
    refine ⟨?_, ?_, fun m hm _ => Function.update_of_ne hm _ _, fun hnil => ?_⟩
    · rw [Function.update_self, hq, add_comm]
      rfl
    · rw [Function.update_of_ne (Nat.succ_ne_self k)]
      exact (add_zero _).symm
    · rw [hq] at hnil
      cases hnil
  | push y =>
    obtain rfl := h
    refine ⟨?_, ?_, fun m _ hm => Function.update_of_ne hm _ _, fun hnil => ?_⟩
    · rw [Function.update_of_ne (Nat.succ_ne_self k).symm]
      exact add_zero _
    · rw [Function.update_self, ← Multiset.coe_add]
      rfl
    · rw [Function.update_of_ne (Nat.succ_ne_self k).symm, hnil]

theorem gone_after {m j : ℕ} (h : s.gone m j = true) : (s.after k i a t queue).gone m j = true := by
  dsimp only [State.after]
  cases a with
  | leave =>
    dsimp only
    by_cases hm : m = k
    · subst hm
      rw [Function.update_self]
      by_cases hj : j = i
      · rw [hj, Function.update_self]
      · rw [Function.update_of_ne hj, h]
    · rw [Function.update_of_ne hm, h]
  | _ => exact h

/-- Only a worker that leaves is gone. -/
theorem gone_of_after {m j : ℕ} (h : (s.after k i a t queue).gone m j = true) :
    s.gone m j = true ∨ m = k ∧ j = i ∧ a = .leave := by
  dsimp only [State.after] at h
  cases a with
  | leave =>
    dsimp only at h
    by_cases hm : m = k
    · subst hm
      rw [Function.update_self] at h
      by_cases hj : j = i
      · exact Or.inr ⟨rfl, hj, rfl⟩
      · rw [Function.update_of_ne hj] at h
        exact Or.inl h
    · rw [Function.update_of_ne hm] at h
      exact Or.inl h
  | _ => exact Or.inl h

theorem finished_after {m : ℕ} (h : s.Finished m) : (s.after k i a t queue).Finished m := by
  cases m with
  | zero => trivial
  | succ m => exact fun j hj => gone_after (h j hj)

theorem state_after_self : (s.after k i a t queue).state k i = t := by
  dsimp only [State.after]
  rw [Function.update_self, Function.update_self]

theorem state_after_of_ne {m j : ℕ} (h : m ≠ k ∨ j ≠ i) :
    (s.after k i a t queue).state m j = s.state m j := by
  dsimp only [State.after]
  by_cases hm : m = k
  · subst hm
    rw [Function.update_self, Function.update_of_ne (h.resolve_left fun hne => hne rfl)]
  · rw [Function.update_of_ne hm]

end Steps

theorem inv_init {s : State net} (h : Init s) : Inv s where
  runs k i := by
    rw [h.past]
    exact .start (h.state k i)
  gone k i hgone := by
    rw [h.gone] at hgone
    cases hgone
  flow k := by
    unfold State.popped State.pushed
    simp only [h.past, h.queue]
    have hpops : ∀ n, ∑ i ∈ Finset.range n,
        ((pops ([] : List (State net × Act (T (k + 1)) (T (k + 2))))) : Multiset (T (k + 1))) = 0 :=
      fun n => Finset.sum_eq_zero fun _ _ => rfl
    have hpushes : ∀ n, ∑ i ∈ Finset.range n,
        ((pushes ([] : List (State net × Act (T k) (T (k + 1))))) : Multiset (T (k + 1))) = 0 :=
      fun n => Finset.sum_eq_zero fun _ _ => rfl
    exact ((zero_add _).trans (hpops _)).trans (hpushes _).symm
  source := h.queue 0
  closed k i u hu := by
    rw [h.past] at hu
    cases hu

/-- **A step keeps the invariant.** -/
theorem step_inv {s s' : State net} {l : Σ k, ℕ × Act (T k) (T (k + 1))} (h : Inv s)
    (hs : Step l s s') : Inv s' := by
  obtain ⟨hi, hgone, hstep, hmoves⟩ := hs
  rename_i k i a t queue
  have hmoved := hmoves.moved
  refine ⟨fun m j => ?_, fun m j hmj => ?_, fun m => ?_, ?_, fun m j u hu => ?_⟩
  · by_cases hself : m = k ∧ j = i
    · obtain ⟨rfl, rfl⟩ := hself
      rw [past_after_self, state_after_self]
      exact (h.runs m j).step hstep
    · rw [past_after_of_ne (not_and_or.mp hself), state_after_of_ne (not_and_or.mp hself)]
      exact h.runs m j
  · by_cases hself : m = k ∧ j = i
    · obtain ⟨rfl, rfl⟩ := hself
      rcases gone_of_after hmj with hold | ⟨-, -, rfl⟩
      · rw [hgone] at hold
        cases hold
      · exact ⟨_, _, past_after_self⟩
    · rw [past_after_of_ne (not_and_or.mp hself)]
      refine h.gone m j ((gone_of_after hmj).resolve_right fun hleft => hself ⟨hleft.1, hleft.2.1⟩)
  · have hflow := h.flow m
    change (queue (m + 1) : Multiset (T (m + 1))) + _ = _
    by_cases hm : m = k
    · subst hm
      rw [popped_after_of_ne (Nat.succ_ne_self m), pushed_after hi, hmoved.output, ← hflow,
        add_right_comm]
    · rw [pushed_after_of_ne hm]
      by_cases hm' : m + 1 = k
      · subst hm'
        rw [popped_after hi, ← hflow, ← hmoved.input]
        exact (add_assoc _ _ _).symm.trans (add_right_comm _ _ _)
      · rw [popped_after_of_ne hm', hmoved.other _ hm' fun heq => hm (Nat.succ_injective heq), hflow]
  · change queue 0 = []
    by_cases hk : 0 = k
    · subst hk
      exact hmoved.empty h.source
    · rw [hmoved.other 0 hk (Nat.succ_ne_zero k).symm]
      exact h.source
  · have hold : (u, .close) ∈ s.past m j → queue m = [] ∧ (s.after k i a t queue).Finished m := by
      intro hu
      obtain ⟨hempty, hfinished⟩ := h.closed m j u hu
      refine ⟨?_, finished_after hfinished⟩
      by_cases hm : m = k
      · subst hm
        exact hmoved.empty hempty
      · rw [hmoved.other m hm ?_, hempty]
        rintro rfl
        rw [hfinished i hi] at hgone
        cases hgone
    by_cases hself : m = k ∧ j = i
    · obtain ⟨rfl, rfl⟩ := hself
      rw [past_after_self] at hu
      rcases List.mem_cons.mp hu with heq | hu
      · obtain ⟨-, rfl⟩ := Prod.mk.inj heq
        obtain ⟨hempty, hfinished, rfl⟩ := hmoves
        exact ⟨hempty, finished_after hfinished⟩
      · exact hold hu
    · rw [past_after_of_ne (not_and_or.mp hself)] at hu
      exact hold hu

theorem run_inv {past : List (State net × Σ k, ℕ × Act (T k) (T (k + 1)))} {s : State net}
    (h : Run Init Step past s) : Inv s :=
  (h.invariant Inv (fun _ _ => True) (fun _ => inv_init) (fun _ _ _ hs _ => step_inv hs)
    fun _ _ => trivial).1

/-! ### When workers have left -/

/-- How a worker has left. -/
theorem Inv.left {s : State net} (h : Inv s) {k i : ℕ} (hgone : s.gone k i = true) :
    ∃ past u, (net.worker k i).Leaves past (s.state k i) ∧ s.past k i = (u, .leave) :: past := by
  obtain ⟨u, past, hpast⟩ := h.gone k i hgone
  have hrun := h.runs k i
  rw [hpast] at hrun
  cases hrun with
  | step hrun hstep => exact ⟨past, u, ⟨u, hrun, hstep⟩, hpast⟩

theorem Inv.gives {s : State net} (h : Inv s) {k i : ℕ} (hgone : s.gone k i = true)
    {R : List (T k) → List (T (k + 1)) → (net.worker k i).State → Prop}
    (hgives : (net.worker k i).Gives R) : R (pops (s.past k i)) (pushes (s.past k i)) (s.state k i) := by
  obtain ⟨past, u, hleaves, hpast⟩ := h.left hgone
  rw [hpast]
  have := hgives past (s.state k i) hleaves
  rwa [← List.append_nil (pops past), ← List.append_nil (pushes past)] at this

/-- **When all workers of a stage have left**, all that was pushed for them was popped, and all workers
before have left. -/
theorem delivered {s : State net} (h : Inv s) {k i : ℕ} (hcloses : (net.worker (k + 1) i).Closes)
    (hgone : s.gone (k + 1) i = true) :
    s.popped (k + 1) = s.pushed k ∧ ∀ i, i < net.size k → s.gone k i = true := by
  obtain ⟨past, u, hleaves, hpast⟩ := h.left hgone
  obtain ⟨v, hv⟩ := hcloses past _ hleaves
  obtain ⟨hempty, hfinished⟩ := h.closed (k + 1) i v (by rw [hpast]; exact List.mem_cons_of_mem _ hv)
  have hflow := h.flow k
  rw [hempty] at hflow
  exact ⟨(zero_add _).symm.trans hflow, hfinished⟩

/-- The elements that each worker of a stage has popped. -/
def State.shares (s : State net) (k : ℕ) : List (List (T k)) :=
  (List.range (net.size k)).map fun i => pops (s.past k i)

def State.gifts (s : State net) (k : ℕ) : List (List (T (k + 1))) :=
  (List.range (net.size k)).map fun i => pushes (s.past k i)

theorem coe_flatten_map {α : Type} (f : ℕ → List α) (n : ℕ) :
    (((List.range n).map f).flatten : Multiset α) = ∑ i ∈ Finset.range n, (f i : Multiset α) := by
  induction n with
  | zero => rfl
  | succ n ih =>
    rw [Finset.sum_range_succ, ← ih, List.range_succ, List.map_append, List.flatten_append,
      Multiset.coe_add]
    simp

theorem delivered_perm {s : State net} (h : Inv s) {k i : ℕ}
    (hcloses : (net.worker (k + 1) i).Closes) (hgone : s.gone (k + 1) i = true) :
    (s.shares (k + 1)).flatten.Perm (s.gifts k).flatten := by
  rw [← Multiset.coe_eq_coe]
  unfold State.shares State.gifts
  rw [coe_flatten_map, coe_flatten_map]
  exact (delivered h hcloses hgone).1

/-! ### Driving a network -/

/-- What an action needs of the queue in front. -/
def Act.Fits {I O : Type} (queue : List I) (finished : Bool) : Act I O → Prop
  | .pop x => queue.head? = some x
  | .close => queue = [] ∧ finished = true
  | _ => True

/-- The steps of a worker, computed from the queue in front of it. -/
structure Driver {I O : Type} (w : Worker I O) where
  next : List I → Bool → w.State → Option (Act I O × w.State)
  sound : ∀ queue finished s r, next queue finished s = some r →
    w.Step r.1 s r.2 ∧ r.1.Fits queue finished

/-- A run between queues that are, in each step, as the script says. -/
def Driver.drive {I O : Type} {w : Worker I O} (d : Driver w) (script : List (List I × Bool))
    (s : w.State) : Option (List (w.State × Act I O) × w.State) :=
  Runs.drive (fun s c => d.next c.1 c.2 s) script [] s

theorem Driver.leaves {I O : Type} {w : Worker I O} {d : Driver w} {script : List (List I × Bool)}
    {s t : w.State} {past : List (w.State × Act I O)} (hs : w.Init s)
    (h : d.drive script s = some (past, t)) (hleave : w.Step .leave t t) : w.Leaves past t :=
  ⟨t, (Run.start hs).drive (fun s c r hr => (d.sound c.1 c.2 s r hr).1) h, hleave⟩

section Drive

variable (drivers : ∀ k i, Driver (net.worker k i)) (s : State net)

def State.finished : ℕ → Bool
  | 0 => true
  | k + 1 => (List.range (net.size k)).all (s.gone k)

/-- The queues after a step. -/
def State.moved (k : ℕ) : Act (T k) (T (k + 1)) → ∀ k, List (T k)
  | .pop _ => Function.update s.queue k (s.queue k).tail
  | .push y => Function.update s.queue (k + 1) (s.queue (k + 1) ++ [y])
  | _ => s.queue

/-- The step of one worker. -/
def State.next (c : ℕ × ℕ) : Option ((Σ k, ℕ × Act (T k) (T (k + 1))) × State net) :=
  if c.2 < net.size c.1 ∧ s.gone c.1 c.2 = false then
    ((drivers c.1 c.2).next (s.queue c.1) (s.finished c.1) (s.state c.1 c.2)).map fun r =>
      (⟨c.1, c.2, r.1⟩, s.after c.1 c.2 r.1 r.2 (s.moved c.1 r.1))
  else none

theorem finished_of_gone {s : State net} : ∀ {k : ℕ}, s.finished k = true → s.Finished k
  | 0, _ => trivial
  | _ + 1, h => fun i hi => List.all_eq_true.mp h i (List.mem_range.mpr hi)

theorem step_of_next {s : State net} {c : ℕ × ℕ} {r : (Σ k, ℕ × Act (T k) (T (k + 1))) × State net}
    (h : s.next drivers c = some r) : Step r.1 s r.2 := by
  unfold State.next at h
  split_ifs at h with hi
  obtain ⟨q, hq, rfl⟩ := Option.map_eq_some_iff.mp h
  obtain ⟨a, t⟩ := q
  obtain ⟨hstep, hfits⟩ := (drivers c.1 c.2).sound _ _ _ _ hq
  refine .step hi.1 hi.2 hstep ?_
  cases a with
  | pop x =>
    obtain ⟨rest, hrest⟩ := List.head?_eq_some_iff.mp hfits
    exact ⟨rest, hrest, by dsimp only [State.moved]; rw [hrest, List.tail_cons]⟩
  | close => exact ⟨hfits.1, finished_of_gone hfits.2, rfl⟩
  | _ => rfl

end Drive

end Joda.Lib.Network
