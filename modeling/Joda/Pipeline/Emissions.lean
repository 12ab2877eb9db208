import Joda.Pipeline.Executor

/-! # What a task emits

A calculation that takes its whole input with each call and leaves at most one element at the end is
executed without a loss: whatever the queues, the other tasks and the returns to the thread pool do,
the executor pushes in the end what the calculation emits for the inputs that were popped, in order. -/

namespace Joda.Pipeline.Emissions

open Joda.Lib.Runs Joda.Pipeline.Executor

variable {σ I O : Type*}

/-- What the calls of `fillBuffer` emit for the inputs. -/
def outputs (task : Calc σ I O) : σ → List I → List O
  | _, [] => []
  | s, i :: inputs =>
    (task.fillBuffer s i).sent ++ (task.fillBuffer s i).left.toList ++
      outputs task (task.fillBuffer s i).state inputs

/-- The state after the inputs. -/
def after (task : Calc σ I O) : σ → List I → σ
  | s, [] => s
  | s, i :: inputs => after task (task.fillBuffer s i).state inputs

/-- **What the calculation emits** for the inputs and at the end. -/
def emissions (task : Calc σ I O) (s : σ) (inputs : List I) : List O :=
  outputs task s inputs ++ (task.finalize (after task s inputs)).1 ++
    (task.finalize (after task s inputs)).2.toList

/-- Each call takes its input, and the end leaves one element at most. -/
structure Consuming (task : Calc σ I O) : Prop where
  takes : ∀ s i, (task.fillBuffer s i).ibuff = none
  ends : ∀ s, (task.finalize s).1 = []

theorem outputs_concat (task : Calc σ I O) (i : I) : ∀ (inputs : List I) (s : σ),
    outputs task s (inputs ++ [i]) = outputs task s inputs ++
      ((task.fillBuffer (after task s inputs) i).sent ++
        (task.fillBuffer (after task s inputs) i).left.toList)
  | [], s => by simp [outputs, after]
  | j :: inputs, s => by
    rw [List.cons_append, outputs, outputs_concat task i inputs, ← List.append_assoc]
    rfl

theorem after_concat (task : Calc σ I O) (i : I) : ∀ (inputs : List I) (s : σ),
    after task s (inputs ++ [i]) = (task.fillBuffer (after task s inputs) i).state
  | [], _ => rfl
  | _ :: inputs, _ => after_concat task i inputs _

/-! ### The executor -/

/-- What is still to be emitted. -/
def pending : Pc O → List O
  | .filling _ sent rest => sent ++ rest.toList
  | .fillSend _ sent rest => sent ++ rest.toList
  | .finalizing sent rest => sent ++ rest.toList
  | _ => []

/-- Where the input buffer may hold something. -/
def fetching : Pc O → Bool
  | .fetch _ _ => true
  | .fill _ => true
  | _ => false

/-- **The invariant**: the inputs taken so far are emitted or pending, and so is what the end left. -/
structure Emits (task : Calc σ I O) (start : σ) (s : State σ I O) : Prop where
  inv : Inv s
  input : fetching s.pc = false → s.ibuff = none
  ending : ∀ sent rest, s.pc = .finalizing sent rest → sent = [] ∧ s.obuff = none
  notSending : ∀ sent rest, s.pc ≠ .finalSend sent rest
  emitted : ∃ taken, s.popped = taken ++ s.ibuff.toList ∧ s.state = after task start taken ∧
    s.emitted ++ pending s.pc = outputs task start taken ++
      if s.pc.closing then (task.finalize s.state).2.toList else []

/-- A step that only goes on, or pushes what is in the output buffer. -/
theorem Emits.goto {task : Calc σ I O} {start : σ} {s t : State σ I O} (h : Emits task start s)
    (hinv : Inv t) (hi : t.ibuff = s.ibuff) (hp : t.popped = s.popped) (hs : t.state = s.state)
    (he : t.emitted = s.emitted) (hpending : pending t.pc = pending s.pc)
    (hclosing : t.pc.closing = s.pc.closing) (hfetch : fetching t.pc = false → s.ibuff = none)
    (hend : ∀ sent rest, t.pc ≠ .finalizing sent rest)
    (hsend : ∀ sent rest, t.pc ≠ .finalSend sent rest) : Emits task start t := by
  obtain ⟨taken, h1, h2, h3⟩ := h.emitted
  refine ⟨hinv, fun hf => hi.trans (hfetch hf), fun sent rest hpc => absurd hpc (hend sent rest),
    hsend, taken, ?_, ?_, ?_⟩
  · rw [hp, hi, h1]
  · rw [hs, h2]
  · rw [he, hpending, hclosing, hs, h3]

theorem Emits.defaultSend {cfg : Config σ I O} {task : Calc σ I O} {start : σ} {s t : State σ I O}
    {pc starved : Pc O} (h : Emits task start s) (ht : s.defaultSend cfg pc starved = some t)
    (hinv : Inv t) (hfetch : s.ibuff = none)
    (hpc : ∀ q, q = pc ∨ q = starved → pending q = pending s.pc ∧ q.closing = s.pc.closing ∧
      (∀ sent rest, q ≠ .finalizing sent rest) ∧ ∀ sent rest, q ≠ .finalSend sent rest) :
    Emits task start t := by
  obtain ⟨h1, h2, h3, h4⟩ := hpc pc (Or.inl rfl)
  obtain ⟨h1', h2', h3', h4'⟩ := hpc starved (Or.inr rfl)
  rcases State.defaultSend_cases ht with ⟨-, rfl⟩ | ⟨o, -, rfl⟩ | rfl
  · exact h.goto hinv rfl rfl rfl rfl h1 h2 (fun _ => hfetch) h3 h4
  · exact h.goto hinv rfl rfl rfl rfl h1 h2 (fun _ => hfetch) h3 h4
  · exact h.goto hinv rfl rfl rfl rfl h1' h2' (fun _ => hfetch) h3' h4'

theorem Emits.blockSend {cfg : Config σ I O} {task : Calc σ I O} {start : σ} {s t : State σ I O}
    {pc : Pc O} (h : Emits task start s) (ht : s.blockSend cfg pc = some t) (hinv : Inv t)
    (hfetch : s.ibuff = none) (h1 : pending pc = pending s.pc) (h2 : pc.closing = s.pc.closing)
    (h3 : ∀ sent rest, pc ≠ .finalizing sent rest) (h4 : ∀ sent rest, pc ≠ .finalSend sent rest) :
    Emits task start t := by
  rcases State.blockSend_cases ht with ⟨-, rfl⟩ | ⟨o, -, rfl⟩
  · exact h.goto hinv rfl rfl rfl rfl h1 h2 (fun _ => hfetch) h3 h4
  · exact h.goto hinv rfl rfl rfl rfl h1 h2 (fun _ => hfetch) h3 h4

/-- A pending element is emitted. -/
theorem Emits.emit {task : Calc σ I O} {start : σ} {s : State σ I O} {o : O} {pc : Pc O}
    (h : Emits task start s) (hinv : Inv { s.emit o with pc := pc })
    (hpending : pending s.pc = o :: pending pc) (hclosing : pc.closing = s.pc.closing)
    (hfetch : s.ibuff = none) (hend : ∀ sent rest, pc ≠ .finalizing sent rest)
    (hsend : ∀ sent rest, pc ≠ .finalSend sent rest) :
    Emits task start { s.emit o with pc := pc } := by
  obtain ⟨taken, h1, h2, h3⟩ := h.emitted
  refine ⟨hinv, fun _ => hfetch, fun sent rest hpc => absurd hpc (hend sent rest), hsend, taken, h1,
    h2, ?_⟩
  show s.emitted ++ [o] ++ pending pc = outputs task start taken ++
    if pc.closing then (task.finalize s.state).2.toList else []
  rw [hclosing, ← h3, hpending, List.append_assoc, List.singleton_append]

/-- Every step of such a calculation meets the condition under which nothing is lost. -/
theorem Emits.meets {task : Calc σ I O} {start : σ} {s : State σ I O} (h : Emits task start s) :
    Meets s .executor := by
  simp only [Meets]
  split <;> rename_i hpc
  · exact absurd (h.ending _ _ hpc).1 (List.cons_ne_nil _ _)
  · exact (h.ending _ _ hpc).2
  · exact fun _ => h.input (by rw [hpc]; rfl)
  · trivial

/-- **A step of the executor.** -/
theorem exec_emits {cfg : Config σ I O} {start : σ} (hc : Consuming cfg.calculation)
    {s t : State σ I O} (h : Emits cfg.calculation start s) (ht : exec cfg s = some t) :
    Emits cfg.calculation start t := by
  have hinv := exec_inv h.inv h.meets ht
  have hinput := h.input
  have hempty := h.inv.empty
  obtain ⟨taken, h1, h2, h3⟩ := h.emitted
  unfold exec at ht
  split at ht <;> rename_i hpc <;> rw [hpc] at hinput hempty h3
  case h_1 => cases ht
  case h_2 =>
    refine h.defaultSend ht hinv (hinput rfl) ?_
    rintro q (rfl | rfl) <;> rw [hpc] <;> exact ⟨rfl, rfl, by simp, by simp⟩
  case h_3 k =>
    split_ifs at ht with hfin <;> obtain rfl := Option.some.inj ht
    · refine ⟨hinv, fun _ => hinput rfl, ?_, by simp, taken, h1, h2, ?_⟩
      · rintro sent rest hq
        obtain ⟨rfl, -⟩ := Pc.finalizing.inj hq
        exact ⟨hc.ends _, hempty rfl⟩
      · show s.emitted ++ ((cfg.calculation.finalize s.state).1 ++ _) = _ ++ _
        rw [hc.ends, ← List.append_nil s.emitted]
        exact congrArg (· ++ (cfg.calculation.finalize s.state).2.toList) (h3.trans (List.append_nil _))
    · exact h.goto hinv rfl rfl rfl rfl (by rw [hpc]; rfl) (by rw [hpc]; rfl) (fun hf => by cases hf)
        (by simp) (by simp)
  case h_4 k tries =>
    split at ht <;> obtain rfl := Option.some.inj ht
    · exact h.goto hinv rfl rfl rfl rfl (by rw [hpc]; rfl) (by rw [hpc]; rfl) (fun hf => by cases hf)
        (by simp) (by simp)
    · rename_i i rest hi hin
      refine ⟨hinv, fun hf => (by cases hf), by simp, by simp, taken, ?_, h2, ?_⟩
      · show s.popped ++ [i] = taken ++ [i]
        rw [h1, hi, Option.toList_none, List.append_nil]
      · exact h3
    · rename_i hi hin
      split_ifs at hinv ⊢
      · exact h.goto hinv rfl rfl rfl rfl (by rw [hpc]; rfl) (by rw [hpc]; rfl) (fun _ => hi)
          (by simp) (by simp)
      · exact h.goto hinv rfl rfl rfl rfl (by rw [hpc]; rfl) (by rw [hpc]; rfl) (fun _ => hi)
          (by simp) (by simp)
  case h_5 k =>
    split at ht <;> obtain rfl := Option.some.inj ht
    · rename_i hi
      split_ifs at hinv ⊢
      · exact h.goto hinv rfl rfl rfl rfl (by rw [hpc]; rfl) (by rw [hpc]; rfl) (fun _ => hi)
          (by simp) (by simp)
      · exact h.goto hinv rfl rfl rfl rfl (by rw [hpc]; rfl) (by rw [hpc]; rfl) (fun _ => hi)
          (by simp) (by simp)
    · rename_i i hi
      refine ⟨hinv, fun _ => hc.takes _ _, by simp, by simp, taken ++ [i], ?_, ?_, ?_⟩
      · show s.popped = taken ++ [i] ++ (cfg.calculation.fillBuffer s.state i).ibuff.toList
        rw [hc.takes, h1, hi, Option.toList_none, List.append_nil]
        rfl
      · rw [after_concat, ← h2]
      · rw [outputs_concat, ← h2]
        show s.emitted ++ _ = _ ++ []
        have h3' : s.emitted = outputs cfg.calculation start taken := by
          simpa [pending, Pc.closing] using h3
        rw [h3', List.append_nil]
        rfl
  case h_6 o sent rest =>
    obtain rfl := Option.some.inj ht
    exact h.emit hinv (by rw [hpc]; rfl) (by rw [hpc]; rfl) (hinput rfl) (by simp) (by simp)
  case h_7 o =>
    obtain rfl := Option.some.inj ht
    exact h.emit hinv (by rw [hpc]; rfl) (by rw [hpc]; rfl) (hinput rfl) (by simp) (by simp)
  case h_8 =>
    obtain rfl := Option.some.inj ht
    exact h.goto hinv rfl rfl rfl rfl (by rw [hpc]; rfl) (by rw [hpc]; rfl) (fun _ => hinput rfl)
      (by simp) (by simp)
  case h_9 =>
    exact h.blockSend ht hinv (hinput rfl) (by rw [hpc]; rfl) (by rw [hpc]; rfl) (by simp) (by simp)
  case h_10 =>
    refine h.defaultSend ht hinv (hinput rfl) ?_
    rintro q (rfl | rfl) <;> rw [hpc] <;> exact ⟨rfl, rfl, by simp, by simp⟩
  case h_11 => exact absurd (h.ending _ _ hpc).1 (List.cons_ne_nil _ _)
  case h_12 o =>
    obtain rfl := Option.some.inj ht
    exact h.emit hinv (by rw [hpc]; rfl) (by rw [hpc]; rfl) (hinput rfl) (by simp) (by simp)
  case h_13 =>
    obtain rfl := Option.some.inj ht
    exact h.goto hinv rfl rfl rfl rfl (by rw [hpc]; rfl) (by rw [hpc]; rfl) (fun _ => hinput rfl)
      (by simp) (by simp)
  case h_14 => exact absurd hpc (h.notSending _ _)
  case h_15 =>
    exact h.blockSend ht hinv (hinput rfl) (by rw [hpc]; rfl) (by rw [hpc]; rfl) (by simp) (by simp)

theorem env_emits {cfg : Config σ I O} {task : Calc σ I O} {start : σ} {s t : State σ I O}
    (h : Emits task start s) (ht : Env cfg s t) : Emits task start t := by
  have hinv := env_inv h.inv ht
  cases ht with
  | enter status hs hf =>
    refine h.goto hinv rfl rfl rfl rfl (by rw [hs]; rfl) ?_ (fun _ => h.input (by rw [hs]; rfl))
      (by simp) (by simp)
    rw [hs]
    rcases status with _ | _ | _ | _ | _
    · rfl
    · rfl
    · rfl
    · rfl
    · exact absurd rfl hf
  | produce i hp => exact ⟨hinv, h.input, h.ending, h.notSending, h.emitted⟩
  | unregister hp => exact ⟨hinv, h.input, h.ending, h.notSending, h.emitted⟩
  | take i rest hi => exact ⟨hinv, h.input, h.ending, h.notSending, h.emitted⟩
  | drain o rest ho => exact ⟨hinv, h.input, h.ending, h.notSending, h.emitted⟩
  | give o hf => exact ⟨hinv, h.input, h.ending, h.notSending, h.emitted⟩

theorem initial_emits (task : Calc σ I O) {s : State σ I O} (h : Initial s) :
    Emits task s.state s := by
  have hinv := initial_inv h
  obtain ⟨hpc, h1, h2, h3, h4, h5, h6, h7⟩ := h
  refine ⟨hinv, fun _ => h2, by simp [hpc], by simp [hpc], [], ?_, rfl, ?_⟩
  · simp [h2, h6]
  · simp [h4, hpc, pending, Pc.closing, outputs]

/-- **In every run, what was pushed when the executor reports `FINISHED` is what the calculation emits
for the inputs that were popped.** -/
theorem pushed_finished {cfg : Config σ I O} (hc : Consuming cfg.calculation) {start : σ}
    {past : List (State σ I O × Actor)} {s : State σ I O}
    (h : Run (fun s => Initial s ∧ s.state = start) (Step cfg) past s)
    (hf : s.pc = .left (some .finished)) : s.pushed = emissions cfg.calculation start s.popped := by
  have hemits : Emits cfg.calculation start s := by
    refine (h.invariant (Emits cfg.calculation start) (fun _ _ => True) ?_ ?_ fun _ _ => trivial).1
    · rintro s ⟨hinit, rfl⟩
      exact initial_emits cfg.calculation hinit
    · intro a s t hs _ hst
      cases a with
      | executor => exact exec_emits hc hs hst
      | others => exact env_emits hs hst
  have hib := hemits.input (by rw [hf]; rfl)
  obtain ⟨taken, h1, h2, h3⟩ := hemits.emitted
  rw [hib, Option.toList_none, List.append_nil] at h1
  have h3' : s.emitted ++ [] = outputs cfg.calculation start taken ++
      (cfg.calculation.finalize s.state).2.toList := by
    rw [hf] at h3
    exact h3
  unfold emissions
  rw [h1, ← h2, hc.ends, List.append_nil, ← h3', List.append_nil]
  exact (hemits.inv.preserved.of_finished hf).1.symm

end Joda.Pipeline.Emissions
