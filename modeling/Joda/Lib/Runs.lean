import Mathlib.Tactic.Common

/-! # Runs of a labelled transition system

A run is the list of the steps taken, the last one first, each as the state it left and its label.
`Run.invariant` carries an invariant along a run whose steps all meet a condition; `Run.holds_iff`
makes the condition exact: if a step that does not meet it breaks the property at once, then the
property holds in all states of a run exactly if all its steps meet the condition. -/

namespace Joda.Lib.Runs

variable {σ α : Type*}

/-- **A run** from an initial state. -/
inductive Run (Init : σ → Prop) (Step : α → σ → σ → Prop) : List (σ × α) → σ → Prop
  | start {s : σ} (h : Init s) : Run Init Step [] s
  | step {past : List (σ × α)} {s t : σ} {a : α} (h : Run Init Step past s) (hs : Step a s t) :
      Run Init Step ((s, a) :: past) t

variable {Init : σ → Prop} {Step : α → σ → σ → Prop} {Holds : σ → Prop} {Meets : σ → α → Prop}

theorem Run.invariant (Inv : σ → Prop) (Meets : σ → α → Prop) (init : ∀ s, Init s → Inv s)
    (keeps : ∀ a s t, Inv s → Meets s a → Step a s t → Inv t) {past : List (σ × α)} {s : σ}
    (h : Run Init Step past s) (hm : ∀ p ∈ past, Meets p.1 p.2) :
    Inv s ∧ ∀ p ∈ past, Inv p.1 := by
  induction h with
  | start h => exact ⟨init _ h, fun p hp => by cases hp⟩
  | step h hs ih =>
    obtain ⟨h1, h2⟩ := ih fun p hp => hm p (List.mem_cons_of_mem _ hp)
    refine ⟨keeps _ _ _ h1 (hm _ List.mem_cons_self) hs, fun p hp => ?_⟩
    rcases List.mem_cons.mp hp with rfl | hp
    · exact h1
    · exact h2 p hp

/-- **The rule of the exact condition.** -/
theorem Run.holds_iff (Inv : σ → Prop) (init : ∀ s, Init s → Inv s)
    (keeps : ∀ a s t, Inv s → Meets s a → Step a s t → Inv t) (holds : ∀ s, Inv s → Holds s)
    (breaks : ∀ a s t, Inv s → ¬ Meets s a → Step a s t → ¬ Holds t) {past : List (σ × α)} {s : σ}
    (h : Run Init Step past s) :
    (Holds s ∧ ∀ p ∈ past, Holds p.1) ↔ ∀ p ∈ past, Meets p.1 p.2 := by
  constructor
  · rintro ⟨hs, hpast⟩
    induction h with
    | start h => exact fun p hp => by cases hp
    | @step past s t a h hst ih =>
      have hmeets := ih (hpast _ List.mem_cons_self) fun p hp => hpast p (List.mem_cons_of_mem _ hp)
      intro p hp
      rcases List.mem_cons.mp hp with rfl | hp
      · by_contra hn
        exact breaks a s t (h.invariant Inv Meets init keeps hmeets).1 hn hst hs
      · exact hmeets p hp
  · intro hm
    obtain ⟨h1, h2⟩ := h.invariant Inv Meets init keeps hm
    exact ⟨holds s h1, fun p hp => holds _ (h2 p hp)⟩

/-- **The rule of the exact condition on each step**, for a property `Right` of the steps themselves;
the invariant is only kept by steps that are right. -/
theorem Run.each_iff (Inv : σ → Prop) (Right Meets : σ → α → Prop) (init : ∀ s, Init s → Inv s)
    (keeps : ∀ a s t, Inv s → Right s a → Step a s t → Inv t)
    (exact : ∀ a s, Inv s → (Right s a ↔ Meets s a)) {past : List (σ × α)} {s : σ}
    (h : Run Init Step past s) :
    (∀ p ∈ past, Right p.1 p.2) ↔ ∀ p ∈ past, Meets p.1 p.2 := by
  have hboth : ((∀ p ∈ past, Right p.1 p.2) ↔ ∀ p ∈ past, Meets p.1 p.2) ∧
      ((∀ p ∈ past, Right p.1 p.2) → Inv s) := by
    induction h with
    | start h => exact ⟨by simp, fun _ => init _ h⟩
    | step h hs ih =>
      obtain ⟨hiff, hinv⟩ := ih
      simp only [List.forall_mem_cons]
      refine ⟨⟨fun hr => ?_, fun hm => ?_⟩, fun hr => keeps _ _ _ (hinv hr.2) hr.1 hs⟩
      · exact ⟨(exact _ _ (hinv hr.2)).mp hr.1, hiff.mp hr.2⟩
      · have hr := hiff.mpr hm.2
        exact ⟨(exact _ _ (hinv hr)).mpr hm.1, hr⟩
  exact hboth.1

/-- Where a list of labels leads, if the steps are computed by `act`. -/
def follow (act : σ → α → Option σ) : List α → List (σ × α) → σ → Option (List (σ × α) × σ)
  | [], past, s => some (past, s)
  | a :: l, past, s => (act s a).bind fun t => follow act l ((s, a) :: past) t

theorem Run.follow {act : σ → α → Option σ} (hact : ∀ s a t, act s a = some t → Step a s t)
    {l : List α} {past past' : List (σ × α)} {s s' : σ} (h : Run Init Step past s)
    (hf : follow act l past s = some (past', s')) : Run Init Step past' s' := by
  induction l generalizing past s with
  | nil =>
    cases hf
    exact h
  | cons a l ih =>
    obtain ⟨t, ht, hf⟩ := Option.bind_eq_some_iff.mp hf
    exact ih (h.step (hact s a t ht)) hf

/-- Where a script leads, if `act` computes the steps with their labels. -/
def drive {γ : Type*} (act : σ → γ → Option (α × σ)) :
    List γ → List (σ × α) → σ → Option (List (σ × α) × σ)
  | [], past, s => some (past, s)
  | c :: l, past, s => (act s c).bind fun r => drive act l ((s, r.1) :: past) r.2

theorem Run.drive {γ : Type*} {act : σ → γ → Option (α × σ)}
    (hact : ∀ s c r, act s c = some r → Step r.1 s r.2) {l : List γ} {past past' : List (σ × α)}
    {s s' : σ} (h : Run Init Step past s) (hd : drive act l past s = some (past', s')) :
    Run Init Step past' s' := by
  induction l generalizing past s with
  | nil =>
    cases hd
    exact h
  | cons c l ih =>
    obtain ⟨r, hr, hd⟩ := Option.bind_eq_some_iff.mp hd
    exact ih (h.step (hact s c r hr)) hd

end Joda.Lib.Runs
