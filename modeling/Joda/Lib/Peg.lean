import Mathlib.Data.List.TakeWhile
import Mathlib.Order.Nat
import Mathlib.Tactic.Common

/-! # Parsing expression grammars

A rule reads a part in front of its input. It may not match, which the next alternative of `sor`
repairs, or stop the whole parse, which nothing does. The rules about rules: `.._ok` and `.._fail` say
when a rule matches, `of_..` what it has read, and `star_rounds` what the rounds of a repetition read. -/

namespace Joda.Lib.Peg

variable {σ α β : Type}

inductive Result (σ α : Type) where
  | fail
  | error
  | ok (a : α) (rest : List σ)

abbrev Rule (σ α : Type) := List σ → Result σ α

/-! ### Rules -/

def success (a : α) : Rule σ α := fun s => .ok a s

def andThen (p : Rule σ α) (k : α → Rule σ β) : Rule σ β := fun s =>
  match p s with
  | .fail => .fail
  | .error => .error
  | .ok a rest => k a rest

/-- An action on what was read. -/
def act (f : α → β) (p : Rule σ α) : Rule σ β := andThen p fun a => success (f a)

/-- An action that may refuse; the rule does not match then. -/
def actIf (f : α → Option β) (p : Rule σ α) : Rule σ β :=
  andThen p fun a s => match f a with
    | some b => .ok b s
    | none => .fail

/-- Both, with what the second returns. -/
def thenRight (p : Rule σ α) (q : Rule σ β) : Rule σ β := andThen p fun _ => q

/-- Both, with what the first returns. -/
def thenLeft (p : Rule σ α) (q : Rule σ β) : Rule σ α := andThen p fun a => act (fun _ => a) q

def seq (p : Rule σ α) (q : Rule σ β) : Rule σ (α × β) := andThen p fun a => act (Prod.mk a) q

/-- The first that matches. -/
def sor (p q : Rule σ α) : Rule σ α := fun s =>
  match p s with
  | .fail => q s
  | r => r

def opt (p : Rule σ α) : Rule σ (Option α) := sor (act some p) (success none)

def must (p : Rule σ α) : Rule σ α := fun s =>
  match p s with
  | .fail => .error
  | r => r

def ifMust (p : Rule σ α) (q : Rule σ β) : Rule σ β := thenRight p (must q)

/-- The other rule does not match here; nothing is read. -/
def notAt (p : Rule σ α) : Rule σ Unit := fun s =>
  match p s with
  | .fail => .ok () s
  | .error => .error
  | .ok _ _ => .fail

/-- The given symbols. -/
def string [BEq σ] (word : List σ) : Rule σ (List σ) := fun s =>
  if word.isPrefixOf s then .ok word (s.drop word.length) else .fail

/-- The part that was read. -/
def matched (p : Rule σ α) : Rule σ (List σ) := fun s =>
  match p s with
  | .fail => .fail
  | .error => .error
  | .ok _ rest => .ok (s.take (s.length - rest.length)) rest

/-- One symbol. -/
def sat (f : σ → Bool) : Rule σ σ
  | [] => .fail
  | c :: s => if f c then .ok c s else .fail

def starFrom (p : Rule σ α) : ℕ → Rule σ (List α)
  | 0, s => .ok [] s
  | n + 1, s =>
    match p s with
    | .fail => .ok [] s
    | .error => .error
    | .ok a rest => act (List.cons a) (starFrom p n) rest

/-- As often as it matches. A round reads something, so there are not more of them than symbols. -/
def star (p : Rule σ α) : Rule σ (List α) := fun s => starFrom p (s.length + 1) s

def plus (p : Rule σ α) : Rule σ (List α) := andThen p fun a => act (List.cons a) (star p)

/-! ### One rule after the other -/

section Runs

variable {p : Rule σ α} {s r : List σ} {a : α}

theorem andThen_ok {k : α → Rule σ β} (h : p s = .ok a r) : andThen p k s = k a r := by
  unfold andThen
  rw [h]

theorem andThen_fail {k : α → Rule σ β} (h : p s = .fail) : andThen p k s = .fail := by
  unfold andThen
  rw [h]

/-- What a sequence that matched has read. -/
theorem of_andThen {k : α → Rule σ β} {b : β} (h : andThen p k s = .ok b r) :
    ∃ a t, p s = .ok a t ∧ k a t = .ok b r := by
  unfold andThen at h
  cases hp : p s with
  | fail => rw [hp] at h; simp at h
  | error => rw [hp] at h; simp at h
  | ok a t => rw [hp] at h; exact ⟨a, t, rfl, h⟩

theorem act_ok (f : α → β) (h : p s = .ok a r) : act f p s = .ok (f a) r := by
  unfold act
  rw [andThen_ok h]
  rfl

theorem act_fail (f : α → β) (h : p s = .fail) : act f p s = .fail := andThen_fail h

theorem of_act {f : α → β} {b : β} (h : act f p s = .ok b r) : ∃ a, p s = .ok a r ∧ b = f a := by
  obtain ⟨a, t, hp, hk⟩ := of_andThen h
  simp only [success, Result.ok.injEq] at hk
  rw [hk.2] at hp
  exact ⟨a, hp, hk.1.symm⟩

theorem actIf_ok {f : α → Option β} {b : β} (h : p s = .ok a r) (hf : f a = some b) :
    actIf f p s = .ok b r := by
  unfold actIf
  rw [andThen_ok h, hf]

theorem actIf_fail {f : α → Option β} (h : p s = .fail) : actIf f p s = .fail := andThen_fail h

theorem thenRight_fail {q : Rule σ β} (h : p s = .fail) : thenRight p q s = .fail := andThen_fail h

theorem thenLeft_fail {q : Rule σ β} (h : p s = .fail) : thenLeft p q s = .fail := andThen_fail h

theorem seq_ok {q : Rule σ β} {b : β} {t : List σ} (h : p s = .ok a r) (hq : q r = .ok b t) :
    seq p q s = .ok (a, b) t := by
  unfold seq
  rw [andThen_ok h]
  exact act_ok _ hq

theorem seq_fail {q : Rule σ β} (h : p s = .fail) : seq p q s = .fail := andThen_fail h

theorem seq_fail_right {q : Rule σ β} (h : p s = .ok a r) (hq : q r = .fail) :
    seq p q s = .fail := by
  unfold seq
  rw [andThen_ok h]
  exact act_fail _ hq

theorem of_seq {q : Rule σ β} {x : α × β} (h : seq p q s = .ok x r) :
    ∃ t, p s = .ok x.1 t ∧ q t = .ok x.2 r := by
  obtain ⟨a, t, hp, hk⟩ := of_andThen h
  obtain ⟨b, hq, rfl⟩ := of_act hk
  exact ⟨t, hp, hq⟩

theorem sor_left {q : Rule σ α} (h : p s = .ok a r) : sor p q s = .ok a r := by
  unfold sor
  rw [h]

theorem sor_right {q : Rule σ α} (h : p s = .fail) : sor p q s = q s := by
  unfold sor
  rw [h]

theorem of_sor {q : Rule σ α} (h : sor p q s = .ok a r) :
    p s = .ok a r ∨ p s = .fail ∧ q s = .ok a r := by
  unfold sor at h
  cases hp : p s with
  | fail => rw [hp] at h; exact Or.inr ⟨rfl, h⟩
  | error => rw [hp] at h; simp at h
  | ok b t => rw [hp] at h; exact Or.inl h

theorem opt_some (h : p s = .ok a r) : opt p s = .ok (some a) r := sor_left (act_ok some h)

theorem opt_none (h : p s = .fail) : opt p s = .ok none s := sor_right (act_fail some h)

theorem of_opt {o : Option α} (h : opt p s = .ok o r) :
    (∃ a, p s = .ok a r ∧ o = some a) ∨ o = none ∧ r = s := by
  rcases of_sor h with h | ⟨-, h⟩
  · exact Or.inl (of_act h)
  · simp only [success, Result.ok.injEq] at h
    exact Or.inr ⟨h.1.symm, h.2.symm⟩

theorem ifMust_fail {q : Rule σ β} (h : p s = .fail) : ifMust p q s = .fail := thenRight_fail h

theorem string_fail [BEq σ] {word : List σ} (h : word.isPrefixOf s = false) :
    string word s = .fail := by
  unfold string
  rw [if_neg (by simp [h])]

/-- The part in front of the rest is the part that was read. -/
theorem matched_ok {u : List σ} (h : p (u ++ r) = .ok a r) : matched p (u ++ r) = .ok u r := by
  unfold matched
  rw [h]
  simp

theorem matched_fail (h : p s = .fail) : matched p s = .fail := by
  unfold matched
  rw [h]

theorem sat_ok {f : σ → Bool} {c : σ} (h : f c = true) : sat f (c :: s) = .ok c s := by
  simp [sat, h]

theorem sat_fail {f : σ → Bool} (h : ∀ c, s.head? = some c → f c = false) : sat f s = .fail := by
  cases s with
  | nil => rfl
  | cons c s => simp [sat, h c rfl]

theorem of_sat {f : σ → Bool} {c : σ} (h : sat f s = .ok c r) : s = c :: r ∧ f c = true := by
  cases s with
  | nil => simp [sat] at h
  | cons d s =>
    simp only [sat] at h
    split_ifs at h with hd
    simp only [Result.ok.injEq] at h
    exact ⟨by rw [h.1, h.2], by rw [← h.1]; exact hd⟩

end Runs

/-! ### Repetitions -/

section Star

variable {p : Rule σ α} {s r t : List σ} {a : α} {l : List α}

/-- **The rounds of a repetition**, each of which reads something. -/
inductive Rounds (p : Rule σ α) : List σ → List α → List σ → Prop
  | stop {s : List σ} (h : p s = .fail) : Rounds p s [] s
  | round {s r t : List σ} {a : α} {l : List α} (h : p s = .ok a r) (hlt : r.length < s.length)
      (hl : Rounds p r l t) : Rounds p s (a :: l) t

theorem starFrom_rounds (h : Rounds p s l t) : ∀ n, s.length < n → starFrom p n s = .ok l t := by
  induction h with
  | stop h =>
    intro n hn
    obtain ⟨m, rfl⟩ : ∃ m, n = m + 1 := ⟨n - 1, by omega⟩
    unfold starFrom
    rw [h]
  | round h hlt hl ih =>
    intro n hn
    obtain ⟨m, rfl⟩ : ∃ m, n = m + 1 := ⟨n - 1, by omega⟩
    unfold starFrom
    rw [h]
    exact act_ok _ (ih m (by omega))

theorem star_rounds (h : Rounds p s l t) : star p s = .ok l t :=
  starFrom_rounds h _ (Nat.lt_succ_self _)

/-- Symbols of a kind. -/
theorem rounds_sat (f : σ → Bool) : ∀ s : List σ,
    Rounds (sat f) s (s.takeWhile f) (s.dropWhile f)
  | [] => .stop rfl
  | c :: s => by
    by_cases hc : f c = true
    · rw [List.takeWhile_cons_of_pos hc, List.dropWhile_cons_of_pos hc]
      exact .round (sat_ok hc) (Nat.lt_succ_self _) (rounds_sat f s)
    · rw [List.takeWhile_cons_of_neg hc, List.dropWhile_cons_of_neg hc]
      refine .stop (sat_fail fun d hd => ?_)
      obtain rfl : c = d := Option.some.inj hd
      simpa using hc

theorem star_sat (f : σ → Bool) (s : List σ) :
    star (sat f) s = .ok (s.takeWhile f) (s.dropWhile f) := star_rounds (rounds_sat f s)

theorem star_run {f : σ → Bool} (ht : ∀ c ∈ t, f c = true)
    (hr : ∀ c, r.head? = some c → f c = false) : star (sat f) (t ++ r) = .ok t r := by
  have h1 : (t ++ r).takeWhile f = t := by
    rw [List.takeWhile_append_of_pos ht]
    cases r with
    | nil => simp
    | cons c r => rw [List.takeWhile_cons_of_neg (by simp [hr c rfl]), List.append_nil]
  have h2 : (t ++ r).dropWhile f = r := by
    rw [List.dropWhile_append_of_pos ht]
    cases r with
    | nil => rfl
    | cons c r => rw [List.dropWhile_cons_of_neg (by simp [hr c rfl])]
  rw [star_sat, h1, h2]

theorem plus_run {f : σ → Bool} (hne : t ≠ []) (ht : ∀ c ∈ t, f c = true)
    (hr : ∀ c, r.head? = some c → f c = false) : plus (sat f) (t ++ r) = .ok t r := by
  cases t with
  | nil => exact absurd rfl hne
  | cons c t =>
    obtain ⟨hc, ht⟩ := List.forall_mem_cons.mp ht
    show andThen (sat f) _ (c :: (t ++ r)) = _
    rw [andThen_ok (sat_ok hc)]
    exact act_ok _ (star_run ht hr)

end Star

end Joda.Lib.Peg
