import Joda.Concurrency.MPMCQueue
import Mathlib.Data.List.Perm.Basic
import Mathlib.Data.List.Range

/-! # Runs of the bounded queue

In every interleaving each element is handed to one consumer, the one whose ticket is the producer's,
and no slot is used by two threads. Where no other thread is inside a call, a call does what it does to
a list with a bound on its length. -/

namespace Joda.Concurrency.MPMCQueue

open Joda.Lib.Custody Joda.Lib.Runs

variable {ι T : Type} {cfg : Config} {s : State cfg ι T}

/-! ### The invariant along a run -/

theorem init_inv (h : Init s) : Inv s := by
  subst h
  have turns (t : ℕ) : (⟨0, 0, fun _ => ⟨0, none⟩, fun _ => .outside none, [], []⟩ :
      State cfg ι T).turnOf t = 0 := rfl
  exact {
    length := rfl
    written_lt := fun t ht => absurd ht (Nat.not_lt_zero _)
    consumed_lt := fun t ht => absurd ht (Nat.not_lt_zero _)
    writers := Handed.of_none (fun _ => rfl) fun t ht => Nat.not_lt_zero t ht.1
    readers := Handed.of_none (fun _ => rfl) fun t ht => Nat.not_lt_zero t ht.1
    wrote := fun i t v hw => by cases hw
    knows := fun i => trivial
    empty := fun t _ => Or.inl rfl
    full := fun t ht => by rw [turns] at ht; omega
    popped_iff := fun t => by rw [Consumed, turns]; simp
    popped_once := List.nodup_nil
    popped_value := fun p hp => by cases hp }

variable [DecidableEq ι]

theorem step_inv (a : ι × Action T) (s s' : State cfg ι T) (h : Inv s) (hs : Step a s s') : Inv s' := by
  obtain ⟨i, c | _⟩ := a
  · obtain ⟨hpc, rfl⟩ := hs
    cases hp : s.pc i <;> rw [hp] at hpc <;> simp only [Pc.inside, Bool.true_eq_false] at hpc
    cases c <;> exact h.goto hp rfl rfl rfl rfl trivial
  · exact exec_inv h hs.2

theorem run_inv {past : List (State cfg ι T × ι × Action T)} (h : Run Init Step past s) : Inv s :=
  (h.invariant Inv (fun _ _ => True) (fun _ => init_inv)
    (fun a s s' hi _ hs => step_inv a s s' hi hs) fun _ _ => trivial).1

/-- A step as a computation. -/
def act (s : State cfg ι T) : ι × Action T → Option (State cfg ι T)
  | (i, .call c) => if (s.pc i).inside then none else some (s.goto i c.entry)
  | (i, .run) => if (s.pc i).inside then exec s i else none

theorem step_of_act (s : State cfg ι T) (a : ι × Action T) (t : State cfg ι T) (h : act s a = some t) :
    Step a s t := by
  obtain ⟨i, c | _⟩ := a
  · rw [act] at h
    split_ifs at h with hpc
    exact ⟨by simpa using hpc, (Option.some.inj h).symm⟩
  · rw [act] at h
    split_ifs at h with hpc
    exact ⟨hpc, h⟩

/-- One slot, two threads, no call yet. -/
def fresh : State ⟨1, le_rfl⟩ Bool ℕ := ⟨0, 0, fun _ => ⟨0, none⟩, fun _ => .outside none, [], []⟩

theorem init_fresh : Init fresh := rfl

/-- One thread puts a 7 into the queue, both try to take it, the other gets it, and the one is about to
give up. -/
def handedOver : List (Bool × Action ℕ) :=
  [(true, .call (.emplace 7)), (true, .run), (true, .run), (true, .run), (true, .run),
    (false, .call .tryPop), (true, .call .tryPop), (true, .run), (false, .run), (false, .run),
    (true, .run), (false, .run), (false, .run), (false, .run), (false, .run), (true, .run), (true, .run)]

def handed : Option (List (State ⟨1, le_rfl⟩ Bool ℕ × Bool × Action ℕ) × State ⟨1, le_rfl⟩ Bool ℕ) :=
  follow act handedOver [] fresh

theorem run_handed : Run Init Step (handed.get rfl).1 (handed.get rfl).2 :=
  (Run.start init_fresh).follow step_of_act (@Option.some_get _ handed rfl).symm

/-! ### The storage -/

/-- **No thread misuses the storage**: what it wants to construct, move or destroy can be constructed,
moved or destroyed, and no two threads are at one slot, in every interleaving. -/
theorem storage_safe {past : List (State cfg ι T × ι × Action T)} (h : Run Init Step past s) :
    (∀ i, exec s i ≠ none) ∧ ∀ i j t u, i ≠ j → (s.pc i).owns = some t → (s.pc j).owns = some u →
      cfg.idx t ≠ cfg.idx u := by
  have hinv := run_inv h
  refine ⟨fun i => ?_, fun i j t u hij ht hu hidx => hij (hinv.apart ht hu hidx)⟩
  have hk := hinv.knows i
  cases hpc : s.pc i with
  | construct v t mode => simp [exec, hpc, hinv.empty_slot hpc]
  | move t mode =>
    obtain ⟨v, hstorage, -⟩ := hinv.full_slot hpc
    simp [exec, hpc, hstorage]
  | destroy v t mode =>
    rw [hpc] at hk
    simp [exec, hpc, hk.2.1]
  | _ => simp [exec, hpc]

theorem storage_safe_handed : (∀ i, exec (handed.get rfl).2 i ≠ none) ∧
    ∀ i j t u, i ≠ j → ((handed.get rfl).2.pc i).owns = some t →
      ((handed.get rfl).2.pc j).owns = some u → Config.idx ⟨1, le_rfl⟩ t ≠ Config.idx ⟨1, le_rfl⟩ u :=
  storage_safe run_handed

/-! ### Where the elements are -/

/-- **What is delivered**: what a consumer returns is what was put in with the same ticket, no ticket is
returned twice, the element of a taken ticket is returned or in the hands of one consumer, and that of
a ticket not yet taken in its slot or in the hands of one producer. No more than `capacity` elements
are in the slots. -/
structure Delivered (s : State cfg ι T) : Prop where
  own : ∀ p ∈ s.popped, s.pushed[p.1]? = some p.2
  once : (s.popped.map Prod.fst).Nodup
  taken : ∀ t, t < s.tail → t ∈ s.popped.map Prod.fst ∨ ∃ i, reader s i = some t ∧
    ∀ j, reader s j = some t → j = i
  kept : ∀ t, s.tail ≤ t → t < s.head → s.storageOf t = s.pushed[t]? ∨ ∃ i, writer s i = some t ∧
    ∀ j, writer s j = some t → j = i
  bounded : ∀ t, Written s t → t < s.tail + cfg.capacity

omit [DecidableEq ι] in
theorem Inv.full_of_written (h : Inv s) {t : ℕ} (htail : s.tail ≤ t) (hw : Written s t) :
    s.turnOf t = cfg.turn t * 2 + 1 ∧ s.storageOf t = s.pushed[t]? := by
  have hc : ¬ Consumed s t := fun hc => absurd (h.consumed_lt t hc) (Nat.not_lt.mpr htail)
  have hturn : s.turnOf t = cfg.turn t * 2 + 1 := by
    rw [Written] at hw
    rw [Consumed] at hc
    omega
  refine ⟨hturn, (h.full t hturn).resolve_right ?_⟩
  rintro ⟨i, hi⟩
  exact absurd (h.readers.out i t (Pc.reads_of_emptied hi)).1 (Nat.not_lt.mpr htail)

omit [DecidableEq ι] in
/-- One turn later the slot is that of the ticket `capacity` further. -/
theorem turnOf_add_capacity (s : State cfg ι T) (t : ℕ) :
    s.turnOf (t + cfg.capacity) = s.turnOf t ∧ cfg.turn (t + cfg.capacity) = cfg.turn t + 1 := by
  have hpos := cfg.pos
  refine ⟨?_, Nat.add_div_right t hpos⟩
  rw [State.turnOf, State.turnOf]
  congr 2
  exact Fin.ext (Nat.add_mod_right t cfg.capacity)

omit [DecidableEq ι] in
theorem Inv.written_bounded (h : Inv s) {t : ℕ} (hw : Written s t) : t < s.tail + cfg.capacity := by
  rcases Nat.lt_or_ge t cfg.capacity with hlt | hge
  · omega
  · obtain ⟨u, rfl⟩ := Nat.exists_eq_add_of_le' hge
    obtain ⟨hsame, hturn⟩ := turnOf_add_capacity s u
    have hc : Consumed s u := by
      rw [Written, hsame, hturn] at hw
      rw [Consumed]
      omega
    have := h.consumed_lt u hc
    omega

/-- **The queue loses and doubles nothing**, in every interleaving of any number of producers and
consumers. -/
theorem run_delivered {past : List (State cfg ι T × ι × Action T)} (h : Run Init Step past s) :
    Delivered s := by
  have hinv := run_inv h
  refine ⟨hinv.popped_value, hinv.popped_once, fun t ht => ?_, fun t htail hhead => ?_,
    fun t hw => hinv.written_bounded hw⟩
  · by_cases hc : Consumed s t
    · exact Or.inl ((hinv.popped_iff t).mpr hc)
    · obtain ⟨i, hi⟩ := hinv.readers.holder t ⟨ht, hc⟩
      exact Or.inr ⟨i, hi, fun j hj => hinv.readers.unique j i t hj hi⟩
  · by_cases hw : Written s t
    · exact Or.inl (hinv.full_of_written htail hw).2
    · obtain ⟨i, hi⟩ := hinv.writers.holder t ⟨hhead, hw⟩
      exact Or.inr ⟨i, hi, fun j hj => hinv.writers.unique j i t hj hi⟩

theorem run_delivered_handed : (handed.get rfl).2.popped = [(0, 7)] ∧ Delivered (handed.get rfl).2 :=
  ⟨rfl, run_delivered run_handed⟩

omit [DecidableEq ι] in
/-- Where the element of every ticket was returned, the elements returned are those put in. -/
theorem Inv.popped_perm (h : Inv s)
    (hall : ∀ t, t < s.pushed.length → t ∈ s.popped.map Prod.fst) :
    (s.popped.map Prod.snd).Perm s.pushed := by
  have htickets : (s.popped.map Prod.fst).Perm (List.range s.pushed.length) := by
    refine (List.perm_ext_iff_of_nodup h.popped_once List.nodup_range).mpr fun t => ?_
    refine ⟨fun ht => List.mem_range.mpr ?_, fun ht => hall t (List.mem_range.mp ht)⟩
    obtain ⟨p, hp, rfl⟩ := List.mem_map.mp ht
    exact (List.getElem?_eq_some_iff.mp (h.popped_value p hp)).1
  have hvalues : (s.popped.map Prod.snd).map some = (s.popped.map Prod.fst).map (s.pushed[·]?) := by
    rw [List.map_map, List.map_map]
    exact List.map_congr_left fun p hp => (h.popped_value p hp).symm
  have hpushed : (List.range s.pushed.length).map (s.pushed[·]?) = s.pushed.map some :=
    List.ext_getElem (by simp) (by simp)
  refine (List.map_perm_map_iff (Option.some_injective T)).mp ?_
  rw [hvalues, ← hpushed]
  exact htickets.map _

/-! ### Calls that only try -/

/-- A property held in some state since the thread made the call that it is in. -/
def During (i : ι) (P : State cfg ι T → Prop) : List (State cfg ι T × ι × Action T) → Prop
  | [] => False
  | p :: past => (p.1.pc i).inside = true ∧ (P p.1 ∨ During i P past)

omit [DecidableEq ι] in
theorem During.imp {i : ι} {P Q : State cfg ι T → Prop} {past : List (State cfg ι T × ι × Action T)}
    (h : During i P past) (himp : ∀ p ∈ past, P p.1 → Q p.1) : During i Q past := by
  induction past with
  | nil => exact h
  | cons p past ih =>
    refine ⟨h.1, h.2.imp (himp p List.mem_cons_self) fun h => ih h fun q hq => ?_⟩
    exact himp q (List.mem_cons_of_mem p hq)

/-- The tickets a thread has loaded are not ahead of the queue's. -/
def Loaded (s : State cfg ι T) : Pc T → Prop
  | .tryEmplaceTurn _ head => head ≤ s.head
  | .tryPopTurn tail => tail ≤ s.tail
  | _ => True

/-- A thread about to give up has found, since its call, the slot of the ticket not at its turn. -/
def Refusing (past : List (State cfg ι T × ι × Action T)) (i : ι) : Pc T → Prop
  | .tryEmplaceAgain _ head =>
    During i (fun u => head ≤ u.head ∧ u.turnOf head ≠ cfg.turn head * 2) past
  | .tryPopAgain tail => During i (fun u => tail ≤ u.tail ∧ u.turnOf tail ≠ cfg.turn tail * 2 + 1) past
  | _ => True

/-- The invariant of the calls that only try. -/
structure Tries (past : List (State cfg ι T × ι × Action T)) (s : State cfg ι T) : Prop where
  grown : ∀ p ∈ past, p.1.head ≤ s.head ∧ p.1.tail ≤ s.tail
  loaded : ∀ i, Loaded s (s.pc i)
  refusing : ∀ i, Refusing past i (s.pc i)

omit [DecidableEq ι] in
theorem Loaded.mono {s s' : State cfg ι T} {pc : Pc T} (h : Loaded s pc) (hhead : s.head ≤ s'.head)
    (htail : s.tail ≤ s'.tail) : Loaded s' pc := by
  cases pc with
  | tryEmplaceTurn v head => exact le_trans h hhead
  | tryPopTurn tail => exact le_trans h htail
  | _ => trivial

omit [DecidableEq ι] in
theorem Refusing.cons {past : List (State cfg ι T × ι × Action T)} {i : ι} {pc : Pc T}
    (h : Refusing past i pc) (p : State cfg ι T × ι × Action T) (hpc : p.1.pc i = pc) :
    Refusing (p :: past) i pc := by
  cases pc with
  | tryEmplaceAgain v head => exact ⟨by rw [hpc]; rfl, Or.inr h⟩
  | tryPopAgain tail => exact ⟨by rw [hpc]; rfl, Or.inr h⟩
  | _ => trivial

/-- What a step of thread `i` does to the counters, to the other threads and to what it tries. -/
structure Moved (a : ι × Action T) (s s' : State cfg ι T) : Prop where
  head : s.head ≤ s'.head
  tail : s.tail ≤ s'.tail
  other : ∀ j, j ≠ a.1 → s'.pc j = s.pc j
  loaded : Loaded s (s.pc a.1) → Loaded s' (s'.pc a.1)
  refusing : Loaded s (s.pc a.1) → ∀ past, Refusing past a.1 (s.pc a.1) →
    Refusing ((s, a) :: past) a.1 (s'.pc a.1)

theorem Moved.goto {i : ι} {x : Action T} {s s'' : State cfg ι T} {pc : Pc T} (hpc : s''.pc = s.pc)
    (hhead : s.head ≤ s''.head) (htail : s.tail ≤ s''.tail) (hloaded : Loaded s'' pc)
    (hrefusing : Loaded s (s.pc i) → ∀ past, Refusing ((s, i, x) :: past) i pc) :
    Moved (i, x) s (s''.goto i pc) where
  head := hhead
  tail := htail
  other j hj := by rw [pc_goto, if_neg hj, hpc]
  loaded _ := by
    rw [pc_goto, if_pos rfl]
    exact hloaded.mono le_rfl le_rfl
  refusing hl past _ := by
    rw [pc_goto, if_pos rfl]
    exact hrefusing hl past

omit [DecidableEq ι] in
theorem Moved.refl {i : ι} {x : Action T} {s : State cfg ι T} : Moved (i, x) s s where
  head := le_rfl
  tail := le_rfl
  other _ _ := rfl
  loaded h := h
  refusing _ _ h := h.cons (s, i, x) rfl

theorem moved_of_exec {i : ι} {s s' : State cfg ι T} (hs : exec s i = some s') :
    Moved (i, .run) s s' := by
  cases hpc : s.pc i with
  | tryEmplaceTurn v head =>
    simp only [exec, hpc, Option.some.injEq] at hs
    split_ifs at hs with hturn <;> subst hs
    · exact .goto rfl le_rfl le_rfl trivial fun _ _ => trivial
    · refine .goto rfl le_rfl le_rfl trivial fun hl _ => ⟨by rw [hpc]; rfl, Or.inl ⟨?_, ?_⟩⟩
      · rw [hpc] at hl
        exact hl
      · exact fun heq => hturn heq.symm
  | tryPopTurn tail =>
    simp only [exec, hpc, Option.some.injEq] at hs
    split_ifs at hs with hturn <;> subst hs
    · exact .goto rfl le_rfl le_rfl trivial fun _ _ => trivial
    · refine .goto rfl le_rfl le_rfl trivial fun hl _ => ⟨by rw [hpc]; rfl, Or.inl ⟨?_, ?_⟩⟩
      · rw [hpc] at hl
        exact hl
      · exact fun heq => hturn heq.symm
  | outside last =>
    simp only [exec, hpc, Option.some.injEq] at hs
    exact hs ▸ .refl
  | emplaceWait v head =>
    simp only [exec, hpc, Option.some.injEq] at hs
    split_ifs at hs <;> subst hs
    · exact .refl
    · exact .goto rfl le_rfl le_rfl trivial fun _ _ => trivial
  | popWait tail =>
    simp only [exec, hpc, Option.some.injEq] at hs
    split_ifs at hs <;> subst hs
    · exact .refl
    · exact .goto rfl le_rfl le_rfl trivial fun _ _ => trivial
  | emplace v | pop =>
    simp only [exec, hpc, Option.some.injEq] at hs
    subst hs
    exact .goto rfl (by simp [State.takeHead, State.takeTail]) (by simp [State.takeHead, State.takeTail])
      trivial fun _ _ => trivial
  | tryEmplace v | tryPop | publish v t mode | release v t mode =>
    simp only [exec, hpc, Option.some.injEq] at hs
    subst hs
    exact .goto rfl le_rfl le_rfl (by first | trivial | exact le_rfl) fun _ _ => trivial
  | tryEmplaceClaim v t | tryEmplaceAgain v t | tryPopClaim t | tryPopAgain t =>
    simp only [exec, hpc, Option.some.injEq] at hs
    split_ifs at hs <;> subst hs
    · exact .goto rfl (by simp [State.takeHead, State.takeTail]) (by simp [State.takeHead, State.takeTail])
        trivial fun _ _ => trivial
    · exact .goto rfl le_rfl le_rfl le_rfl fun _ _ => trivial
  | construct v t mode | move t mode | destroy v t mode =>
    simp only [exec, hpc] at hs
    split at hs <;> cases hs
    exact .goto rfl le_rfl le_rfl trivial fun _ _ => trivial

theorem moved_of_step {a : ι × Action T} {s s' : State cfg ι T} (hs : Step a s s') : Moved a s s' := by
  obtain ⟨i, c | _⟩ := a
  · obtain ⟨-, rfl⟩ := hs
    cases c <;> exact .goto rfl le_rfl le_rfl trivial fun _ _ => trivial
  · exact moved_of_exec hs.2

theorem run_tries {past : List (State cfg ι T × ι × Action T)} (h : Run Init Step past s) :
    Tries past s := by
  induction h with
  | start h =>
    subst h
    exact ⟨(fun p hp => by cases hp), fun i => trivial, fun i => trivial⟩
  | @step past s s' a h hs ih =>
    have hmoved := moved_of_step hs
    refine ⟨fun p hp => ?_, fun j => ?_, fun j => ?_⟩
    · rcases List.mem_cons.mp hp with rfl | hp
      · exact ⟨hmoved.head, hmoved.tail⟩
      · exact ⟨le_trans (ih.grown p hp).1 hmoved.head, le_trans (ih.grown p hp).2 hmoved.tail⟩
    · by_cases hj : j = a.1
      · rw [hj]
        exact hmoved.loaded (ih.loaded _)
      · rw [hmoved.other j hj]
        exact (ih.loaded j).mono hmoved.head hmoved.tail
    · by_cases hj : j = a.1
      · rw [hj]
        exact hmoved.refusing (ih.loaded _) past (ih.refusing _)
      · rw [hmoved.other j hj]
        exact (ih.refusing j).cons (s, a) rfl

/-- What refuses a call that only tries: for a consumer the queue is empty or the producer of its first
element is still in its call; for a producer it is full or there is an element a turn before its ticket, the
consumer of which is still in its call. -/
def Refuses (u : State cfg ι T) : Return T → Prop
  | .tryPop none => u.head ≤ u.tail ∨ ∃ j, writer u j = some u.tail
  | .tryEmplace false =>
    u.tail + cfg.capacity ≤ u.head ∨
      cfg.capacity ≤ u.head ∧ ∃ j, reader u j = some (u.head - cfg.capacity)
  | _ => True

omit [DecidableEq ι] in
theorem Inv.refuses_pop {u : State cfg ι T} (h : Inv u)
    (hturn : u.turnOf u.tail ≠ cfg.turn u.tail * 2 + 1) : Refuses u (.tryPop none) := by
  have hc : ¬ Consumed u u.tail := fun hc => lt_irrefl _ (h.consumed_lt _ hc)
  have hw : ¬ Written u u.tail := by
    rw [Consumed] at hc
    rw [Written]
    omega
  rcases Nat.lt_or_ge u.tail u.head with hlt | hge
  · exact Or.inr (h.writers.holder _ ⟨hlt, hw⟩)
  · exact Or.inl hge

omit [DecidableEq ι] in
theorem Inv.refuses_emplace {u : State cfg ι T} (h : Inv u)
    (hturn : u.turnOf u.head ≠ cfg.turn u.head * 2) : Refuses u (.tryEmplace false) := by
  have hw : ¬ Written u u.head := fun hw => lt_irrefl _ (h.written_lt _ hw)
  rw [Written] at hw
  rcases Nat.lt_or_ge u.head cfg.capacity with hlt | hge
  · have hzero : cfg.turn u.head = 0 := Nat.div_eq_of_lt hlt
    omega
  · obtain ⟨t, ht⟩ := Nat.exists_eq_add_of_le' hge
    obtain ⟨hsame, hnext⟩ := turnOf_add_capacity u t
    rw [← ht] at hsame hnext
    have hc : ¬ Consumed u t := by
      rw [Consumed]
      omega
    rcases Nat.lt_or_ge t u.tail with htail | htail
    · obtain ⟨j, hj⟩ := h.readers.holder t ⟨htail, hc⟩
      exact Or.inr ⟨hge, j, by rw [hj, ht, Nat.add_sub_cancel]⟩
    · exact Or.inl (by omega)

/-- Where a refusal is returned. -/
theorem refused_cases {i : ι} {s s' : State cfg ι T} (hs : Step (i, .run) s s') {r : Return T}
    (hr : r = .tryPop none ∨ r = .tryEmplace false) (hret : s'.pc i = .outside (some r)) :
    (r = .tryPop none ∧ s.pc i = .tryPopAgain s.tail) ∨
      (r = .tryEmplace false ∧ ∃ v, s.pc i = .tryEmplaceAgain v s.head) := by
  obtain ⟨hin, hs⟩ := hs
  cases hpc : s.pc i with
  | outside last => simp [hpc, Pc.inside] at hin
  | tryPopAgain t =>
    simp only [exec, hpc, Option.some.injEq] at hs
    split_ifs at hs with htail <;> subst hs <;> rw [pc_goto, if_pos rfl] at hret <;> cases hret
    exact Or.inl ⟨rfl, by rw [htail]⟩
  | tryEmplaceAgain v t =>
    simp only [exec, hpc, Option.some.injEq] at hs
    split_ifs at hs with hhead <;> subst hs <;> rw [pc_goto, if_pos rfl] at hret <;> cases hret
    exact Or.inr ⟨rfl, v, by rw [hhead]⟩
  | publish v t mode | release v t mode =>
    simp only [exec, hpc, Option.some.injEq] at hs
    subst hs
    rw [pc_goto, if_pos rfl] at hret
    cases mode <;> rcases hr with rfl | rfl <;> cases hret
  | construct v t mode | move t mode | destroy v t mode =>
    simp only [exec, hpc] at hs
    split at hs <;> cases hs
    rw [pc_goto, if_pos rfl] at hret
    cases hret
  | emplaceWait v t | popWait t =>
    simp only [exec, hpc, Option.some.injEq] at hs
    split_ifs at hs <;> subst hs
    · rw [hpc] at hret
      cases hret
    · rw [pc_goto, if_pos rfl] at hret
      cases hret
  | emplace v | tryEmplace v | pop | tryPop =>
    simp only [exec, hpc, Option.some.injEq] at hs
    subst hs
    rw [pc_goto, if_pos rfl] at hret
    cases hret
  | tryEmplaceTurn v t | tryEmplaceClaim v t | tryPopTurn t | tryPopClaim t =>
    simp only [exec, hpc, Option.some.injEq] at hs
    split_ifs at hs <;> subst hs <;> rw [pc_goto, if_pos rfl] at hret <;> cases hret

/-- **A call that only tries is refused with reason**: some state since the call was made refuses it. -/
theorem refused {past : List (State cfg ι T × ι × Action T)} {s' : State cfg ι T} {i : ι}
    (h : Run Init Step past s) (hs : Step (i, .run) s s') {r : Return T}
    (hr : r = .tryPop none ∨ r = .tryEmplace false) (hret : s'.pc i = .outside (some r)) :
    During i (fun u => Refuses u r) past := by
  have htries := run_tries h
  have hinv := (h.invariant Inv (fun _ _ => True) (fun _ => init_inv)
    (fun a s s' hi _ hs => step_inv a s s' hi hs) fun _ _ => trivial).2
  have hrefusing := htries.refusing i
  rcases refused_cases hs hr hret with ⟨rfl, hpc⟩ | ⟨rfl, v, hpc⟩
  · rw [hpc] at hrefusing
    refine hrefusing.imp fun p hp hu => ?_
    have heq : s.tail = p.1.tail := le_antisymm hu.1 (htries.grown p hp).2
    rw [heq] at hu
    exact (hinv p hp).refuses_pop hu.2
  · rw [hpc] at hrefusing
    refine hrefusing.imp fun p hp hu => ?_
    have heq : s.head = p.1.head := le_antisymm hu.1 (htries.grown p hp).1
    rw [heq] at hu
    exact (hinv p hp).refuses_emplace hu.2

theorem refused_handed : During true (fun u => Refuses u (.tryPop none)) (handed.get rfl).1 :=
  refused run_handed (step_of_act _ (true, .run) ((act (handed.get rfl).2 (true, .run)).get rfl) rfl)
    (Or.inl rfl) rfl

/-! ### Producers and consumers -/

/-- A thread that puts an element in. -/
def Pc.produces : Pc T → Bool
  | .emplace _ | .emplaceWait _ _ | .tryEmplace _ | .tryEmplaceTurn _ _ | .tryEmplaceClaim _ _ => true
  | .tryEmplaceAgain _ _ | .construct _ _ _ | .publish _ _ _ => true
  | _ => false

/-- A thread that tries to take an element out. -/
def Pc.tries : Pc T → Bool
  | .tryPop | .tryPopTurn _ | .tryPopClaim _ | .tryPopAgain _ | .move _ _ | .destroy _ _ _ => true
  | .release _ _ _ => true
  | _ => false

theorem Pc.reads_of_produces {pc : Pc T} (h : pc.produces = true) : pc.reads = none := by
  cases pc <;> first | rfl | cases h

/-- **A producer in its call** takes no ticket of the consumers. -/
theorem exec_produces {i : ι} {s s' : State cfg ι T} (hs : exec s i = some s')
    (hp : (s.pc i).produces = true) :
    s'.tail = s.tail ∧ ((s'.pc i).inside = true → (s'.pc i).produces = true) := by
  cases hpc : s.pc i with
  | emplace v | tryEmplace v | publish v t mode =>
    simp only [exec, hpc, Option.some.injEq] at hs
    subst hs
    rw [pc_goto, if_pos rfl]
    exact ⟨rfl, fun h => by first | rfl | cases h⟩
  | emplaceWait v t =>
    simp only [exec, hpc, Option.some.injEq] at hs
    split_ifs at hs <;> subst hs
    · exact ⟨rfl, fun _ => hp⟩
    · rw [pc_goto, if_pos rfl]
      exact ⟨rfl, fun _ => rfl⟩
  | tryEmplaceTurn v t | tryEmplaceClaim v t | tryEmplaceAgain v t =>
    simp only [exec, hpc, Option.some.injEq] at hs
    split_ifs at hs <;> subst hs <;> rw [pc_goto, if_pos rfl] <;>
      exact ⟨rfl, fun h => by first | rfl | cases h⟩
  | construct v t mode =>
    simp only [exec, hpc] at hs
    split at hs <;> cases hs
    rw [pc_goto, if_pos rfl]
    exact ⟨rfl, fun _ => rfl⟩
  | _ => simp [hpc, Pc.produces] at hp

/-- **A consumer that only tries** puts nothing in, and takes the ticket of an element that is in its
slot only. -/
theorem exec_tries {i : ι} {s s' : State cfg ι T} (hs : exec s i = some s') (h : Inv s)
    (hp : (s.pc i).tries = true) (hle : s.tail ≤ s.head) :
    s'.head = s.head ∧ s'.pushed = s.pushed ∧ s'.tail ≤ s'.head ∧
      ((s'.pc i).inside = true → (s'.pc i).tries = true) := by
  cases hpc : s.pc i with
  | tryPop | release v t mode =>
    simp only [exec, hpc, Option.some.injEq] at hs
    subst hs
    rw [pc_goto, if_pos rfl]
    exact ⟨rfl, rfl, hle, fun h => by first | rfl | cases h⟩
  | tryPopTurn t | tryPopAgain t =>
    simp only [exec, hpc, Option.some.injEq] at hs
    split_ifs at hs <;> subst hs <;> rw [pc_goto, if_pos rfl] <;>
      exact ⟨rfl, rfl, hle, fun h => by first | rfl | cases h⟩
  | tryPopClaim t =>
    simp only [exec, hpc, Option.some.injEq] at hs
    split_ifs at hs with htail <;> subst hs <;> rw [pc_goto, if_pos rfl]
    · have hk : cfg.turn t * 2 + 1 ≤ s.turnOf t := by simpa only [hpc, Knows] using h.knows i
      have hlt : t < s.head := h.written_lt t (by rw [Written]; omega)
      exact ⟨rfl, rfl, by rw [goto_head, goto_tail, State.takeTail, htail]; exact hlt, fun _ => rfl⟩
    · exact ⟨rfl, rfl, hle, fun _ => rfl⟩
  | move t mode | destroy v t mode =>
    simp only [exec, hpc] at hs
    split at hs <;> cases hs
    rw [pc_goto, if_pos rfl]
    exact ⟨rfl, rfl, hle, fun _ => rfl⟩
  | _ => simp [hpc, Pc.tries] at hp

/-! ### A thread alone -/

/-- What a call does to a list of at most `capacity` elements, and whether it returns at all. -/
def bounded (capacity : ℕ) : Call T → List T → Option (Return T × List T)
  | .emplace v, q => if q.length < capacity then some (.emplace, q ++ [v]) else none
  | .tryEmplace v, q =>
    if q.length < capacity then some (.tryEmplace true, q ++ [v]) else some (.tryEmplace false, q)
  | .pop, [] => none
  | .pop, v :: q => some (.pop v, q)
  | .tryPop, [] => some (.tryPop none, [])
  | .tryPop, v :: q => some (.tryPop (some v), q)

def contents (s : State cfg ι T) : List T := s.pushed.drop s.tail

def Quiet (s : State cfg ι T) : Prop := ∀ i, (s.pc i).inside = false

/-- the steps of one thread, while the others do nothing -/
def alone (i : ι) : ℕ → State cfg ι T → Option (State cfg ι T)
  | 0, s => some s
  | n + 1, s => (exec s i).bind (alone i n)

omit [DecidableEq ι] in
theorem Pc.holds_none {pc : Pc T} (h : pc.inside = false) : pc.writes = none ∧ pc.reads = none := by
  cases pc <;> cases h
  exact ⟨rfl, rfl⟩

section quiet

omit [DecidableEq ι]

theorem Inv.quiet_written (h : Inv s) (hq : Quiet s) (t : ℕ) : Written s t ↔ t < s.head := by
  refine ⟨h.written_lt t, fun hlt => ?_⟩
  by_contra hw
  obtain ⟨i, hi⟩ := h.writers.holder t ⟨hlt, hw⟩
  rw [writer, (Pc.holds_none (hq i)).1] at hi
  cases hi

theorem Inv.quiet_consumed (h : Inv s) (hq : Quiet s) (t : ℕ) : Consumed s t ↔ t < s.tail := by
  refine ⟨h.consumed_lt t, fun hlt => ?_⟩
  by_contra hc
  obtain ⟨i, hi⟩ := h.readers.holder t ⟨hlt, hc⟩
  rw [reader, (Pc.holds_none (hq i)).2] at hi
  cases hi

theorem Inv.quiet_le (h : Inv s) (hq : Quiet s) : s.tail ≤ s.head ∧ s.head ≤ s.tail + cfg.capacity := by
  constructor
  · by_contra hlt
    have hc := (h.quiet_consumed hq s.head).mpr (by omega)
    have hw : Written s s.head := by
      rw [Consumed] at hc
      rw [Written]
      omega
    exact lt_irrefl _ (h.written_lt _ hw)
  · rcases Nat.eq_zero_or_pos s.head with h0 | hpos
    · omega
    · have := h.written_bounded ((h.quiet_written hq (s.head - 1)).mpr (by omega))
      omega

theorem Inv.length_contents (h : Inv s) : (contents s).length = s.head - s.tail := by
  rw [contents, List.length_drop, h.length]

/-- The slot of the next producer is free exactly if there is room. -/
theorem Inv.head_turn_iff (h : Inv s) (hq : Quiet s) :
    s.turnOf s.head = cfg.turn s.head * 2 ↔ (contents s).length < cfg.capacity := by
  have hle := h.quiet_le hq
  have hfresh : ¬ Written s s.head := fun hw => lt_irrefl _ (h.written_lt _ hw)
  rw [Written] at hfresh
  rw [h.length_contents]
  rcases Nat.lt_or_ge s.head cfg.capacity with hlt | hge
  · have hturn : cfg.turn s.head = 0 := Nat.div_eq_of_lt hlt
    rw [hturn] at hfresh ⊢
    omega
  · obtain ⟨u, hu⟩ := Nat.exists_eq_add_of_le' hge
    obtain ⟨hsame, hturn⟩ := turnOf_add_capacity s u
    rw [← hu] at hsame hturn
    have hc := h.quiet_consumed hq u
    rw [Consumed] at hc
    omega

/-- The slot of the next consumer holds an element exactly if there is one. -/
theorem Inv.tail_turn_iff (h : Inv s) (hq : Quiet s) :
    s.turnOf s.tail = cfg.turn s.tail * 2 + 1 ↔ contents s ≠ [] := by
  have hle := h.quiet_le hq
  have hw := h.quiet_written hq s.tail
  have hc := h.quiet_consumed hq s.tail
  rw [Written] at hw
  rw [Consumed] at hc
  rw [← List.length_pos_iff, h.length_contents]
  omega

end quiet

section execution

variable {i : ι} {p q : Pc T}

@[simp] theorem goto_goto : (s.goto i p).goto i q = s.goto i q := by
  rw [State.goto, State.goto, State.goto]
  simp only [Function.update_idem]

@[simp] theorem takeHead_goto (v : T) : (s.goto i p).takeHead v = (s.takeHead v).goto i p := rfl

@[simp] theorem takeTail_goto : (s.goto i p).takeTail = s.takeTail.goto i p := rfl

@[simp] theorem setStorage_goto (j : Fin cfg.capacity) (o : Option T) :
    (s.goto i p).setStorage j o = (s.setStorage j o).goto i p := rfl

@[simp] theorem setTurn_goto (j : Fin cfg.capacity) (n : ℕ) :
    (s.goto i p).setTurn j n = (s.setTurn j n).goto i p := rfl

@[simp] theorem addPopped_goto (t : ℕ) (v : T) :
    (s.goto i p).addPopped t v = (s.addPopped t v).goto i p := rfl

theorem alone_step {s' : State cfg ι T} (h : exec s i = some s') (n : ℕ) :
    alone i (n + 1) s = alone i n s' := by
  rw [alone, h, Option.bind_some]

theorem alone_of_fixed (h : exec s i = some s) (n : ℕ) : alone i n s = some s := by
  induction n with
  | zero => rfl
  | succ n ih => rw [alone_step h, ih]

/-- A producer whose turn it is gives the slot on with its element. -/
theorem Inv.alone_construct (h : Inv s) {v : T} {t : ℕ} {mode : Mode}
    (hpc : s.pc i = .construct v t mode) :
    alone i 2 s = some (((s.setStorage (cfg.idx t) (some v)).setTurn (cfg.idx t)
      (cfg.turn t * 2 + 1)).goto i (.outside (some mode.emplaced))) := by
  have hconstruct : exec s i =
      some ((s.setStorage (cfg.idx t) (some v)).goto i (.publish v t mode)) := by
    simp only [exec, hpc, h.empty_slot hpc]
  have hpublish : exec ((s.setStorage (cfg.idx t) (some v)).goto i (.publish v t mode)) i =
      some (((s.setStorage (cfg.idx t) (some v)).setTurn (cfg.idx t)
        (cfg.turn t * 2 + 1)).goto i (.outside (some mode.emplaced))) := by
    simp only [exec, pc_goto, if_true, setTurn_goto, goto_goto]
  rw [alone_step hconstruct, alone_step hpublish, alone]

/-- A consumer whose turn it is gives the slot on without the element. -/
theorem Inv.alone_move (h : Inv s) {t : ℕ} {mode : Mode} (hpc : s.pc i = .move t mode) :
    ∃ v, s.pushed[t]? = some v ∧
      alone i 3 s = some ((((s.setStorage (cfg.idx t) none).setTurn (cfg.idx t)
        (cfg.turn t * 2 + 2)).addPopped t v).goto i (.outside (some (mode.popped v)))) := by
  obtain ⟨v, hstorage, hvalue⟩ := h.full_slot hpc
  have hmove : exec s i = some (s.goto i (.destroy v t mode)) := by
    simp only [exec, hpc, hstorage]
  have hdestroy : exec (s.goto i (.destroy v t mode)) i =
      some ((s.setStorage (cfg.idx t) none).goto i (.release v t mode)) := by
    simp only [exec, pc_goto, if_true, storageOf_goto, hstorage, setStorage_goto, goto_goto]
  have hrelease : exec ((s.setStorage (cfg.idx t) none).goto i (.release v t mode)) i =
      some ((((s.setStorage (cfg.idx t) none).setTurn (cfg.idx t)
        (cfg.turn t * 2 + 2)).addPopped t v).goto i (.outside (some (mode.popped v)))) := by
    simp only [exec, pc_goto, if_true, setTurn_goto, addPopped_goto, goto_goto]
  exact ⟨v, hvalue, by rw [alone_step hmove, alone_step hdestroy, alone_step hrelease, alone]⟩

theorem Quiet.goto (hq : Quiet s) {s' : State cfg ι T} (hpc : s'.pc = s.pc) (last : Option (Return T)) :
    Quiet (s'.goto i (.outside last)) := fun k => by
  rw [pc_goto, hpc]
  split_ifs
  · rfl
  · exact hq k

end execution

/-- **A call of a thread that is alone** comes to what it does to a list, or waits for ever. -/
def Acts (s : State cfg ι T) (i : ι) (c : Call T) : Option (Return T × List T) → Prop
  | some (r, q) => ∃ n s', alone i n (s.goto i c.entry) = some s' ∧ Quiet s' ∧
      s'.pc i = .outside (some r) ∧ contents s' = q
  | none => ∀ n, ∃ s', alone i n (s.goto i c.entry) = some s' ∧ (s'.pc i).inside = true

section calls

variable {i : ι}

/-- With room in the queue the producer that has taken the ticket puts its element at the end. -/
theorem Inv.emplaced (h : Inv s) (hq : Quiet s) (hroom : (contents s).length < cfg.capacity) (v : T)
    (mode : Mode) :
    ∃ s', alone i 2 ((s.takeHead v).goto i (.construct v s.head mode)) = some s' ∧ Quiet s' ∧
      s'.pc i = .outside (some mode.emplaced) ∧ contents s' = contents s ++ [v] := by
  have hclaimed : Inv ((s.takeHead v).goto i (.construct v s.head mode)) :=
    h.takeHead rfl (Pc.holds_none (hq i)).1 (Pc.holds_none (hq i)).2 rfl rfl
      ((h.head_turn_iff hq).mpr hroom)
  refine ⟨_, hclaimed.alone_construct (by rw [pc_goto, if_pos rfl]), ?_, ?_, ?_⟩
  · rw [setStorage_goto, setTurn_goto, goto_goto]
    exact hq.goto rfl _
  · rw [pc_goto, if_pos rfl]
  · exact List.drop_append_of_le_length (by rw [h.length]; exact (h.quiet_le hq).1)

/-- With an element in the queue the consumer that has taken the ticket returns the first. -/
theorem Inv.taken (h : Inv s) (hq : Quiet s) {v : T} {q : List T} (hcontents : contents s = v :: q)
    (mode : Mode) :
    ∃ s', alone i 3 (s.takeTail.goto i (.move s.tail mode)) = some s' ∧ Quiet s' ∧
      s'.pc i = .outside (some (mode.popped v)) ∧ contents s' = q := by
  have hclaimed : Inv (s.takeTail.goto i (.move s.tail mode)) :=
    h.takeTail rfl (Pc.holds_none (hq i)).1 (Pc.holds_none (hq i)).2 rfl rfl
      ((h.tail_turn_iff hq).mpr (by rw [hcontents]; exact List.cons_ne_nil v q))
  obtain ⟨w, hw, hrun⟩ := hclaimed.alone_move (by rw [pc_goto, if_pos rfl])
  have hfirst : s.pushed[s.tail]? = some v := by
    rw [← List.head?_drop]
    exact congrArg List.head? hcontents
  obtain rfl : w = v := Option.some.inj (hw.symm.trans hfirst)
  refine ⟨_, hrun, ?_, ?_, ?_⟩
  · rw [setStorage_goto, setTurn_goto, addPopped_goto, goto_goto]
    exact hq.goto rfl _
  · rw [pc_goto, if_pos rfl]
  · change s.pushed.drop (s.tail + 1) = q
    rw [← List.tail_drop]
    exact congrArg List.tail hcontents

theorem acts_emplace (h : Inv s) (hq : Quiet s) (v : T) :
    Acts s i (.emplace v) (bounded cfg.capacity (.emplace v) (contents s)) := by
  have hturn := h.head_turn_iff hq
  have hstart : exec (s.goto i (.emplace v)) i =
      some ((s.takeHead v).goto i (.emplaceWait v s.head)) := by
    simp only [exec, pc_goto, if_true, takeHead_goto, goto_goto, goto_head]
  have hsame : ((s.takeHead v).goto i (.emplaceWait v s.head)).turnOf s.head = s.turnOf s.head := rfl
  rw [bounded]
  split_ifs with hroom
  · obtain ⟨s', hrun, hrest⟩ := h.emplaced (i := i) hq hroom v .waiting
    have hwait : exec ((s.takeHead v).goto i (.emplaceWait v s.head)) i =
        some ((s.takeHead v).goto i (.construct v s.head .waiting)) := by
      simp only [exec, pc_goto, if_true, hsame, hturn.mpr hroom, ne_eq, not_true_eq_false, if_false,
        goto_goto]
    exact ⟨4, s', by rw [Call.entry, alone_step hstart, alone_step hwait, hrun], hrest⟩
  · have hne : cfg.turn s.head * 2 ≠ s.turnOf s.head := fun heq => hroom (hturn.mp heq.symm)
    have hfixed : exec ((s.takeHead v).goto i (.emplaceWait v s.head)) i =
        some ((s.takeHead v).goto i (.emplaceWait v s.head)) := by
      simp only [exec, pc_goto, if_true, hsame, ne_eq, hne, not_false_eq_true]
    intro n
    cases n with
    | zero => exact ⟨_, rfl, by rw [pc_goto, if_pos rfl]; rfl⟩
    | succ n =>
      exact ⟨_, by rw [Call.entry, alone_step hstart, alone_of_fixed hfixed],
        by rw [pc_goto, if_pos rfl]; rfl⟩

theorem acts_tryEmplace (h : Inv s) (hq : Quiet s) (v : T) :
    Acts s i (.tryEmplace v) (bounded cfg.capacity (.tryEmplace v) (contents s)) := by
  have hturn := h.head_turn_iff hq
  have hstart : exec (s.goto i (.tryEmplace v)) i = some (s.goto i (.tryEmplaceTurn v s.head)) := by
    simp only [exec, pc_goto, if_true, goto_goto, goto_head]
  rw [bounded]
  split_ifs with hroom
  · obtain ⟨s', hrun, hrest⟩ := h.emplaced (i := i) hq hroom v .trying
    have hcheck : exec (s.goto i (.tryEmplaceTurn v s.head)) i =
        some (s.goto i (.tryEmplaceClaim v s.head)) := by
      simp only [exec, pc_goto, if_true, turnOf_goto, hturn.mpr hroom, goto_goto]
    have hclaim : exec (s.goto i (.tryEmplaceClaim v s.head)) i =
        some ((s.takeHead v).goto i (.construct v s.head .trying)) := by
      simp only [exec, pc_goto, if_true, goto_head, takeHead_goto, goto_goto]
    exact ⟨5, s', by rw [Call.entry, alone_step hstart, alone_step hcheck, alone_step hclaim, hrun],
      hrest⟩
  · have hne : ¬ cfg.turn s.head * 2 = s.turnOf s.head := fun heq => hroom (hturn.mp heq.symm)
    have hcheck : exec (s.goto i (.tryEmplaceTurn v s.head)) i =
        some (s.goto i (.tryEmplaceAgain v s.head)) := by
      simp only [exec, pc_goto, if_true, turnOf_goto, if_neg hne, goto_goto]
    have hagain : exec (s.goto i (.tryEmplaceAgain v s.head)) i =
        some (s.goto i (.outside (some (.tryEmplace false)))) := by
      simp only [exec, pc_goto, if_true, goto_head, goto_goto]
    exact ⟨3, _, by rw [Call.entry, alone_step hstart, alone_step hcheck, alone_step hagain, alone],
      hq.goto rfl _, by rw [pc_goto, if_pos rfl], rfl⟩

theorem acts_pop (h : Inv s) (hq : Quiet s) :
    Acts s i .pop (bounded cfg.capacity .pop (contents s)) := by
  have hturn := h.tail_turn_iff hq
  have hstart : exec (s.goto i .pop) i = some (s.takeTail.goto i (.popWait s.tail)) := by
    simp only [exec, pc_goto, if_true, takeTail_goto, goto_goto, goto_tail]
  have hsame : (s.takeTail.goto i (.popWait s.tail)).turnOf s.tail = s.turnOf s.tail := rfl
  cases hcontents : contents s with
  | nil =>
    have hne : cfg.turn s.tail * 2 + 1 ≠ s.turnOf s.tail :=
      fun heq => hturn.mp heq.symm hcontents
    have hfixed : exec (s.takeTail.goto i (.popWait s.tail)) i =
        some (s.takeTail.goto i (.popWait s.tail)) := by
      simp only [exec, pc_goto, if_true, hsame, ne_eq, hne, not_false_eq_true]
    intro n
    cases n with
    | zero => exact ⟨_, rfl, by rw [pc_goto, if_pos rfl]; rfl⟩
    | succ n =>
      exact ⟨_, by rw [Call.entry, alone_step hstart, alone_of_fixed hfixed],
        by rw [pc_goto, if_pos rfl]; rfl⟩
  | cons v q =>
    obtain ⟨s', hrun, hrest⟩ := h.taken (i := i) hq hcontents .waiting
    have heq : s.turnOf s.tail = cfg.turn s.tail * 2 + 1 :=
      hturn.mpr (by rw [hcontents]; exact List.cons_ne_nil v q)
    have hwait : exec (s.takeTail.goto i (.popWait s.tail)) i =
        some (s.takeTail.goto i (.move s.tail .waiting)) := by
      simp only [exec, pc_goto, if_true, hsame, heq, ne_eq, not_true_eq_false, if_false, goto_goto]
    exact ⟨5, s', by rw [Call.entry, alone_step hstart, alone_step hwait, hrun], hrest⟩

theorem acts_tryPop (h : Inv s) (hq : Quiet s) :
    Acts s i .tryPop (bounded cfg.capacity .tryPop (contents s)) := by
  have hturn := h.tail_turn_iff hq
  have hstart : exec (s.goto i .tryPop) i = some (s.goto i (.tryPopTurn s.tail)) := by
    simp only [exec, pc_goto, if_true, goto_goto, goto_tail]
  cases hcontents : contents s with
  | nil =>
    have hne : ¬ cfg.turn s.tail * 2 + 1 = s.turnOf s.tail :=
      fun heq => hturn.mp heq.symm hcontents
    have hcheck : exec (s.goto i (.tryPopTurn s.tail)) i = some (s.goto i (.tryPopAgain s.tail)) := by
      simp only [exec, pc_goto, if_true, turnOf_goto, if_neg hne, goto_goto]
    have hagain : exec (s.goto i (.tryPopAgain s.tail)) i =
        some (s.goto i (.outside (some (.tryPop none)))) := by
      simp only [exec, pc_goto, if_true, goto_tail, goto_goto]
    exact ⟨3, _, by rw [Call.entry, alone_step hstart, alone_step hcheck, alone_step hagain, alone],
      hq.goto rfl _, by rw [pc_goto, if_pos rfl], hcontents⟩
  | cons v q =>
    obtain ⟨s', hrun, hrest⟩ := h.taken (i := i) hq hcontents .trying
    have heq : s.turnOf s.tail = cfg.turn s.tail * 2 + 1 :=
      hturn.mpr (by rw [hcontents]; exact List.cons_ne_nil v q)
    have hcheck : exec (s.goto i (.tryPopTurn s.tail)) i = some (s.goto i (.tryPopClaim s.tail)) := by
      simp only [exec, pc_goto, if_true, turnOf_goto, heq, goto_goto]
    have hclaim : exec (s.goto i (.tryPopClaim s.tail)) i =
        some (s.takeTail.goto i (.move s.tail .trying)) := by
      simp only [exec, pc_goto, if_true, goto_tail, takeTail_goto, goto_goto]
    exact ⟨6, s', by rw [Call.entry, alone_step hstart, alone_step hcheck, alone_step hclaim, hrun],
      hrest⟩

end calls

/-- **A call that runs alone does what it does to a bounded list**, in every state that a run has left
with all threads outside: it returns the same and leaves the same elements, or it waits for ever where
the list has no room or no element. -/
theorem alone_bounded {past : List (State cfg ι T × ι × Action T)} (h : Run Init Step past s)
    (hq : Quiet s) (i : ι) (c : Call T) : Acts s i c (bounded cfg.capacity c (contents s)) := by
  cases c with
  | emplace v => exact acts_emplace (run_inv h) hq v
  | tryEmplace v => exact acts_tryEmplace (run_inv h) hq v
  | pop => exact acts_pop (run_inv h) hq
  | tryPop => exact acts_tryPop (run_inv h) hq

theorem alone_bounded_handed :
    Acts ((act (handed.get rfl).2 (true, .run)).get rfl) true (.tryEmplace 8)
      (some (.tryEmplace true, [8])) := by
  refine alone_bounded (run_handed.step (step_of_act _ (true, .run) _ rfl)) (fun i => ?_) true _
  cases i <;> rfl

end Joda.Concurrency.MPMCQueue
