import Joda.Pipeline.IOQueue

/-! # What the consumers of a queue can rely on

A consumer that has found the queue finished has missed nothing: every element is in the hands of the
consumers and none will come. The counter of the producers reaches 0 when the last clone of the last
producer has finished, and not before. -/

namespace Joda.Pipeline.IOQueue

open Joda.Lib.Custody Joda.Lib.Runs Joda.Pipeline.Executor
open Joda.Concurrency

variable {cfg : Config} {T : Type}

/-! ### A run -/

/-- A step as a computation. -/
def act (s : State cfg T) : Action T → Option (State cfg T)
  | .main => mainStep s
  | .queue i a =>
    if s.started = true ∧ s.phase i = .running ∧ i.1.role.allows a = true then
      (MPMCQueue.act s.queue (i, a)).map fun q => { s with queue := q }
    else none
  | .finish i =>
    if s.started = true ∧ s.phase i = .running ∧ i.1.role ≠ .consumer ∧
        (s.queue.pc i).inside = false then
      some ((s.unregisterProducer i.1.role).setPhase i .done)
    else none
  | .loadProducers i =>
    if s.started = true ∧ s.phase i = .running ∧ i.1.role = .consumer ∧
        (s.queue.pc i).inside = false then
      some (s.setPhase i (if s.producers = 0 then .noProducers else .running))
    else none
  | .loadHead i =>
    if i.1.role = .consumer then
      match s.phase i with
      | .noProducers => some (s.setPhase i (.loadedHead s.queue.head))
      | .loadedTail tail => some (s.setPhase i (.ofSize s.queue.head tail))
      | _ => none
    else none
  | .loadTail i =>
    if i.1.role = .consumer then
      match s.phase i with
      | .noProducers => some (s.setPhase i (.loadedTail s.queue.tail))
      | .loadedHead head => some (s.setPhase i (.ofSize head s.queue.tail))
      | _ => none
    else none

theorem step_of_act (s : State cfg T) (a : Action T) (s' : State cfg T) (h : act s a = some s') :
    Step a s s' := by
  cases a with
  | main => exact .main h
  | queue i a =>
    simp only [act, Option.ite_none_right_eq_some, Option.map_eq_some_iff] at h
    obtain ⟨⟨hs, hi, ha⟩, q, hq, rfl⟩ := h
    exact .queue hs hi ha (MPMCQueue.step_of_act _ _ _ hq)
  | finish i =>
    simp only [act, Option.ite_none_right_eq_some, Option.some.injEq] at h
    obtain ⟨⟨hs, hi, hrole, hout⟩, rfl⟩ := h
    exact .finish hs hi hrole hout
  | loadProducers i =>
    simp only [act, Option.ite_none_right_eq_some, Option.some.injEq] at h
    obtain ⟨⟨hs, hi, hrole, hout⟩, rfl⟩ := h
    exact .loadProducers hs hi hrole hout
  | loadHead i =>
    simp only [act, Option.ite_none_right_eq_some] at h
    obtain ⟨hrole, h⟩ := h
    cases hi : s.phase i <;> rw [hi] at h <;> cases h
    · exact .loadHead hrole hi
    · exact .sizeHead hrole hi
  | loadTail i =>
    simp only [act, Option.ite_none_right_eq_some] at h
    obtain ⟨hrole, h⟩ := h
    cases hi : s.phase i <;> rw [hi] at h <;> cases h
    · exact .loadTail hrole hi
    · exact .sizeTail hrole hi

def source : Task := ⟨1, .multiThreaded, .producer⟩

def sink : Task := ⟨2, .synchronous, .consumer⟩

theorem nodup_pair : [source, sink].Nodup := by decide

/-- One thread and one task on either side of the queue. -/
def pair : Config := ⟨1, [source, sink], nodup_pair, ⟨1, Nat.le_refl 1⟩⟩

def planned : State pair ℕ :=
  ⟨⟨0, 0, fun _ => ⟨0, none⟩, fun _ => .outside none, [], []⟩, 1, fun _ => true, fun _ => .absent,
    pair.defaultSchedule, false⟩

theorem init_planned : Init planned := ⟨rfl, rfl, fun _ => rfl, fun _ => rfl, rfl, rfl⟩

/-- The source puts a 7 in and finishes; the sink finds no producer but an element, takes it, and finds
the queue finished. -/
def passedOn : List (Action ℕ) :=
  let put := Action.queue (source, 0)
  let take := Action.queue (sink, 0)
  [.main, .main, .main, .main, .main, put (.call (.emplace 7)), put .run, put .run, put .run, put .run,
    .finish (source, 0), .loadProducers (sink, 0), .loadHead (sink, 0), .loadTail (sink, 0),
    take (.call .tryPop), take .run, take .run, take .run, take .run, take .run, take .run,
    .loadProducers (sink, 0), .loadTail (sink, 0), .loadHead (sink, 0), .main]

def passed : Option (List (State pair ℕ × Action ℕ) × State pair ℕ) := follow act passedOn [] planned

theorem run_passed : Run Init Step (passed.get rfl).1 (passed.get rfl).2 :=
  (Run.start init_planned).follow step_of_act (@Option.some_get _ passed rfl).symm

/-! ### After the last element -/

/-- **Nothing is left and nothing comes**: there is no producer, every element has the ticket of a
consumer, who has it in hand or has returned it, and no step puts an element in. -/
structure Drained (s : State cfg T) : Prop where
  producers : s.producers = 0
  taken : s.queue.tail = s.queue.pushed.length
  owned : ∀ t, t < s.queue.pushed.length → t ∈ s.queue.popped.map Prod.fst ∨
    ∃ j, MPMCQueue.reader s.queue j = some t ∧ ∀ l, MPMCQueue.reader s.queue l = some t → l = j
  closed : ∀ a s', Step a s s' → s'.queue.pushed = s.queue.pushed

theorem Inv.closed {s s' : State cfg T} (h : Inv s) (h0 : s.producers = 0) {a : Action T}
    (hs : Step a s s') : s'.queue.pushed = s.queue.pushed := by
  cases hs with
  | main hs => rw [mainStep_queue hs]
  | @queue _ i a q hs hi ha hq =>
    exact ((accessed_of_step h.queue h.le (h.legal i) ha hq).pushed fun hrole =>
      h.producers_of_running hi hrole h0).2
  | _ => rfl

/-- Where no consumer is in a call, what was returned is what was put in. -/
theorem Inv.popped_perm {s : State cfg T} (h : Inv s) (hd : Drained s)
    (hidle : ∀ i : Clone, i.1.role = .consumer → (s.queue.pc i).inside = false) :
    (s.queue.popped.map Prod.snd).Perm s.queue.pushed := by
  refine h.queue.popped_perm fun t ht => (hd.owned t ht).resolve_right ?_
  rintro ⟨j, hj, -⟩
  rw [MPMCQueue.reader] at hj
  rcases hin : (s.queue.pc j).inside with _ | _
  · rw [(MPMCQueue.Pc.holds_none hin).2] at hj
    cases hj
  · rcases h.legal j hin with ⟨-, hp⟩ | ⟨hrole, -⟩
    · rw [MPMCQueue.Pc.reads_of_produces hp] at hj
      cases hj
    · rw [hidle j hrole] at hin
      cases hin

/-- **Where a consumer has left its input loop the queue is drained**, in every interleaving; when no
consumer is in a call any more, they have together returned exactly the elements that were put in. -/
theorem finished_drained {s : State cfg T} {past : List (State cfg T × Action T)}
    (h : Run Init Step past s) {i : Clone} (hrole : i.1.role = .consumer) (hi : s.phase i = .done) :
    Drained s ∧ ((∀ j : Clone, j.1.role = .consumer → (s.queue.pc j).inside = false) →
      (s.queue.popped.map Prod.snd).Perm s.queue.pushed) := by
  have hinv := run_inv h
  have hfinds := hinv.finds i hrole
  rw [hi] at hfinds
  obtain ⟨h0, htail⟩ := hfinds
  have hlength : s.queue.tail = s.queue.pushed.length := htail.trans hinv.queue.length.symm
  have hdrained : Drained s := by
    refine ⟨h0, hlength, fun t ht => ?_, fun a s' hs => hinv.closed h0 hs⟩
    by_cases hc : MPMCQueue.Consumed s.queue t
    · exact Or.inl ((hinv.queue.popped_iff t).mpr hc)
    · obtain ⟨j, hj⟩ := hinv.queue.readers.holder t ⟨hlength ▸ ht, hc⟩
      exact Or.inr ⟨j, hj, fun l hl => hinv.queue.readers.unique l j t hl hj⟩
  exact ⟨hdrained, hinv.popped_perm hdrained⟩

theorem finished_drained_passed : (passed.get rfl).2.queue.popped = [(0, 7)] ∧
    Drained (passed.get rfl).2 :=
  ⟨rfl, (finished_drained run_passed (i := (sink, 0)) rfl rfl).1⟩

/-! ### The registrations -/

/-- The clones a task gets. -/
def Config.instances (cfg : Config) (t : Task) : ℕ :=
  match t.async with
  | .synchronous => 1
  | .singleThreaded => scheduleFuture cfg.maxThreads 1
  | .multiThreaded => scheduleFuture cfg.maxThreads 0

/-- What the main thread has made, and what it still has to. -/
structure Made (s : State cfg T) : Prop where
  made : ∀ t ∈ cfg.subtasks, ∀ k, k < cfg.instances t → .clone t k ∈ s.main ∨ s.phase (t, k) ≠ .absent
  only : ∀ t k, .clone t k ∈ s.main ∨ s.phase (t, k) ≠ .absent → t ∈ cfg.subtasks ∧ k < cfg.instances t
  reserved : ∀ t ∈ cfg.subtasks, s.reserved t = true → 0 < cfg.instances t →
    ∃ k, .clone t k ∈ s.main ∨ .release t k ∈ s.main
  plain : ∀ i : Clone, i.1.role ≠ .consumer →
    s.phase i = .absent ∨ s.phase i = .running ∨ s.phase i = .done

theorem clone_mem_iff {t : Task} {k : ℕ} :
    .clone t k ∈ cfg.defaultSchedule ↔ t ∈ cfg.subtasks ∧ k < cfg.instances t := by
  rw [Config.defaultSchedule, List.mem_append, List.mem_flatMap, List.mem_flatMap]
  constructor
  · rintro (⟨u, hu, hm⟩ | ⟨u, hu, hm⟩)
    · rw [asyncOps] at hm
      cases hasync : u.async <;> rw [hasync] at hm
      · exact absurd hm List.not_mem_nil
      all_goals
        obtain ⟨l, hl, heq⟩ := List.mem_map.mp hm
        cases heq
        exact ⟨hu, by rw [Config.instances, hasync]; exact List.mem_range.mp hl⟩
    · obtain ⟨hu', hasync⟩ := clone_mem_syncOps (l := [u]) (by simpa using hm)
      obtain rfl := List.mem_singleton.mp hu'
      rw [syncOps, hasync] at hm
      simp only [List.mem_cons, reduceCtorEq, Op.clone.injEq, true_and, List.not_mem_nil, or_false,
        false_or] at hm
      exact ⟨hu, by rw [Config.instances, hasync, hm]; exact Nat.one_pos⟩
  · rintro ⟨ht, hk⟩
    rw [Config.instances] at hk
    cases hasync : t.async <;> rw [hasync] at hk
    · obtain rfl : k = 0 := Nat.lt_one_iff.mp hk
      exact Or.inr ⟨t, ht, by simp [syncOps, hasync]⟩
    all_goals
      refine Or.inl ⟨t, ht, ?_⟩
      rw [asyncOps, hasync]
      exact List.mem_map.mpr ⟨k, List.mem_range.mpr hk, rfl⟩

theorem made_init {s : State cfg T} (h : Init s) : Made s where
  made t ht k hk := by
    rw [h.main]
    exact Or.inl (clone_mem_iff.mpr ⟨ht, hk⟩)
  only t k hm := by
    rw [h.main, h.phase] at hm
    exact clone_mem_iff.mp (hm.resolve_right fun hne => hne rfl)
  reserved t ht _ hk := ⟨0, Or.inl (by rw [h.main]; exact clone_mem_iff.mpr ⟨ht, hk⟩)⟩
  plain i _ := Or.inl (h.phase i)

section made

variable {s s' : State cfg T} {i : Clone}

/-- A clone goes on, and the main thread has nothing new to make. -/
theorem Made.setPhase (h : Made s) (hphase : ∀ j, j ≠ i → s'.phase j = s.phase j)
    (hi : s.phase i ≠ .absent) (hi' : s'.phase i ≠ .absent)
    (hplain : i.1.role ≠ .consumer → s'.phase i = .running ∨ s'.phase i = .done)
    (hmain : s'.main = s.main) (hreserved : s'.reserved = s.reserved) : Made s' := by
  have hiff (j : Clone) : s'.phase j ≠ .absent ↔ s.phase j ≠ .absent := by
    by_cases hji : j = i
    · subst hji
      exact iff_of_true hi' hi
    · rw [hphase j hji]
  refine ⟨fun t ht k hk => ?_, fun t k hm => ?_, fun t ht hres hk => ?_, fun j hrole => ?_⟩
  · rw [hmain, hiff]
    exact h.made t ht k hk
  · rw [hmain, hiff] at hm
    exact h.only t k hm
  · rw [hmain]
    exact h.reserved t ht (hreserved ▸ hres) hk
  · by_cases hji : j = i
    · subst hji
      exact Or.inr (hplain hrole)
    · rw [hphase j hji]
      exact h.plain j hrole

/-- The main thread is past an operation that makes nothing. -/
theorem Made.skip (h : Made s) {op : Op} {ops : List Op} (hmain : s.main = op :: ops)
    (hclone : ∀ t k, op ≠ .clone t k) (hmain' : s'.main = ops) (hphase : s'.phase = s.phase)
    (hreserved : ∀ t, s'.reserved t = true → s.reserved t = true ∧ ∀ k, op ≠ .release t k) :
    Made s' := by
  have hiff (t : Task) (k : ℕ) : .clone t k ∈ s'.main ↔ .clone t k ∈ s.main := by
    rw [hmain, hmain', List.mem_cons, or_iff_right]
    exact (hclone t k).symm
  refine ⟨fun t ht k hk => ?_, fun t k hm => ?_, fun t ht hres hk => ?_, fun j hrole => ?_⟩
  · rw [hiff, hphase]
    exact h.made t ht k hk
  · rw [hiff, hphase] at hm
    exact h.only t k hm
  · obtain ⟨hres, hne⟩ := hreserved t hres
    obtain ⟨k, hm⟩ := h.reserved t ht hres hk
    refine ⟨k, hm.imp (hiff t k).mpr fun hm => ?_⟩
    rw [hmain] at hm
    rw [hmain']
    exact List.mem_of_ne_of_mem (hne k).symm hm
  · rw [hphase]
    exact h.plain j hrole

theorem Made.clone (h : Made s) {t : Task} {k : ℕ} {ops : List Op} (hmain : s.main = .clone t k :: ops) :
    Made { (s.registerProducer t.role).setPhase (t, k) .running with main := .release t k :: ops } := by
  have hphase (i : Clone) : ((s.registerProducer t.role).setPhase (t, k) .running).phase i =
      if i = (t, k) then .running else s.phase i := phase_setPhase _ _
  have hmem {u : Task} {l : ℕ} (hm : .clone u l ∈ s.main) : .clone u l ∈ ops ∨ (u, l) = (t, k) := by
    rw [hmain] at hm
    rcases List.mem_cons.mp hm with heq | hm
    · cases heq
      exact Or.inr rfl
    · exact Or.inl hm
  refine ⟨fun u hu l hl => ?_, fun u l hm => ?_, fun u hu hres hl => ?_, fun j hrole => ?_⟩
  · rw [hphase]
    split_ifs with heq
    · exact Or.inr nofun
    · refine (h.made u hu l hl).imp_left fun hm => List.mem_cons_of_mem _ ?_
      exact (hmem hm).resolve_right heq
  · rw [hphase] at hm
    refine h.only u l ?_
    rw [hmain]
    split_ifs at hm with heq
    · cases heq
      exact Or.inl List.mem_cons_self
    · refine hm.imp_left fun hm => List.mem_cons_of_mem _ ?_
      exact List.mem_of_ne_of_mem (by simp) hm
  · obtain ⟨l, hm⟩ := h.reserved u hu hres hl
    rcases hm with hm | hm
    · rcases hmem hm with hm | heq
      · exact ⟨l, Or.inl (List.mem_cons_of_mem _ hm)⟩
      · cases heq
        exact ⟨k, Or.inr List.mem_cons_self⟩
    · rw [hmain] at hm
      exact ⟨l, Or.inr (List.mem_cons_of_mem _ (List.mem_of_ne_of_mem (by simp) hm))⟩
  · rw [hphase]
    split_ifs
    · exact Or.inr (Or.inl rfl)
    · exact h.plain j hrole

theorem mainStep_made (h : Made s) (hs : mainStep s = some s') : Made s' := by
  rw [mainStep] at hs
  cases hmain : s.main with
  | nil =>
    rw [hmain] at hs
    cases hs
  | cons op ops =>
    rw [hmain] at hs
    cases op with
    | clone t k =>
      cases hs
      exact h.clone hmain
    | release t k =>
      cases hs
      split_ifs with hres
      · refine h.skip hmain (by simp) rfl rfl fun u hu => ?_
        simp only [Function.update_apply] at hu
        split_ifs at hu with hut
        exact ⟨hu, fun l heq => hut (by cases heq; rfl)⟩
      · refine h.skip hmain (by simp) rfl rfl fun u hu => ⟨hu, fun l heq => ?_⟩
        cases heq
        exact hres hu
    | reschedule =>
      cases hs
      exact h.skip hmain (by simp) rfl rfl fun u hu => ⟨hu, by simp⟩
    | await t k =>
      simp only at hs
      split_ifs at hs
      cases hs
      exact h.skip hmain (by simp) rfl rfl fun u hu => ⟨hu, by simp⟩

theorem made_step {a : Action T} (h : Made s) (hs : Step a s s') : Made s' := by
  have consumer {i : Clone} {p : Phase} (hrole : i.1.role = .consumer) (hi : s.phase i ≠ .absent)
      (hp : p ≠ .absent) : Made (s.setPhase i p) := by
    refine h.setPhase (fun j hj => ?_) hi ?_ (fun hne => absurd hrole hne) rfl rfl
    · rw [phase_setPhase, if_neg hj]
    · rwa [phase_setPhase, if_pos rfl]
  cases hs with
  | main hs => exact mainStep_made h hs
  | queue => exact ⟨h.made, h.only, h.reserved, h.plain⟩
  | @finish _ i hs hi hrole hout =>
    have hphase (j : Clone) : ((s.unregisterProducer i.1.role).setPhase i .done).phase j =
        if j = i then .done else s.phase j := phase_setPhase _ _
    refine h.setPhase (fun j hj => by rw [hphase, if_neg hj]) (by rw [hi]; nofun)
      (by rw [hphase, if_pos rfl]; nofun) (fun _ => Or.inr (by rw [hphase, if_pos rfl])) rfl rfl
  | loadProducers hs hi hrole hout => exact consumer hrole (by rw [hi]; nofun) (by split_ifs <;> nofun)
  | loadHead hrole hi => exact consumer hrole (by rw [hi]; nofun) nofun
  | loadTail hrole hi => exact consumer hrole (by rw [hi]; nofun) nofun
  | sizeTail hrole hi => exact consumer hrole (by rw [hi]; nofun) (Phase.ofSize_ne _ _)
  | sizeHead hrole hi => exact consumer hrole (by rw [hi]; nofun) (Phase.ofSize_ne _ _)

end made

/-- **The counter counts who can still put something in**: the templates with a reservation and the
producers that run. Outside of `clone` it is 0 exactly if all clones of all producers are made and have
finished, so no registration is left behind. -/
theorem producers_counted {s : State cfg T} {past : List (State cfg T × Action T)}
    (h : Run Init Step past s) : Counted (Registered s) s.producers ∧
      (1 ≤ cfg.maxThreads → (∀ t k, .release t k ∉ s.main) → (s.producers = 0 ↔
        ∀ t ∈ cfg.subtasks, t.role = .producer → ∀ k, k < cfg.instances t → s.phase (t, k) = .done)) := by
  have hinv := run_inv h
  have hmade := (h.invariant Made (fun _ _ => True) (fun _ => made_init)
    (fun _ _ _ hi _ hs => made_step hi hs) fun _ _ => trivial).1
  refine ⟨hinv.counted, fun hthreads hrelease => ⟨fun h0 t ht hrole k hk => ?_, fun hdone => ?_⟩⟩
  · have hthere : s.phase (t, k) ≠ .absent := (hmade.made t ht k hk).resolve_left fun hm =>
      hinv.producers_of_pending hm hrole h0
    rcases hmade.plain (t, k) (by rw [hrole]; nofun) with hphase | hphase | hphase
    · exact absurd hphase hthere
    · exact absurd h0 (hinv.producers_of_running hphase hrole)
    · exact hphase
  · refine hinv.counted.zero_iff.mpr fun a ha => ?_
    cases a with
    | inl t =>
      obtain ⟨ht, hrole, hres⟩ := ha
      have hpos : 0 < cfg.instances t := by
        rw [Config.instances]
        cases t.async with
        | synchronous => exact Nat.one_pos
        | singleThreaded | multiThreaded =>
          simp only [scheduleFuture]
          split_ifs <;> omega
      obtain ⟨k, hm⟩ := hmade.reserved t ht hres hpos
      have hm := hm.resolve_right (hrelease t k)
      have habsent := (hinv.pending t k hm).1
      rw [hdone t ht hrole k (hmade.only t k (Or.inl hm)).2] at habsent
      cases habsent
    | inr i =>
      obtain ⟨hrole, hrun⟩ := ha
      obtain ⟨ht, hk⟩ := hmade.only i.1 i.2 (Or.inr (by rw [hrun]; nofun))
      rw [hdone i.1 ht hrole i.2 hk] at hrun
      cases hrun

theorem producers_counted_passed : Counted (Registered (passed.get rfl).2) 0 ∧
    (passed.get rfl).2.phase (source, 0) = .done := by
  obtain ⟨hcounted, hiff⟩ := producers_counted run_passed
  exact ⟨hcounted, (hiff le_rfl fun _ _ => List.not_mem_nil).mp rfl source (by decide) rfl 0 (by decide)⟩

end Joda.Pipeline.IOQueue
