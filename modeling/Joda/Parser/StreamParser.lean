import Joda.Lib.Fuel
import Joda.Values.Value
import Mathlib.Algebra.Order.Group.Multiset
import Mathlib.Data.List.TakeWhile
import Mathlib.Logic.Function.Iterate

/-! # Parsing a stream

`JSONPipelineStreamParser` parses one document after the other from a stream and hands each to a
scheduler, which puts it into a container. The loop ends where the parser finds nothing but whitespace,
in an iteration that is not sampled out; an error only goes on with the next iteration. So an error
that leaves the stream where it was comes again for ever, and the end is missed as long as the random
numbers are not below the sampling rate. -/

namespace Joda.Parser.StreamParser

open Joda.Lib.Fuel Joda.Values.Value

variable {Doc F : Type} [Double F]

/-! ### The parser and the scheduler -/

/-- What `ParseStream` comes to, each with what is left of the stream. -/
inductive Outcome (Doc : Type) where
  | document (doc : Doc) (rest : Str)
  /-- `kParseErrorDocumentEmpty` -/
  | empty (rest : Str)
  | error (rest : Str)

def Outcome.rest : Outcome Doc → Str
  | document _ rest => rest
  | empty rest => rest
  | error rest => rest

def isWhitespace (c : UInt8) : Bool := c == 32 || c == 9 || c == 10 || c == 13

/-- **What is assumed of RapidJSON**: a document takes something from the stream, and it is empty where
there is only whitespace. Where an error leaves the stream is not said. -/
structure RapidJson (Doc : Type) where
  parseStream : Str → Outcome Doc
  suffix : ∀ s, (parseStream s).rest <:+ s
  consumes : ∀ s doc rest, parseStream s = .document doc rest → rest.length < s.length
  blank : ∀ s, (∃ rest, parseStream s = .empty rest) ↔ ∀ c ∈ s, isWhitespace c = true

/-- A document with its origin. -/
structure Parsed (Doc : Type) where
  id : ℕ
  doc : Doc
  start : ℕ
  stop : ℕ
  index : ℕ

/-- **A scheduler** keeps the documents it gets until it gives them away in a container. -/
structure Scheduler (Doc : Type) where
  State : Type
  held : State → Multiset (Parsed Doc)
  scheduleDocument : State → Parsed Doc → State × Option (List (Parsed Doc))
  finalize : State → List (List (Parsed Doc))
  scheduled : ∀ s d, held (scheduleDocument s d).1 +
    (((scheduleDocument s d).2.getD [] : List (Parsed Doc)) : Multiset (Parsed Doc)) = d ::ₘ held s
  finalized : ∀ s, ((finalize s).flatten : Multiset (Parsed Doc)) = held s

/-- The documents of a container, ordered by their origins. -/
def sorted (docs : List (Parsed Doc)) : List (Parsed Doc) :=
  docs.mergeSort fun i j => i.id < j.id ∨ i.id = j.id ∧ i.start ≤ j.start

/-- **`DefaultContainerScheduler`**: one container, which is given away when it has no space left. The
state has the number of calls, by which the allocator says whether there is space. -/
def defaultScheduler (Doc : Type) (hasSpace : ℕ → Bool) : Scheduler Doc where
  State := ℕ × List (Parsed Doc)
  held s := (s.2 : Multiset (Parsed Doc))
  scheduleDocument s d :=
    let currentContainer := s.2 ++ [d]
    if hasSpace s.1 || currentContainer.isEmpty then ((s.1 + 1, currentContainer), none)
    else ((s.1 + 1, []), some (sorted currentContainer))
  finalize s := if s.2.isEmpty then [] else [sorted s.2]
  scheduled s d := by
    have hadd : ((s.2 ++ [d] : List (Parsed Doc)) : Multiset (Parsed Doc)) = d ::ₘ (s.2 : Multiset _) := by
      rw [Multiset.cons_coe, Multiset.coe_eq_coe]
      exact List.perm_append_singleton d s.2
    dsimp only
    split_ifs with hspace
    · rw [Option.getD_none, Multiset.coe_nil, add_zero, hadd]
    · rw [Option.getD_some, Multiset.coe_nil, zero_add, ← hadd, Multiset.coe_eq_coe]
      exact List.mergeSort_perm _ _
  finalized s := by
    split_ifs with hempty
    · rw [List.isEmpty_iff.mp hempty]
      rfl
    · rw [List.flatten_singleton, Multiset.coe_eq_coe]
      exact List.mergeSort_perm _ _

/-! ### The loop -/

/-- A stream with the id of its origin; both may be null. -/
structure StreamOrigin where
  streamOrigin : Option ℕ
  stream : Option Str

/-- The loop of `fillBuffer`: what is left of the stream, the iterations so far and what was sent. -/
structure Progress (sched : Scheduler Doc) where
  stream : Str
  iterations : ℕ
  index : ℕ
  scheduler : sched.State
  sent : List (List (Parsed Doc))
  finished : Bool

/-- `sample < 1.0 && (rand() % 100) / 100.0 >= sample` -/
def sampledOut (sample : F) (random : ℕ) : Bool :=
  Double.less sample (Double.ofInt 1) &&
    Double.lessEq sample (Double.div (Double.ofInt (random % 100 : ℕ)) (Double.ofInt 100))

section Loop

variable (parser : RapidJson Doc) (sched : Scheduler Doc) (sample : F) (rand : ℕ → ℕ)

/-- One iteration of `while (true)`, for a stream of so many bytes. -/
def iteration (id size : ℕ) (p : Progress sched) : Progress sched :=
  if sampledOut sample (rand p.iterations) then
    { p with stream := (parser.parseStream p.stream).rest, iterations := p.iterations + 1 }
  else
    match parser.parseStream p.stream with
    | .error rest => { p with stream := rest, iterations := p.iterations + 1 }
    | .empty rest => { p with stream := rest, finished := true }
    | .document doc rest =>
      let parsed : Parsed Doc := ⟨id, doc, size - p.stream.length, size - rest.length, p.index⟩
      { stream := rest
        iterations := p.iterations + 1
        index := p.index + 1
        scheduler := (sched.scheduleDocument p.scheduler parsed).1
        sent := p.sent ++ (sched.scheduleDocument p.scheduler parsed).2.toList
        finished := false }

/-- **`fillBuffer`**: the containers it sends and the state of its scheduler, `none` while it has not
ended. -/
def fillBuffer (n : ℕ) (origin : StreamOrigin) (s : sched.State) :
    Option (List (List (Parsed Doc)) × sched.State) :=
  match origin.stream, origin.streamOrigin with
  | none, _ => some ([], s)
  | some _, none => some ([], s)
  | some stream, some id =>
    (loop (fun p : Progress sched => !p.finished)
      (fun _ p => some (iteration parser sched sample rand id stream.length p)) n
      ⟨stream, 0, 0, s, [], false⟩).map fun p => (p.sent, p.scheduler)

end Loop

/-! ### The documents before the first error -/

/-- The documents before the first error, of a stream of so many bytes. -/
inductive Preceding (parser : RapidJson Doc) (id size : ℕ) : ℕ → Str → List (Parsed Doc) → Prop
  | error {index : ℕ} {s rest : Str} (h : parser.parseStream s = .error rest) :
      Preceding parser id size index s []
  | ends {index : ℕ} {s rest : Str} (h : parser.parseStream s = .empty rest)
      (hs : ∀ c ∈ s, isWhitespace c = true) : Preceding parser id size index s []
  | document {index : ℕ} {s rest : Str} {doc : Doc} {docs : List (Parsed Doc)}
      (h : parser.parseStream s = .document doc rest)
      (hrest : Preceding parser id size (index + 1) rest docs) :
      Preceding parser id size index s (⟨id, doc, size - s.length, size - rest.length, index⟩ :: docs)

section DocumentsKept

variable (parser : RapidJson Doc) (sched : Scheduler Doc) (sample : F) (rand : ℕ → ℕ)

/-- Every document before the first error is in one container, of those sent and those the scheduler
gives away in the end. -/
def Stored (id : ℕ) (stream : Str) (s : sched.State) (r : List (List (Parsed Doc)) × sched.State) :
    Prop :=
  ∃ preceding stored, Preceding parser id stream.length 0 stream preceding ∧ preceding <+: stored ∧
    stored.map Parsed.index = List.range stored.length ∧
    ((r.1 ++ sched.finalize r.2).flatten : Multiset (Parsed Doc)) =
      sched.held s + (stored : Multiset (Parsed Doc))

/-- **What is to hold of `fillBuffer`**: it ends, and without sampling no document is lost. -/
def Right (origin : StreamOrigin) (s : sched.State) : Prop :=
  ∃ r, Returns (fun n => fillBuffer parser sched sample rand n origin s) r ∧
    ∀ stream id, origin.stream = some stream → origin.streamOrigin = some id →
      Double.less sample (Double.ofInt 1) = false → Stored parser sched id stream s r

/-- What is left of the stream after so many iterations. -/
def after (s : Str) (n : ℕ) : Str := (fun t => (parser.parseStream t).rest)^[n] s

/-- Nowhere the parser comes to, it finds an error without taking anything from the stream. -/
def NeverStuck (s : Str) : Prop :=
  ∀ n rest, parser.parseStream (after parser s n) = .error rest → rest ≠ after parser s n

/-- There is no sampling, or at the end of the stream a random number is below the sampling rate. -/
def Drawn (s : Str) : Prop :=
  Double.less sample (Double.ofInt 1) = false ∨
    ∃ n, (∀ c ∈ after parser s n, isWhitespace c = true) ∧
      Double.lessEq sample (Double.div (Double.ofInt (rand n % 100 : ℕ)) (Double.ofInt 100)) = false

/-- **The condition**, where there is a stream. -/
def Condition (origin : StreamOrigin) : Prop :=
  ∀ stream id, origin.stream = some stream → origin.streamOrigin = some id →
    NeverStuck parser stream ∧ Drawn parser sample rand stream

end DocumentsKept

/-! ### The course of the stream -/

section Course

variable {parser : RapidJson Doc} {s : Str}

theorem after_succ (n : ℕ) :
    after parser s (n + 1) = (parser.parseStream (after parser s n)).rest :=
  Function.iterate_succ_apply' _ _ _

/-- Whitespace stays whitespace. -/
theorem blank_after {n : ℕ} (h : ∀ c ∈ after parser s n, isWhitespace c = true) :
    ∀ k, ∀ c ∈ after parser s (n + k), isWhitespace c = true
  | 0 => h
  | k + 1 => fun c hc => by
    rw [← Nat.add_assoc, after_succ] at hc
    exact blank_after h k c ((parser.suffix _).subset hc)

/-- A place where the parser is stuck is not left. -/
theorem after_stuck {n : ℕ} (h : parser.parseStream (after parser s n) = .error (after parser s n)) :
    ∀ k, after parser s (n + k) = after parser s n
  | 0 => rfl
  | k + 1 => by rw [← Nat.add_assoc, after_succ, after_stuck h k, h, Outcome.rest]

/-- **The stream comes to its end** if the parser is never stuck. -/
theorem NeverStuck.ends (h : NeverStuck parser s) :
    ∃ n, ∀ c ∈ after parser s n, isWhitespace c = true := by
  by_contra hno
  have hlt : ∀ n, (after parser s (n + 1)).length < (after parser s n).length := by
    intro n
    rw [after_succ]
    have hsuffix := parser.suffix (after parser s n)
    rcases hout : parser.parseStream (after parser s n) with ⟨doc, rest⟩ | rest | rest
    · exact parser.consumes _ _ _ hout
    · exact absurd ⟨n, (parser.blank _).mp ⟨rest, hout⟩⟩ hno
    · rw [hout] at hsuffix
      refine lt_of_le_of_ne hsuffix.length_le fun hlen => h n rest hout ?_
      exact hsuffix.eq_of_length hlen
  have hle : ∀ n, (after parser s n).length + n ≤ s.length := by
    intro n
    induction n with
    | zero => exact le_refl _
    | succ n ih =>
      have := hlt n
      omega
  have := hle (s.length + 1)
  omega

/-- An iteration that is not sampled out finds the end, as the condition says. -/
theorem condition_iff (sample : F) (rand : ℕ → ℕ) :
    (NeverStuck parser s ∧ Drawn parser sample rand s) ↔
      ∃ n, (∀ c ∈ after parser s n, isWhitespace c = true) ∧ sampledOut sample (rand n) = false := by
  constructor
  · rintro ⟨hstuck, hsample | ⟨n, hblank, hdrawn⟩⟩
    · obtain ⟨n, hn⟩ := hstuck.ends
      exact ⟨n, hn, by rw [sampledOut, hsample, Bool.false_and]⟩
    · exact ⟨n, hblank, by rw [sampledOut, hdrawn, Bool.and_false]⟩
  · rintro ⟨n, hblank, hout⟩
    refine ⟨fun m rest herror hrest => ?_, ?_⟩
    · rw [hrest] at herror
      have hle := blank_after hblank m
      rw [Nat.add_comm, after_stuck herror] at hle
      obtain ⟨rest', hempty⟩ := (parser.blank _).mpr hle
      rw [herror] at hempty
      cases hempty
    · rcases Bool.and_eq_false_iff.mp hout with hless | hle
      · exact Or.inl hless
      · exact Or.inr ⟨n, hblank, hle⟩

/-- There are documents before the first error, if only none. -/
theorem exists_preceding (parser : RapidJson Doc) (id size : ℕ) : ∀ (k : ℕ) (s : Str) (index : ℕ),
    s.length ≤ k → ∃ docs, Preceding parser id size index s docs := by
  intro k
  induction k with
  | zero =>
    intro s index hs
    obtain rfl := List.length_eq_zero_iff.mp (Nat.le_zero.mp hs)
    obtain ⟨rest, hrest⟩ := (parser.blank []).mpr (by simp)
    exact ⟨[], .ends hrest (by simp)⟩
  | succ k ih =>
    intro s index hs
    rcases hout : parser.parseStream s with ⟨doc, rest⟩ | rest | rest
    · have hlt := parser.consumes _ _ _ hout
      obtain ⟨docs, hdocs⟩ := ih rest (index + 1) (by omega)
      exact ⟨_, .document hout hdocs⟩
    · exact ⟨[], .ends hout ((parser.blank s).mp ⟨rest, hout⟩)⟩
    · exact ⟨[], .error hout⟩

end Course

/-! ### The invariant of the loop -/

section Invariant

variable {parser : RapidJson Doc} {sched : Scheduler Doc} {sample : F} {rand : ℕ → ℕ}

/-- Where the loop is: after so many iterations, or at the end. -/
structure Located (parser : RapidJson Doc) (sample : F) (rand : ℕ → ℕ) (stream : Str)
    (p : Progress sched) : Prop where
  going : p.finished = false → p.stream = after parser stream p.iterations
  done : p.finished = true → ∃ n, (∀ c ∈ after parser stream n, isWhitespace c = true) ∧
    sampledOut sample (rand n) = false

theorem located_iteration {id size : ℕ} {stream : Str} {p : Progress sched}
    (h : Located parser sample rand stream p) (hp : p.finished = false) :
    Located parser sample rand stream (iteration parser sched sample rand id size p) := by
  have hstream := h.going hp
  unfold iteration
  by_cases hout : sampledOut sample (rand p.iterations) = true
  · rw [if_pos hout]
    refine ⟨fun _ => ?_, fun hf => ?_⟩
    · dsimp only
      rw [after_succ, hstream]
    · rw [hp] at hf
      cases hf
  · rw [if_neg hout]
    rcases hparse : parser.parseStream p.stream with ⟨doc, rest⟩ | rest | rest
    · refine ⟨fun _ => ?_, fun hf => by cases hf⟩
      dsimp only
      rw [after_succ, ← hstream, hparse, Outcome.rest]
    · refine ⟨fun hf => (by cases hf), fun _ => ⟨p.iterations, ?_, by simpa using hout⟩⟩
      rw [← hstream]
      exact (parser.blank _).mp ⟨rest, hparse⟩
    · refine ⟨fun _ => ?_, fun hf => ?_⟩
      · dsimp only
        rw [after_succ, ← hstream, hparse, Outcome.rest]
      · rw [hp] at hf
        cases hf

/-- **What was stored so far**, without sampling: the documents before the first error, as far as the
loop has come. -/
structure Storing (parser : RapidJson Doc) (id : ℕ) (stream : Str) (s : sched.State)
    (preceding : List (Parsed Doc)) (p : Progress sched) : Prop where
  stored : ∃ stored : List (Parsed Doc), stored.length = p.index ∧
    stored.map Parsed.index = List.range stored.length ∧
    (p.sent.flatten : Multiset (Parsed Doc)) + sched.held p.scheduler =
      sched.held s + (stored : Multiset (Parsed Doc)) ∧
    (preceding <+: stored ∨ p.finished = false ∧ ∃ left, preceding = stored ++ left ∧
      Preceding parser id stream.length p.index p.stream left)

/-- Where there is no document, all those before the first error are stored. -/
theorem prefix_of_stop {id size index : ℕ} {left : Str} {going : Prop}
    {preceding stored : List (Parsed Doc)}
    (hstop : ∀ doc rest, parser.parseStream left ≠ .document doc rest)
    (h : preceding <+: stored ∨ going ∧ ∃ more, preceding = stored ++ more ∧
      Preceding parser id size index left more) : preceding <+: stored := by
  rcases h with hpre | ⟨-, more, hmore, hprec⟩
  · exact hpre
  · rcases hprec with _ | _ | ⟨hdoc, -⟩
    · exact (hmore.trans (List.append_nil stored)) ▸ List.prefix_rfl
    · exact (hmore.trans (List.append_nil stored)) ▸ List.prefix_rfl
    · exact absurd hdoc (hstop _ _)

theorem storing_iteration {id : ℕ} {stream : Str} {s : sched.State} {preceding : List (Parsed Doc)}
    {p : Progress sched} (hsample : Double.less sample (Double.ofInt 1) = false)
    (h : Storing parser id stream s preceding p) :
    Storing parser id stream s preceding
      (iteration parser sched sample rand id stream.length p) := by
  obtain ⟨stored, hlen, hindex, hheld, hprec⟩ := h.stored
  unfold iteration
  have hout : sampledOut sample (rand p.iterations) = false := by
    rw [sampledOut, hsample, Bool.false_and]
  rw [if_neg (by rw [hout]; simp)]
  rcases hparse : parser.parseStream p.stream with ⟨doc, rest⟩ | rest | rest
  · set parsed : Parsed Doc := ⟨id, doc, stream.length - p.stream.length, stream.length - rest.length,
      p.index⟩ with hparsed
    refine ⟨stored ++ [parsed], by simp [hlen], ?_, ?_, ?_⟩
    · rw [List.map_append, hindex, List.length_append, List.length_singleton, List.range_succ, hlen]
      rfl
    · have hsched := sched.scheduled p.scheduler parsed
      have hsent : ((p.sent ++ (sched.scheduleDocument p.scheduler parsed).2.toList).flatten :
          Multiset (Parsed Doc)) = (p.sent.flatten : Multiset (Parsed Doc)) +
            (((sched.scheduleDocument p.scheduler parsed).2.getD [] : List (Parsed Doc)) :
              Multiset (Parsed Doc)) := by
        rw [List.flatten_append, ← Multiset.coe_add]
        congr 2
        rcases (sched.scheduleDocument p.scheduler parsed).2 with _ | cont <;> simp
      have hadd : ((stored ++ [parsed] : List (Parsed Doc)) : Multiset (Parsed Doc)) =
          parsed ::ₘ (stored : Multiset (Parsed Doc)) := by
        rw [Multiset.cons_coe, Multiset.coe_eq_coe]
        exact List.perm_append_singleton parsed stored
      dsimp only
      rw [hsent, add_assoc, add_comm (Multiset.ofList _) (sched.held _), hsched, Multiset.add_cons,
        hheld, hadd, Multiset.add_cons]
    · rcases hprec with hpre | ⟨-, left, hleft, hrest⟩
      · exact Or.inl (hpre.trans (List.prefix_append _ _))
      · rcases hrest with herror | ⟨hempty, -⟩ | ⟨hdoc, hrest⟩
        · rw [hparse] at herror
          cases herror
        · rw [hparse] at hempty
          cases hempty
        · rw [hparse] at hdoc
          obtain ⟨rfl, rfl⟩ := Outcome.document.inj hdoc
          exact Or.inr ⟨rfl, _, by rw [hleft, List.append_assoc]; rfl, hrest⟩
  · refine ⟨stored, hlen, hindex, hheld, Or.inl (prefix_of_stop ?_ hprec)⟩
    exact fun doc rest' hdoc => by rw [hparse] at hdoc; cases hdoc
  · refine ⟨stored, hlen, hindex, hheld, Or.inl (prefix_of_stop ?_ hprec)⟩
    exact fun doc rest' hdoc => by rw [hparse] at hdoc; cases hdoc

theorem iterations_iteration {id size : ℕ} {p : Progress sched}
    (h : (iteration parser sched sample rand id size p).finished = false) :
    (iteration parser sched sample rand id size p).iterations = p.iterations + 1 := by
  unfold iteration at h ⊢
  by_cases hout : sampledOut sample (rand p.iterations) = true
  · rw [if_pos hout]
  · rw [if_neg hout] at h ⊢
    rcases hparse : parser.parseStream p.stream with ⟨doc, rest⟩ | rest | rest
    · rfl
    · rw [hparse] at h
      cases h
    · rfl

/-- **The loop ends** if some iteration that is not sampled out finds the end. -/
theorem loop_ends {id : ℕ} {stream : Str} {n : ℕ}
    (hn : ∀ c ∈ after parser stream n, isWhitespace c = true)
    (hout : sampledOut sample (rand n) = false) : ∀ (k : ℕ) (p : Progress sched),
    p.iterations + k = n → Located parser sample rand stream p → p.finished = false →
      ∃ q, Returns (fun m => loop (fun p : Progress sched => !p.finished)
        (fun _ p => some (iteration parser sched sample rand id stream.length p)) m p) q := by
  intro k
  induction k with
  | zero =>
    intro p hk hloc hp
    have hstream : p.stream = after parser stream n := by
      rw [hloc.going hp, ← hk, Nat.add_zero]
    obtain ⟨rest, hempty⟩ := (parser.blank _).mpr hn
    refine ⟨_, loop_returns_of_body (by rw [hp]; rfl) (.pure _) (loop_returns_of_not ?_)⟩
    have hk' : p.iterations = n := hk
    unfold iteration
    rw [hk', if_neg (by rw [hout]; simp), hstream, hempty]
    rfl
  | succ k ih =>
    intro p hk hloc hp
    by_cases hfin : (iteration parser sched sample rand id stream.length p).finished = true
    · exact ⟨_, loop_returns_of_body (by rw [hp]; rfl) (.pure _)
        (loop_returns_of_not (by rw [hfin]; rfl))⟩
    · have hfin' : (iteration parser sched sample rand id stream.length p).finished = false := by
        simpa using hfin
      have hiter := iterations_iteration hfin'
      obtain ⟨q, hq⟩ := ih _ (by rw [hiter]; omega) (located_iteration hloc hp) hfin'
      exact ⟨q, loop_returns_of_body (by rw [hp]; rfl) (.pure _) hq⟩

/-- The loop of a stream. -/
theorem fillBuffer_some {n : ℕ} {stream : Str} {id : ℕ} {s : sched.State}
    {r : List (List (Parsed Doc)) × sched.State}
    (h : fillBuffer parser sched sample rand n ⟨some id, some stream⟩ s = some r) :
    ∃ p : Progress sched, loop (fun p : Progress sched => !p.finished)
      (fun _ p => some (iteration parser sched sample rand id stream.length p)) n
      ⟨stream, 0, 0, s, [], false⟩ = some p ∧ (p.sent, p.scheduler) = r :=
  Option.map_eq_some_iff.mp h

theorem located_start {stream : Str} {s : sched.State} :
    Located parser sample rand stream (⟨stream, 0, 0, s, [], false⟩ : Progress sched) :=
  ⟨fun _ => rfl, fun hf => by cases hf⟩

/-- **Necessity**: the loop has ended in an iteration that found the end. -/
theorem ended {n : ℕ} {stream : Str} {id : ℕ} {s : sched.State}
    {r : List (List (Parsed Doc)) × sched.State}
    (h : fillBuffer parser sched sample rand n ⟨some id, some stream⟩ s = some r) :
    ∃ k, (∀ c ∈ after parser stream k, isWhitespace c = true) ∧ sampledOut sample (rand k) = false := by
  obtain ⟨p, hp, -⟩ := fillBuffer_some h
  obtain ⟨hloc, hdone⟩ := loop_some (Located parser sample rand stream) (fun _ p q hp hc hb => by
    obtain rfl := Option.some.inj hb
    exact located_iteration hp (by simpa using hc)) located_start hp
  exact hloc.done (by simpa using hdone)

/-- **Without sampling** the documents before the first error are in the containers. -/
theorem stored {n : ℕ} {stream : Str} {id : ℕ} {s : sched.State}
    {r : List (List (Parsed Doc)) × sched.State}
    (hsample : Double.less sample (Double.ofInt 1) = false)
    (h : fillBuffer parser sched sample rand n ⟨some id, some stream⟩ s = some r) :
    Stored parser sched id stream s r := by
  obtain ⟨p, hp, rfl⟩ := fillBuffer_some h
  obtain ⟨preceding, hprec⟩ := exists_preceding parser id stream.length stream.length stream 0 le_rfl
  have hstart : Storing parser id stream s preceding (⟨stream, 0, 0, s, [], false⟩ : Progress sched) := by
    refine ⟨[], rfl, rfl, ?_, Or.inr ⟨rfl, preceding, rfl, hprec⟩⟩
    simp
  obtain ⟨hstoring, hdone⟩ := loop_some (Storing parser id stream s preceding) (fun _ p q hp _ hb => by
    obtain rfl := Option.some.inj hb
    exact storing_iteration hsample hp) hstart hp
  have hfin : p.finished = true := by simpa using hdone
  obtain ⟨stored, -, hindex, hheld, hpre⟩ := hstoring.stored
  refine ⟨preceding, stored, hprec, hpre.resolve_right ?_, hindex, ?_⟩
  · rintro ⟨hgoing, -⟩
    rw [hfin] at hgoing
    cases hgoing
  · rw [List.flatten_append, ← Multiset.coe_add, sched.finalized, hheld]

end Invariant

/-- **Stream parsing ends**, and loses no document before the first error, exactly if the parser is never
stuck and, with sampling, a random number is below the rate at the end of the stream. -/
theorem fillBuffer_right_iff (parser : RapidJson Doc) (sched : Scheduler Doc) (sample : F)
    (rand : ℕ → ℕ) (origin : StreamOrigin) (s : sched.State) :
    Right parser sched sample rand origin s ↔ Condition parser sample rand origin := by
  obtain ⟨_ | id, _ | stream⟩ := origin
  · exact ⟨fun _ stream id h => (by cases h), fun _ => ⟨([], s), .pure _, fun stream id h => by cases h⟩⟩
  · exact ⟨fun _ stream id _ h => (by cases h),
      fun _ => ⟨([], s), .pure _, fun stream id _ h => by cases h⟩⟩
  · exact ⟨fun _ stream id h => (by cases h), fun _ => ⟨([], s), .pure _, fun stream id h => by cases h⟩⟩
  · constructor
    · rintro ⟨r, ⟨n, hn⟩, -⟩ stream' id' hstream hid
      obtain rfl := Option.some.inj hstream
      exact (condition_iff sample rand).mpr (ended (hn n le_rfl))
    · intro hcond
      obtain ⟨n, hblank, hout⟩ := (condition_iff sample rand).mp (hcond stream id rfl rfl)
      obtain ⟨q, hq⟩ := loop_ends hblank hout n
        ⟨stream, 0, 0, s, [], false⟩ (Nat.zero_add n) located_start rfl
      have hreturns : Returns (fun n => fillBuffer parser sched sample rand n
          ⟨some id, some stream⟩ s) (q.sent, q.scheduler) := hq.map _
      refine ⟨_, hreturns, fun stream' id' hstream hid hsample => ?_⟩
      obtain rfl := Option.some.inj hstream
      obtain rfl := Option.some.inj hid
      obtain ⟨n, hn⟩ := hreturns
      exact stored hsample (hn n le_rfl)

/-! ### A stray bracket -/

/-- A parser of which the only document is the empty object; it finds an error at any other byte,
without taking it. -/
def braces : RapidJson Unit where
  parseStream s :=
    match s.dropWhile isWhitespace with
    | [] => .empty []
    | c :: t => if c = 123 ∧ t.head? = some 125 then .document () t.tail else .error (c :: t)
  suffix s := by
    have hdrop : s.dropWhile isWhitespace <:+ s := List.dropWhile_suffix _
    split
    · exact List.nil_suffix
    · rename_i c t hs
      rw [hs] at hdrop
      split_ifs
      · exact ((List.tail_suffix t).trans (List.suffix_cons c t)).trans hdrop
      · exact hdrop
  consumes s doc rest h := by
    have hdrop : s.dropWhile isWhitespace <:+ s := List.dropWhile_suffix _
    split at h
    · cases h
    · rename_i c t hs
      split_ifs at h
      obtain ⟨-, rfl⟩ := Outcome.document.inj h
      rw [hs] at hdrop
      have hle := hdrop.length_le
      have htail := (List.tail_suffix t).length_le
      rw [List.length_cons] at hle
      omega
  blank s := by
    rw [← List.dropWhile_eq_nil_iff]
    split
    · rename_i hs
      exact ⟨fun _ => hs, fun _ => ⟨[], rfl⟩⟩
    · rename_i c t hs
      rw [hs]
      constructor
      · rintro ⟨rest, h⟩
        split_ifs at h
      · exact fun h => by cases h

/-- A bracket that closes nothing is found again and again. -/
theorem stray_bracket : ¬ ∀ (stream : Str),
    ∃ r, Returns (fun n => fillBuffer braces (defaultScheduler Unit fun _ => true) (1 : Float)
      (fun _ => 0) n ⟨some 0, some stream⟩ (0, [])) r := by
  intro h
  obtain ⟨r, n, hn⟩ := h (ascii "\x7d")
  obtain ⟨k, hk, -⟩ := ended (hn n le_rfl)
  have hstuck : braces.parseStream (after braces (ascii "\x7d") 0) = .error (after braces (ascii "\x7d") 0) :=
    rfl
  have hafter := after_stuck hstuck k
  rw [Nat.zero_add] at hafter
  rw [hafter] at hk
  exact absurd (hk 125 (by decide)) (by decide)

end Joda.Parser.StreamParser
