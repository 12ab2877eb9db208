import Joda.Parser.LineSplitting
import Joda.Storage.Paging
import Joda.Storage.ReparseRuns

/-! # The lines of the files that documents are stored in

`JSONStringifier` reads the documents of a container as texts, in bulks; the writer appends each text
with a newline to a file. `LSFileMapper` reads the lines back, and `JSONPipelineTextParser` parses the
lines of a buffer, the last one first, and gives the documents to its scheduler. Each document has the
position of its line, and can be read from there again. -/

namespace Joda.Export.FileLines

open Joda.Lib.Fuel Joda.Values.Value Joda.Storage.Paging
open Joda.Parser.StreamParser Joda.Parser.LineSplitting
open Joda.Storage.FileOrigin (Json ParseInterval Holds Readable close parseIntervals mergeIntervals
  holds_written parseIntervals_merged)
open Joda.Storage.ReparseRuns (brackets)

/-! ### Storing -/

namespace JSONStringifierExec

variable {δ τ : Type}

def OutBulk : ℕ := 512

/-- The loop: where the next bulk starts, and what was sent. -/
structure Progress (τ : Type) where
  start : ℕ
  sent : List (List τ)
  finished : Bool

/-- One bulk; with fewer texts than asked for it is the last one. -/
def iteration (text : δ → τ) (docs : List δ) (p : Progress τ) : Option (Progress τ) :=
  (JSONContainer.stringify text docs p.start (p.start + OutBulk - 1)).map fun strings =>
    ⟨p.start + OutBulk, p.sent ++ [strings], decide (strings.length < OutBulk)⟩

/-- **`fillBuffer`**: the bulks of a container, the last of which is left in the output buffer. -/
def fillBuffer (text : δ → τ) (n : ℕ) (docs : List δ) : Option (List (List τ)) :=
  (loop (fun p : Progress τ => !p.finished) (fun _ => iteration text docs) n ⟨0, [], false⟩).map
    Progress.sent

/-- What it gives, with fuel that is enough (`stringifier_returns`). -/
def bulks (text : δ → τ) (docs : List δ) : List (List τ) :=
  (fillBuffer text (docs.length + 2) docs).getD []

end JSONStringifierExec

/-- **`WriteFileExec::emptyBuffer`**: the file is opened for appending, and made if there is none. -/
def emptyBuffer (file : Option Str) (buff : List Str) : Option Str :=
  some (file.getD [] ++ buff.flatMap fun text => text ++ [newline])

/-- The text of some lines. -/
def content (ts : List Str) : Str := ts.flatMap fun t => t ++ [newline]

/-! ### Loading -/

section Loading

variable {Doc F : Type} [Double F]

/-- What `LSFileMapper` gives for a file, with fuel that is enough (`mapper_returns`). -/
def batches (sample : F) (rand : ℕ → ℕ) (fileID : ℕ) (text : Str) : List (List StringOrigin) :=
  (LSFileMapper.fillBuffer sample rand fileID (text.length + 2) text).getD []

namespace JSONPipelineTextParser

variable (parse : Str → Option Doc) (sched : Scheduler Doc)

/-- A line becomes a document; an empty one, or one that is no document, is skipped. -/
def parseLine (text : StringOrigin) : Option (Parsed Doc) :=
  if text.string = [] then none
  else (parse (cString text.string)).map fun doc =>
    ⟨text.id, doc, text.start.toNat, text.stop.toNat, text.index⟩

/-- What is done with a line: the scheduler, and the containers that were sent. -/
def handle (text : StringOrigin) (r : sched.State × List (List (Parsed Doc))) :
    sched.State × List (List (Parsed Doc)) :=
  match parseLine parse text with
  | none => r
  | some doc =>
    ((sched.scheduleDocument r.1 doc).1, r.2 ++ (sched.scheduleDocument r.1 doc).2.toList)

/-- **`fillBuffer`** takes the lines of a buffer from its end. -/
def fillBuffer (buff : List StringOrigin) (s : sched.State) : sched.State × List (List (Parsed Doc)) :=
  buff.foldr (handle parse sched) (s, [])

/-- The containers that are sent for some buffers, and those at the end. -/
def run : List (List StringOrigin) → sched.State → List (List (Parsed Doc))
  | [], s => sched.finalize s
  | buff :: buffs, s => (fillBuffer parse sched buff s).2 ++ run buffs (fillBuffer parse sched buff s).1

end JSONPipelineTextParser

end Loading

/-! ### Documents and texts -/

section Texts

variable {V : Type}

/-- A document as text, and nothing for one that is not valid. -/
def text (json : Json V) (doc : Option V) : Str := (doc.map json.write).getD []

/-- **What is assumed of RapidJSON**: a document is parsed from what was written of it, which is one
line. For a document with doubles this needs the full precision of the parser; its default is within
three units in the last place, so such documents are meant up to that. -/
structure Texts (json : Json V) (parse : Str → Option V) : Prop where
  parses : ∀ v, parse (json.write v) = some v
  noNewline : ∀ v, newline ∉ json.write v
  noZero : ∀ v, (0 : UInt8) ∉ json.write v

/-- Where a document came from. -/
def interval (p : Parsed V) : ParseInterval := ⟨p.id, p.start, p.stop⟩

end Texts

/-! ### The bulks of a container -/

section Stringifier

variable {δ τ : Type} (text : δ → τ)

/-- A bulk that starts at a document, or after the last one. -/
theorem stringify_bulk {docs : List δ} {start : ℕ} (h : start ≤ docs.length) :
    JSONContainer.stringify text docs start (start + JSONStringifierExec.OutBulk - 1) =
      some (((docs.drop start).take JSONStringifierExec.OutBulk).map text) := by
  have hbulk : JSONStringifierExec.OutBulk = 512 := rfl
  rcases Nat.lt_or_ge start docs.length with hlt | hge
  · exact container_stringify_eq text hlt (by decide)
  · rw [List.drop_eq_nil_of_le hge]
    unfold JSONContainer.stringify
    by_cases hnil : docs = []
    · rw [if_pos hnil]
      rfl
    · have hpos := List.length_pos_of_ne_nil hnil
      rw [if_neg hnil]
      dsimp only
      rw [if_neg (by omega), List.drop_eq_nil_of_le hge, List.take_nil]
      rfl

/-- The loop: what was sent are the documents so far, and all of them at the end. -/
structure Sent (docs : List δ) (p : JSONStringifierExec.Progress τ) : Prop where
  start : p.finished = false → p.start ≤ docs.length
  sent : p.sent.flatten = (docs.take p.start).map text
  all : p.finished = true → docs.length ≤ p.start

variable {text}

theorem Sent.step {docs : List δ} {p : JSONStringifierExec.Progress τ} (h : Sent text docs p)
    (hp : p.finished = false) : ∃ q, JSONStringifierExec.iteration text docs p = some q ∧
      Sent text docs q ∧ q.start = p.start + JSONStringifierExec.OutBulk := by
  have hlength : (((docs.drop p.start).take JSONStringifierExec.OutBulk).map text).length =
      min JSONStringifierExec.OutBulk (docs.length - p.start) := by simp
  have hpos : JSONStringifierExec.OutBulk = 512 := rfl
  have hstart := h.start hp
  have hstep : JSONStringifierExec.iteration text docs p = some
      ⟨p.start + JSONStringifierExec.OutBulk,
        p.sent ++ [((docs.drop p.start).take JSONStringifierExec.OutBulk).map text],
        decide (min JSONStringifierExec.OutBulk (docs.length - p.start) <
          JSONStringifierExec.OutBulk)⟩ := by
    unfold JSONStringifierExec.iteration
    rw [stringify_bulk text hstart, ← hlength]
    rfl
  refine ⟨_, hstep, ⟨fun hlast => ?_, ?_, fun hlast => ?_⟩, rfl⟩
  · have hfull := of_decide_eq_false hlast
    dsimp only
    omega
  · dsimp only
    rw [List.flatten_append, List.flatten_singleton, h.sent, ← List.map_append, ← List.take_add]
  · have hless := of_decide_eq_true hlast
    dsimp only
    omega

/-- **All documents of a container are read**, in their order. -/
theorem stringifier_returns (docs : List δ) :
    Returns (fun n => JSONStringifierExec.fillBuffer text n docs) (JSONStringifierExec.bulks text docs) ∧
      (JSONStringifierExec.bulks text docs).flatten = docs.map text := by
  obtain ⟨q, hq, hreturns, hsent, hfinished⟩ := loop_enough
    (fun p : JSONStringifierExec.Progress τ => !p.finished) (JSONStringifierExec.iteration text docs)
    (Sent text docs) (fun p => if p.finished then 0 else docs.length + 1 - p.start)
    (fun p hp hopen => by
      rw [Bool.not_eq_true'] at hopen
      obtain ⟨q, hq, hsent, hstart⟩ := hp.step hopen
      have hpos : JSONStringifierExec.OutBulk = 512 := rfl
      have hle := hp.start hopen
      refine ⟨q, hq, hsent, ?_⟩
      rw [hopen, hstart, if_neg Bool.false_ne_true]
      split_ifs <;> omega)
    (docs.length + 2) ⟨0, [], false⟩ (Nat.lt_succ_self _) ⟨fun _ => Nat.zero_le _, rfl, fun h => by cases h⟩
  rw [Bool.not_eq_false'] at hfinished
  have hbulks : JSONStringifierExec.bulks text docs = q.sent := by
    unfold JSONStringifierExec.bulks JSONStringifierExec.fillBuffer
    rw [hq]
    rfl
  rw [hbulks]
  refine ⟨hreturns.map JSONStringifierExec.Progress.sent, ?_⟩
  rw [hsent.sent, List.take_of_length_le (hsent.all hfinished)]

end Stringifier

/-! ### The lines of a file -/

/-- The texts of a file with their places. -/
def slices (id : ℕ) : ℕ → List Str → List StringOrigin
  | _, [] => []
  | offset, t :: ts =>
    ⟨id, offset, (offset + t.length + 1 : ℕ), 0, t⟩ :: slices id (offset + t.length + 1) ts

theorem content_append (ts ts' : List Str) : content (ts ++ ts') = content ts ++ content ts' :=
  List.flatMap_append

theorem length_content_cons (t : Str) (ts : List Str) :
    (content (t :: ts)).length = t.length + 1 + (content ts).length := by
  rw [content, List.flatMap_cons, List.length_append, List.length_append]
  rfl

theorem content_eq_nil {ts : List Str} (h : content ts = []) : ts = [] := by
  rcases ts with - | ⟨t, ts⟩
  · rfl
  · have hlength := congrArg List.length h
    rw [length_content_cons, List.length_nil] at hlength
    omega

/-- **What a writer has written** is what it was given. -/
theorem foldl_emptyBuffer : ∀ (bulks : List (List Str)) (file : Option Str),
    (bulks.foldl emptyBuffer file).getD [] = file.getD [] ++ content bulks.flatten
  | [], file => (List.append_nil _).symm
  | bulk :: bulks, file => by
    rw [List.foldl_cons, foldl_emptyBuffer bulks, List.flatten_cons, content_append, ← List.append_assoc]
    rfl

theorem lines_content : ∀ {ts : List Str}, (∀ t ∈ ts, newline ∉ t) →
    lines (content ts) = ts.map fun t => t ++ [newline]
  | [], _ => rfl
  | t :: ts, h => by
    obtain ⟨ht, hts⟩ := List.forall_mem_cons.mp h
    change lines (t ++ [newline] ++ content ts) = _
    rw [List.append_assoc, List.singleton_append, lines_newline _ ht, lines_content hts, List.map_cons]

theorem mapped_slices (id : ℕ) : ∀ {ts : List Str} (offset : ℕ), (∀ t ∈ ts, newline ∉ t) →
    mapped id offset (ts.map fun t => t ++ [newline]) = slices id offset ts
  | [], _, _ => rfl
  | t :: ts, offset, h => by
    obtain ⟨ht, hts⟩ := List.forall_mem_cons.mp h
    have hstop : (offset : ℤ) + ((t ++ [newline]).length : ℕ) = (offset + t.length + 1 : ℕ) := by
      rw [List.length_append, List.length_singleton]
      omega
    rw [List.map_cons, mapped, if_pos (by simp), takeWhile_line ht, hstop, mapped_slices id _ hts]
    rfl

/-- Where a text of a file is. -/
theorem mem_slices {id : ℕ} {s : StringOrigin} : ∀ {ts : List Str} {offset : ℕ},
    s ∈ slices id offset ts → ∃ front back, ts = front ++ s.string :: back ∧ s.id = id ∧
      s.start = (offset + (content front).length : ℕ) ∧ s.stop = s.start + s.string.length + 1
  | t :: ts, offset, h => by
    rcases List.mem_cons.mp h with rfl | h
    · exact ⟨[], ts, rfl, rfl, rfl, by push_cast; rfl⟩
    · obtain ⟨front, back, rfl, hid, hstart, hstop⟩ := mem_slices h
      refine ⟨t :: front, back, rfl, hid, ?_, hstop⟩
      rw [hstart, length_content_cons]
      congr 1
      omega

theorem slices_string (id : ℕ) : ∀ (ts : List Str) (offset : ℕ),
    (slices id offset ts).map StringOrigin.string = ts
  | [], _ => rfl
  | _ :: ts, _ => congrArg (List.cons _) (slices_string id ts _)

/-- Two places do not overlap. -/
def Apart (a b : StringOrigin) : Prop := a.id = b.id → a.stop ≤ b.start ∨ b.stop ≤ a.start

theorem slices_start {id : ℕ} {s : StringOrigin} {ts : List Str} {offset : ℕ}
    (h : s ∈ slices id offset ts) : (offset : ℤ) ≤ s.start := by
  obtain ⟨front, -, -, -, hstart, -⟩ := mem_slices h
  omega

theorem slices_apart (id : ℕ) : ∀ (ts : List Str) (offset : ℕ), (slices id offset ts).Pairwise Apart
  | [], _ => List.Pairwise.nil
  | _ :: ts, _ =>
    List.Pairwise.cons (fun _ hs _ => Or.inl (slices_start hs)) (slices_apart id ts _)

section Mapper

variable {F : Type} [Double F] (sample : F) (rand : ℕ → ℕ) (id : ℕ)

/-- The loop ends, with what is left as its fuel. -/
theorem mapper_ends (size : ℕ) (text : Str) : ∃ q,
    loop (fun p : LSFileMapper.Progress => !p.finished)
        (fun _ p => some (LSFileMapper.iteration sample rand id size p)) (text.length + 2)
        ⟨text, 0, [], [], false⟩ = some q ∧
      Returns (fun n => loop (fun p : LSFileMapper.Progress => !p.finished)
        (fun _ p => some (LSFileMapper.iteration sample rand id size p)) n ⟨text, 0, [], [], false⟩) q := by
  obtain ⟨q, hq, hreturns, -⟩ := loop_enough (fun p : LSFileMapper.Progress => !p.finished)
    (fun p => some (LSFileMapper.iteration sample rand id size p)) (fun _ => True)
    (fun p => if p.finished then 0 else p.left.length + 1)
    (fun p _ hopen => by
      rw [Bool.not_eq_true'] at hopen
      refine ⟨_, rfl, trivial, ?_⟩
      rw [hopen, if_neg Bool.false_ne_true]
      rcases dropWhile_cases p.left with ⟨hdrop, -⟩ | ⟨rest, hdrop, -, hleft⟩
      · unfold LSFileMapper.iteration
        rw [hdrop]
        exact Nat.succ_pos _
      · have hnext : ∃ q, LSFileMapper.iteration sample rand id size p = q ∧ q.left = rest ∧
            q.finished = false := by
          refine ⟨_, rfl, ?_⟩
          unfold LSFileMapper.iteration
          rw [hdrop]
          dsimp only
          split_ifs <;> exact ⟨rfl, rfl⟩
        obtain ⟨q, hq, hrest, hfinished⟩ := hnext
        have hlength := congrArg List.length hleft
        rw [List.length_append, List.length_cons] at hlength
        rw [hq, hrest, hfinished, if_neg Bool.false_ne_true]
        omega)
    (text.length + 2) ⟨text, 0, [], [], false⟩ (Nat.lt_succ_self _) trivial
  exact ⟨q, hq, hreturns⟩

variable {sample}

/-- **A file is mapped** to the lines that end with a newline. -/
theorem mapper_returns (hsample : Double.less sample (Double.ofInt 1) = false) (text : Str) :
    Returns (fun n => LSFileMapper.fillBuffer sample rand id n text) (batches sample rand id text) ∧
      (batches sample rand id text).flatten = mapped id 0 (lines text) := by
  unfold batches LSFileMapper.fillBuffer
  by_cases hnil : text = []
  · simp only [if_pos hnil, Option.getD_some]
    exact ⟨.pure [], by rw [hnil]; rfl⟩
  · obtain ⟨q, hq, hreturns⟩ := mapper_ends sample rand id text.length text
    obtain ⟨q', hq', hemitted⟩ := mapper_loop rand id hsample text.length text.length
      ⟨text, 0, [], [], false⟩ le_rfl le_rfl rfl
    obtain rfl := hreturns.unique hq'
    simp only [if_neg hnil, hq, Option.map_some, Option.getD_some]
    refine ⟨hreturns.map fun p => p.sent ++ [p.obuff], ?_⟩
    rw [List.flatten_append, List.flatten_singleton]
    simpa [LSFileMapper.Progress.emitted] using hemitted

/-- The lines of a file that was written. -/
theorem batches_content (hsample : Double.less sample (Double.ofInt 1) = false) {ts : List Str}
    (hts : ∀ t ∈ ts, newline ∉ t) : (batches sample rand id (content ts)).flatten = slices id 0 ts := by
  rw [(mapper_returns rand id hsample _).2, lines_content hts]
  exact mapped_slices id 0 hts

end Mapper

/-! ### The parser -/

section Parser

variable {Doc : Type} (parse : Str → Option Doc) (sched : Scheduler Doc)

/-- What the scheduler has, and what was sent. -/
def account (r : sched.State × List (List (Parsed Doc))) : Multiset (Parsed Doc) :=
  sched.held r.1 + (r.2.flatten : Multiset (Parsed Doc))

theorem account_handle (s : StringOrigin) (r : sched.State × List (List (Parsed Doc))) :
    account sched (JSONPipelineTextParser.handle parse sched s r) =
      ((JSONPipelineTextParser.parseLine parse s).toList : Multiset (Parsed Doc)) + account sched r := by
  unfold JSONPipelineTextParser.handle
  rcases JSONPipelineTextParser.parseLine parse s with _ | doc
  · exact (zero_add _).symm
  · have hsched := sched.scheduled r.1 doc
    have hsent : ((r.2 ++ (sched.scheduleDocument r.1 doc).2.toList).flatten : Multiset (Parsed Doc)) =
        (((sched.scheduleDocument r.1 doc).2.getD [] : List (Parsed Doc)) : Multiset (Parsed Doc)) +
          (r.2.flatten : Multiset (Parsed Doc)) := by
      rw [add_comm, List.flatten_append, ← Multiset.coe_add]
      congr 2
      rcases (sched.scheduleDocument r.1 doc).2 with _ | cont <;> simp
    dsimp only [account]
    rw [hsent, ← add_assoc, hsched, Option.toList_some, ← Multiset.singleton_add, add_assoc]
    rfl

theorem account_fillBuffer (buff : List StringOrigin) (s : sched.State) :
    account sched (JSONPipelineTextParser.fillBuffer parse sched buff s) =
      (buff.filterMap (JSONPipelineTextParser.parseLine parse) : Multiset (Parsed Doc)) + sched.held s := by
  induction buff with
  | nil => exact (add_zero _).trans (zero_add _).symm
  | cons t buff ih =>
    have hcons : ((t :: buff).filterMap (JSONPipelineTextParser.parseLine parse) :
        Multiset (Parsed Doc)) = ((JSONPipelineTextParser.parseLine parse t).toList : Multiset _) +
          (buff.filterMap (JSONPipelineTextParser.parseLine parse) : Multiset (Parsed Doc)) := by
      rw [List.filterMap_cons, Multiset.coe_add]
      rcases JSONPipelineTextParser.parseLine parse t with _ | doc <;> rfl
    rw [hcons, add_assoc, ← ih]
    exact account_handle parse sched t _

/-- **A parser sends the documents of its lines**, each once. -/
theorem run_flatten : ∀ (buffs : List (List StringOrigin)) (s : sched.State),
    ((JSONPipelineTextParser.run parse sched buffs s).flatten : Multiset (Parsed Doc)) =
      (buffs.flatten.filterMap (JSONPipelineTextParser.parseLine parse) : Multiset (Parsed Doc)) +
        sched.held s
  | [], s => (sched.finalized s).trans (zero_add _).symm
  | buff :: buffs, s => by
    have haccount := account_fillBuffer parse sched buff s
    rw [JSONPipelineTextParser.run, List.flatten_append, ← Multiset.coe_add, run_flatten buffs,
      List.flatten_cons, List.filterMap_append, ← Multiset.coe_add, add_right_comm, ← haccount, account]
    abel

/-- By file and place. -/
def Ordered (c : List (Parsed Doc)) : Prop :=
  c.Pairwise fun i j => i.id < j.id ∨ i.id = j.id ∧ i.start ≤ j.start

/-- **A scheduler that sorts** every container it gives away. -/
structure Sorts (sched : Scheduler Doc) : Prop where
  scheduled : ∀ s d, ∀ c ∈ (sched.scheduleDocument s d).2, Ordered c
  finalized : ∀ s, ∀ c ∈ sched.finalize s, Ordered c

theorem sorted_ordered (docs : List (Parsed Doc)) : Ordered (sorted docs) := by
  refine List.Pairwise.imp of_decide_eq_true (List.pairwise_mergeSort (fun a b c hab hbc => ?_)
    (fun a b => ?_) docs)
  · rw [decide_eq_true_iff] at hab hbc ⊢
    omega
  · rw [Bool.or_eq_true, decide_eq_true_iff, decide_eq_true_iff]
    omega

theorem defaultScheduler_sorts (hasSpace : ℕ → Bool) : Sorts (defaultScheduler Doc hasSpace) := by
  refine ⟨fun s d c hc => ?_, fun s c hc => ?_⟩
  · unfold defaultScheduler at hc
    dsimp only at hc
    split_ifs at hc with hspace
    · cases hc
    · obtain rfl := Option.some.inj hc
      exact sorted_ordered _
  · unfold defaultScheduler at hc
    dsimp only at hc
    split_ifs at hc with hempty
    · cases hc
    · obtain rfl := List.mem_singleton.mp hc
      exact sorted_ordered _

theorem fillBuffer_ordered (h : Sorts sched) (buff : List StringOrigin) (s : sched.State) :
    ∀ c ∈ (JSONPipelineTextParser.fillBuffer parse sched buff s).2, Ordered c := by
  induction buff with
  | nil => exact fun c hc => by cases hc
  | cons t buff ih =>
    intro c hc
    change c ∈ (JSONPipelineTextParser.handle parse sched t
      (JSONPipelineTextParser.fillBuffer parse sched buff s)).2 at hc
    unfold JSONPipelineTextParser.handle at hc
    rcases hparsed : JSONPipelineTextParser.parseLine parse t with _ | doc
    · rw [hparsed] at hc
      exact ih c hc
    · rw [hparsed] at hc
      rcases List.mem_append.mp hc with hc | hc
      · exact ih c hc
      · exact h.scheduled _ _ c (Option.mem_toList.mp hc)

theorem run_ordered (h : Sorts sched) : ∀ (buffs : List (List StringOrigin)) (s : sched.State),
    ∀ c ∈ JSONPipelineTextParser.run parse sched buffs s, Ordered c
  | [], s, c, hc => h.finalized s c hc
  | buff :: buffs, s, c, hc => by
    rcases List.mem_append.mp hc with hc | hc
    · exact fillBuffer_ordered parse sched h buff s c hc
    · exact run_ordered h buffs _ c hc

end Parser

/-! ### All files -/

/-- The lines of files with their numbers. -/
def placed (files : List (ℕ × List Str)) : List StringOrigin :=
  files.flatMap fun file => slices file.1 0 file.2

theorem placed_string (files : List (ℕ × List Str)) :
    (placed files).map StringOrigin.string = (files.map Prod.snd).flatten := by
  induction files with
  | nil => rfl
  | cons file files ih =>
    rw [placed, List.flatMap_cons, List.map_append, slices_string, List.map_cons, List.flatten_cons, ← ih,
      placed]

theorem mem_placed {files : List (ℕ × List Str)} {s : StringOrigin} (h : s ∈ placed files) :
    ∃ file ∈ files, s ∈ slices file.1 0 file.2 :=
  List.mem_flatMap.mp h

theorem slices_id {id offset : ℕ} {ts : List Str} {s : StringOrigin} (h : s ∈ slices id offset ts) :
    s.id = id := by
  obtain ⟨_, _, -, hid, -⟩ := mem_slices h
  exact hid

theorem placed_apart : ∀ {files : List (ℕ × List Str)}, (files.map Prod.fst).Nodup →
    (placed files).Pairwise Apart
  | [], _ => List.Pairwise.nil
  | file :: files, h => by
    rw [List.map_cons, List.nodup_cons] at h
    refine List.pairwise_append.mpr ⟨slices_apart file.1 _ 0, placed_apart h.2, ?_⟩
    intro a ha b hb hid
    obtain ⟨file', hfile', hslice⟩ := mem_placed hb
    rw [slices_id ha, slices_id hslice] at hid
    exact absurd (hid ▸ List.mem_map_of_mem hfile') h.1

/-! ### What is loaded -/

section Filed

variable {V : Type} {json : Json V} {parse : Str → Option V}

theorem write_ne_nil (json : Json V) (v : V) : json.write v ≠ [] := by
  intro h
  have hlt := json.consumes _ _ _ (json.written v [])
  rw [h] at hlt
  exact absurd hlt (lt_irrefl _)

theorem Texts.notMem (h : Texts json parse) (doc : Option V) : newline ∉ text json doc := by
  rcases doc with _ | v
  · exact List.not_mem_nil
  · exact h.noNewline v

/-- A document is parsed from its line, and nothing from an empty one. -/
theorem Texts.parseLine (h : Texts json parse) {s : StringOrigin} {doc : Option V}
    (hs : s.string = text json doc) : JSONPipelineTextParser.parseLine parse s =
      doc.map fun v => ⟨s.id, v, s.start.toNat, s.stop.toNat, s.index⟩ := by
  unfold JSONPipelineTextParser.parseLine
  rw [hs]
  rcases doc with _ | v
  · exact if_pos rfl
  · have hwrite : text json (some v) = json.write v := rfl
    rw [hwrite, if_neg (write_ne_nil json v), cString_eq_self.mpr (h.noZero v), h.parses]

theorem Texts.parse_text (h : Texts json parse) (doc : Option V) :
    (if text json doc = [] then none else parse (cString (text json doc))) = doc := by
  have hline : JSONPipelineTextParser.parseLine parse ⟨0, 0, 0, 0, text json doc⟩ =
      doc.map fun v => ⟨0, v, 0, 0, 0⟩ := h.parseLine rfl
  replace hline := congrArg (Option.map Parsed.doc) hline
  unfold JSONPipelineTextParser.parseLine at hline
  split_ifs at hline ⊢ with hnil
  · simpa [eq_comm] using hline
  · simpa [Option.map_map, Function.comp_def] using hline

/-- A document has the place of its line. -/
theorem parseLine_place {s : StringOrigin} {p : Parsed V}
    (h : JSONPipelineTextParser.parseLine parse s = some p) :
    p.id = s.id ∧ p.start = s.start.toNat ∧ p.stop = s.stop.toNat := by
  unfold JSONPipelineTextParser.parseLine at h
  split_ifs at h with hnil
  obtain ⟨v, -, rfl⟩ := Option.map_eq_some_iff.mp h
  exact ⟨rfl, rfl, rfl⟩

/-- A document is read from its line, which ends with the document and a newline. -/
structure Line (json : Json V) (files : ℕ → Str) (p : Parsed V) : Prop where
  holds : Holds json.toRapidJson files (interval p) p.doc
  close_eq : close json.toRapidJson files (interval p) + 1 = p.stop

theorem Line.start_lt {files : ℕ → Str} {p : Parsed V} (h : Line json files p) :
    p.start + 1 < p.stop := by
  have hlt := h.holds.start_lt
  have hclose := h.close_eq
  change p.start < _ at hlt
  omega

theorem line_written {files : ℕ → Str} {p : Parsed V} (front back : Str)
    (hfile : files p.id = front ++ (json.write p.doc ++ newline :: back))
    (hstart : p.start = front.length) (hstop : p.stop = front.length + (json.write p.doc).length + 1) :
    Line json files p := by
  have hlong : (front ++ json.write p.doc ++ [newline]).length =
      front.length + (json.write p.doc).length + 1 := by
    rw [List.length_append, List.length_append, List.length_singleton]
  have hinterval : interval p = ⟨p.id, front.length, (front ++ json.write p.doc ++ [newline]).length⟩ := by
    rw [hlong, ← hstop, ← hstart]
    rfl
  have hholds : Holds json.toRapidJson files (interval p) p.doc := by
    rw [hinterval]
    refine holds_written ⟨back, ?_⟩
    rw [hfile, List.append_assoc, List.append_assoc]
    rfl
  refine ⟨hholds, ?_⟩
  have hparse : json.parseStream ((files p.id).drop p.start) = .document p.doc (newline :: back) := by
    rw [hfile, hstart, List.drop_left]
    exact json.written p.doc back
  change (files p.id).length - (json.parseStream ((files p.id).drop p.start)).rest.length + 1 = p.stop
  rw [hparse, Outcome.rest, hfile, hstop, List.length_append, List.length_append, List.length_cons]
  omega

/-- **Files that have these documents**: each file has a number of its own, and all their lines are the texts
of the documents. -/
structure Filed (json : Json V) (file : ℕ → Str) (files : List (ℕ × List Str)) (docs : List (Option V)) :
    Prop where
  nodup : (files.map Prod.fst).Nodup
  contents : ∀ f ∈ files, file f.1 = content f.2
  lines : (files.map Prod.snd).flatten.Perm (docs.map (text json))

variable {file : ℕ → Str} {files : List (ℕ × List Str)} {docs : List (Option V)}
  {loaded : List (List (Parsed V))}

/-- **What is loaded** are the documents that are valid. -/
theorem Filed.docs_perm (h : Filed json file files docs) (htexts : Texts json parse)
    (hloaded : loaded.flatten.Perm ((placed files).filterMap (JSONPipelineTextParser.parseLine parse))) :
    (loaded.flatten.map Parsed.doc).Perm docs.reduceOption := by
  have hparse : ∀ s : StringOrigin, (JSONPipelineTextParser.parseLine parse s).map Parsed.doc =
      if s.string = [] then none else parse (cString s.string) := by
    intro s
    unfold JSONPipelineTextParser.parseLine
    split_ifs with hnil
    · rfl
    · rw [Option.map_map]
      exact Option.map_id'
  refine (hloaded.map Parsed.doc).trans ?_
  rw [List.map_filterMap, List.filterMap_congr fun s _ => hparse s]
  have hstrings :
      (placed files).filterMap (fun s => if s.string = [] then none else parse (cString s.string)) =
      ((files.map Prod.snd).flatten).filterMap fun t => if t = [] then none else parse (cString t) := by
    rw [← placed_string, List.filterMap_map]
    rfl
  rw [hstrings]
  refine (h.lines.filterMap _).trans ?_
  rw [List.filterMap_map]
  exact List.Perm.of_eq (congrArg (fun f => docs.filterMap f) (funext htexts.parse_text))

/-- **Where a document comes from.** -/
theorem Filed.line (h : Filed json file files docs) (htexts : Texts json parse) {p : Parsed V}
    (hp : p ∈ (placed files).filterMap (JSONPipelineTextParser.parseLine parse)) : Line json file p := by
  obtain ⟨s, hs, hsp⟩ := List.mem_filterMap.mp hp
  have hstring : s.string ∈ (files.map Prod.snd).flatten := by
    rw [← placed_string]
    exact List.mem_map_of_mem hs
  obtain ⟨doc, -, hdoc⟩ := List.mem_map.mp (h.lines.subset hstring)
  rw [htexts.parseLine hdoc.symm] at hsp
  obtain ⟨v, rfl, rfl⟩ := Option.map_eq_some_iff.mp hsp
  obtain ⟨f, hf, hslice⟩ := mem_placed hs
  obtain ⟨front, back, hts, hid, hstart, hstop⟩ := mem_slices hslice
  have hwrite : s.string = json.write v := hdoc.symm
  rw [Nat.zero_add] at hstart
  rw [hwrite] at hstop
  have hfrom : s.start.toNat = (content front).length := by
    rw [hstart]
    exact Int.toNat_natCast _
  refine line_written (content front) (content back) ?_ hfrom ?_
  · dsimp only
    rw [hid, h.contents f hf, hts, content_append, hwrite]
    congr 1
    exact List.append_assoc _ _ _
  · rw [← hfrom]
    dsimp only
    omega

/-- **No two documents that were loaded overlap.** -/
theorem Filed.apart (h : Filed json file files docs)
    (hloaded : loaded.flatten.Perm ((placed files).filterMap (JSONPipelineTextParser.parseLine parse))) :
    loaded.flatten.Pairwise fun a b : Parsed V => a.id = b.id → a.stop ≤ b.start ∨ b.stop ≤ a.start := by
  refine List.Perm.pairwise hloaded.symm ?_ fun hab hid => (hab hid.symm).symm
  refine List.Pairwise.filterMap _ (fun a b hab p hp q hq hid => ?_) (placed_apart h.nodup)
  obtain ⟨hpid, hpstart, hpstop⟩ := parseLine_place hp
  obtain ⟨hqid, hqstart, hqstop⟩ := parseLine_place hq
  have := hab (by omega)
  omega

/-- **One document lies behind the other.** -/
def Before (a b : Parsed V) : Prop := a.id < b.id ∨ a.id = b.id ∧ a.stop ≤ b.start

/-- **The documents of an ordered container can be read** from where the first one starts. -/
theorem readable_lines {files : ℕ → Str} : ∀ (docs : List (Parsed V)) (a : Parsed V) (stand : ℕ),
    (a :: docs).Pairwise Before → (∀ p ∈ a :: docs, Line json files p) → stand + 1 < a.stop →
    Readable json.toRapidJson files stand ((a :: docs).map interval)
  | [], a, stand, _, hlines, hstand =>
    ⟨hstand, Or.inl (hlines a List.mem_cons_self).close_eq.ge⟩
  | b :: docs, a, stand, hbefore, hlines, hstand => by
    obtain ⟨ha, hb⟩ := List.pairwise_cons.mp hbefore
    obtain ⟨hline, hrest⟩ := List.forall_mem_cons.mp hlines
    have hab := ha b List.mem_cons_self
    have hclose := hline.close_eq
    have hstart := (hrest b List.mem_cons_self).start_lt
    rw [List.map_cons, List.map_cons, Readable]
    split_ifs with hmerges
    · obtain ⟨hid, hle⟩ := hmerges
      change b.id = a.id at hid
      change b.start ≤ a.stop at hle
      have hstop : a.stop ≤ b.start := by
        rcases hab with hlt | ⟨-, hle⟩
        · omega
        · exact hle
      refine ⟨?_, readable_lines docs b _ hb hrest (by omega)⟩
      change close json.toRapidJson files (interval a) ≤ b.start
      omega
    · exact ⟨hstand, Or.inl hclose.ge, readable_lines docs b _ hb hrest hstart⟩

/-- **Evicted documents are read again**: any documents of an ordered container that was loaded, with their
intervals merged. -/
theorem Filed.evicted (h : Filed json file files docs) (htexts : Texts json parse)
    (hloaded : loaded.flatten.Perm ((placed files).filterMap (JSONPipelineTextParser.parseLine parse)))
    {c evicted : List (Parsed V)} (hc : c ∈ loaded) (hordered : Ordered c) (hevicted : evicted.Sublist c) :
    parseIntervals json.toRapidJson file (mergeIntervals (evicted.map interval)) =
      some (evicted.map fun p => some p.doc) := by
  have hflat : c.Sublist loaded.flatten := List.sublist_flatten_of_mem hc
  have hline : ∀ p ∈ evicted, Line json file p := fun p hp =>
    h.line htexts (hloaded.subset (hflat.subset (hevicted.subset hp)))
  have hbefore : evicted.Pairwise Before := by
    have hboth := (((h.apart hloaded).sublist hflat).and hordered).sublist hevicted
    refine (List.Pairwise.and_mem.mp hboth).imp ?_
    rintro a b ⟨-, hb, hab, hle⟩
    have hstart := (hline b hb).start_lt
    rcases hle with hlt | ⟨hid, hle⟩
    · exact Or.inl hlt
    · exact Or.inr ⟨hid, by have := hab hid; omega⟩
  have hholds : List.Forall₂ (Holds json.toRapidJson file) (evicted.map interval)
      (evicted.map Parsed.doc) := by
    rw [List.forall₂_map_left_iff, List.forall₂_map_right_iff, List.forall₂_same]
    exact fun p hp => (hline p hp).holds
  have hreadable : Joda.Storage.FileOrigin.ReadableAll json.toRapidJson file (evicted.map interval) := by
    rcases evicted with _ | ⟨a, evicted⟩
    · exact fun a ha => by cases ha
    · intro i hi
      obtain rfl := Option.some.inj hi
      exact readable_lines evicted a _ hbefore hline (hline a List.mem_cons_self).start_lt
  rw [parseIntervals_merged hholds hreadable, List.map_map]
  rfl

end Filed

end Joda.Export.FileLines
