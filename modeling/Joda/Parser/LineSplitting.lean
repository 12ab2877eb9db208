import Joda.Aggregation.Aggregator
import Joda.Parser.StreamParser

/-! # Splitting a text into lines

Two tasks give every line of a text with its position to the parser: `LSFileMapper` searches a mapped
file for newlines, `LineSeparatedStreamReader` calls `std::getline` on a stream. The first never counts
its index and ends at the last newline; the second ends at an empty line, has no position past the end
of the stream, and after a partial send it uses an output buffer that is empty. So both are right on a
single line with its newline only. -/

namespace Joda.Parser.LineSplitting

open Joda.Lib.Fuel Joda.Values.Value Joda.Parser.StreamParser

variable {F : Type} [Double F]

/-- `'\n'` -/
def newline : UInt8 := 10

/-- A text with its origin; a position that is not known is -1. -/
structure StringOrigin where
  id : ℕ
  start : ℤ
  stop : ℤ
  index : ℕ
  string : Str
  deriving DecidableEq

/-! ### `LSFileMapper` -/

namespace LSFileMapper

def OutBulk : ℕ := 246

/-- The loop: what is left from `begin` on, the output buffer and what was sent. -/
structure Progress where
  left : Str
  lines : ℕ
  obuff : List StringOrigin
  sent : List (List StringOrigin)
  finished : Bool

/-- One iteration; without a newline the loop ends. `index` stays 0. -/
def iteration (sample : F) (rand : ℕ → ℕ) (fileID size : ℕ) (p : Progress) : Progress :=
  match p.left.dropWhile (· ≠ newline) with
  | [] => { p with finished := true }
  | _ :: rest =>
    let line := p.left.takeWhile (· ≠ newline)
    let start : ℤ := (size - p.left.length : ℕ)
    let obuff :=
      if sampledOut sample (rand p.lines) then p.obuff
      else p.obuff ++ [⟨fileID, start, start + line.length + 1, 0, line⟩]
    if OutBulk ≤ obuff.length then
      { left := rest, lines := p.lines + 1, obuff := [], sent := p.sent ++ [obuff], finished := false }
    else { p with left := rest, lines := p.lines + 1, obuff := obuff, finished := false }

/-- **`fillBuffer`** on a file: what it sends and what it leaves in the output buffer. An empty file
cannot be mapped. -/
def fillBuffer (sample : F) (rand : ℕ → ℕ) (fileID n : ℕ) (content : Str) :
    Option (List (List StringOrigin)) :=
  if content = [] then some []
  else (loop (fun p : Progress => !p.finished)
    (fun _ p => some (iteration sample rand fileID content.length p)) n
      ⟨content, 0, [], [], false⟩).map fun p => p.sent ++ [p.obuff]

end LSFileMapper

/-! ### `LineSeparatedStreamReader` -/

namespace LineSeparatedStreamReader

def OutBulk : ℕ := 512

/-- A stream: what is left of it and its state bits. -/
structure IStream where
  left : Str
  eof : Bool
  fail : Bool

/-- `tellg` fails when the end was met. -/
def IStream.tellg (size : ℕ) (s : IStream) : ℤ × IStream :=
  if s.eof || s.fail then (-1, { s with fail := true }) else ((size - s.left.length : ℕ), s)

/-- `std::getline` up to a newline or to the end. -/
def IStream.getline (s : IStream) : Str × IStream :=
  match s.left.dropWhile (· ≠ newline) with
  | [] => (s.left, ⟨[], true, s.left.isEmpty⟩)
  | _ :: rest => (s.left.takeWhile (· ≠ newline), { s with left := rest })

/-- The loop. `undefined` is set when the output buffer is used while it is empty. -/
structure Progress where
  stream : IStream
  index : ℕ
  obuff : Option (List StringOrigin)
  sent : List (List StringOrigin)
  returned : Bool
  undefined : Bool

/-- `obuff->emplace_back`, and a full buffer is sent. -/
def Progress.emplaceBack (o : StringOrigin) (p : Progress) : Progress :=
  match p.obuff with
  | none => { p with undefined := true }
  | some obuff =>
    if OutBulk ≤ obuff.length + 1 then
      { p with index := p.index + 1, obuff := none, sent := p.sent ++ [obuff ++ [o]] }
    else { p with index := p.index + 1, obuff := some (obuff ++ [o]) }

/-- One iteration of `while (!stream->eof())`. -/
def iteration (sample : F) (rand : ℕ → ℕ) (id size : ℕ) (p : Progress) : Progress :=
  let start := p.stream.tellg size
  let got := start.2.getline
  let stop := got.2.tellg size
  let read := { p with stream := stop.2 }
  if got.1 = [] then { read with returned := true }
  else if sampledOut sample (rand p.index) then { read with returned := true }
  else read.emplaceBack ⟨id, start.1, stop.1, p.index, got.1⟩

/-- **`fillBuffer`** on a stream: what it sends and what it leaves in the output buffer. -/
def fillBuffer (sample : F) (rand : ℕ → ℕ) (n : ℕ) (origin : StreamOrigin) :
    Option (List (List StringOrigin)) :=
  match origin.stream, origin.streamOrigin with
  | none, _ => some []
  | some _, none => some []
  | some content, some id =>
    (loop (fun p : Progress => !p.stream.eof && !p.returned && !p.undefined)
      (fun _ p => some (iteration sample rand id content.length p)) n
        ⟨⟨content, false, false⟩, 0, some [], [], false, false⟩).bind fun p =>
          if p.undefined then none else some (p.sent ++ p.obuff.toList)

end LineSeparatedStreamReader

/-! ### The lines with their positions -/

/-- **The lines of a text**, each with its newline; the last one may have none. -/
def lines : Str → List Str
  | [] => []
  | c :: s =>
    if c = newline then [c] :: lines s
    else
      match lines s with
      | [] => [[c]]
      | l :: ls => (c :: l) :: ls

/-- The lines with their positions. -/
def origins (id : ℕ) : ℤ → ℕ → List Str → List StringOrigin
  | _, _, [] => []
  | offset, index, l :: ls =>
    ⟨id, offset, offset + l.length, index, l.takeWhile (· ≠ newline)⟩ ::
      origins id (offset + l.length) (index + 1) ls

section LinesSent

variable (sample : F) (rand : ℕ → ℕ) (id : ℕ) (content : Str)

/-- The mapper gives every line once, in order and with its position. -/
def MapperRight : Prop :=
  ∃ batches, Returns (fun n => LSFileMapper.fillBuffer sample rand id n content) batches ∧
    batches.flatten = origins id 0 0 (lines content)

/-- The reader gives every line once, in order and with its position. -/
def ReaderRight : Prop :=
  ∃ batches,
    Returns (fun n => LineSeparatedStreamReader.fillBuffer sample rand n ⟨some id, some content⟩)
      batches ∧ batches.flatten = origins id 0 0 (lines content)

end LinesSent

/-- **The condition**: the text is empty, or one line that is not empty and ends with a newline. -/
def OneLine (content : Str) : Prop :=
  content = [] ∨ ∃ body, body ≠ [] ∧ newline ∉ body ∧ content = body ++ [newline]

/-! ### Lines -/

theorem lines_newline : ∀ {body : Str} (rest : Str), newline ∉ body →
    lines (body ++ newline :: rest) = (body ++ [newline]) :: lines rest
  | [], rest, _ => by simp [lines]
  | c :: body, rest, h => by
    rw [List.mem_cons, not_or] at h
    obtain ⟨hc, hbody⟩ := h
    rw [List.cons_append, lines, if_neg (Ne.symm hc), lines_newline rest hbody]
    rfl

theorem lines_of_notMem : ∀ {s : Str}, s ≠ [] → newline ∉ s → lines s = [s]
  | [c], _, h => by
    have hc : c ≠ newline := fun hc => h (hc ▸ List.mem_cons_self)
    simp [lines, hc]
  | c :: d :: s, _, h => by
    rw [List.mem_cons, not_or] at h
    obtain ⟨hc, hs⟩ := h
    rw [lines, if_neg (Ne.symm hc), lines_of_notMem (List.cons_ne_nil d s) hs]

/-- A text has no newline, or it is a line and the rest. -/
theorem dropWhile_cases (s : Str) :
    (s.dropWhile (· ≠ newline) = [] ∧ newline ∉ s) ∨
      ∃ rest, s.dropWhile (· ≠ newline) = newline :: rest ∧
        newline ∉ s.takeWhile (· ≠ newline) ∧ s = s.takeWhile (· ≠ newline) ++ newline :: rest := by
  have hsplit := List.takeWhile_append_dropWhile (p := (· ≠ newline)) (l := s)
  rcases hdrop : s.dropWhile (· ≠ newline) with _ | ⟨c, rest⟩
  · refine Or.inl ⟨rfl, fun hmem => ?_⟩
    have hall := List.dropWhile_eq_nil_iff.mp hdrop newline hmem
    simp at hall
  · have hhead := List.head_dropWhile_not (· ≠ newline) (l := s) (by rw [hdrop]; simp)
    simp only [hdrop, List.head_cons, decide_eq_false_iff_not, ne_eq, not_not] at hhead
    subst hhead
    refine Or.inr ⟨rest, rfl, fun hmem => ?_, ?_⟩
    · have hne := List.mem_takeWhile_imp hmem
      simp at hne
    · rw [hdrop] at hsplit
      exact hsplit.symm

theorem lines_eq_nil {s : Str} : lines s = [] ↔ s = [] := by
  constructor
  · intro h
    rcases dropWhile_cases s with ⟨-, hno⟩ | ⟨rest, -, hno, hs⟩
    · by_contra hs
      rw [lines_of_notMem hs hno] at h
      cases h
    · rw [hs, lines_newline rest hno] at h
      cases h
  · rintro rfl
    rfl

theorem takeWhile_line {body : Str} (h : newline ∉ body) :
    (body ++ [newline]).takeWhile (· ≠ newline) = body := by
  rw [List.takeWhile_append_of_pos fun c hc => by
    have hne : c ≠ newline := fun he => h (he ▸ hc)
    simpa using hne]
  simp

/-! ### What the mapper emits -/

/-- The lines that end with a newline, all with index 0. -/
def mapped (id : ℕ) : ℤ → List Str → List StringOrigin
  | _, [] => []
  | offset, l :: ls =>
    if newline ∈ l then
      ⟨id, offset, offset + l.length, 0, l.takeWhile (· ≠ newline)⟩ :: mapped id (offset + l.length) ls
    else []

section Mapper

open LSFileMapper

variable {sample : F} (rand : ℕ → ℕ) (id : ℕ)

/-- What was emitted so far. -/
def LSFileMapper.Progress.emitted (p : Progress) : List StringOrigin := p.sent.flatten ++ p.obuff

/-- **An iteration with a newline** emits the line. -/
theorem iteration_newline (hsample : Double.less sample (Double.ofInt 1) = false) (size : ℕ)
    {p : LSFileMapper.Progress} {rest : Str}
    (hdrop : p.left.dropWhile (· ≠ newline) = newline :: rest) :
    ∃ q : LSFileMapper.Progress, LSFileMapper.iteration sample rand id size p = q ∧ q.left = rest ∧
      q.finished = false ∧ q.emitted = p.emitted ++ [⟨id, (size - p.left.length : ℕ),
        (size - p.left.length : ℕ) + (p.left.takeWhile (· ≠ newline)).length + 1, 0,
        p.left.takeWhile (· ≠ newline)⟩] := by
  have hout : sampledOut sample (rand p.lines) = false := by
    rw [sampledOut, hsample, Bool.false_and]
  refine ⟨_, rfl, ?_⟩
  unfold LSFileMapper.iteration
  rw [hdrop]
  simp only [hout, Bool.false_eq_true, if_false]
  split_ifs with hbulk
  · refine ⟨rfl, rfl, ?_⟩
    simp [Progress.emitted]
  · refine ⟨rfl, rfl, ?_⟩
    simp [Progress.emitted]

/-- **The loop** emits the lines that end with a newline. -/
theorem mapper_loop (hsample : Double.less sample (Double.ofInt 1) = false) (size : ℕ) :
    ∀ (k : ℕ) (p : LSFileMapper.Progress), p.left.length ≤ k → p.left.length ≤ size →
      p.finished = false → ∃ q, Returns (fun n => loop (fun p : LSFileMapper.Progress => !p.finished)
        (fun _ p => some (LSFileMapper.iteration sample rand id size p)) n p) q ∧
          q.emitted = p.emitted ++ mapped id (size - p.left.length : ℕ) (lines p.left) := by
  intro k
  induction k with
  | zero =>
    intro p hk _ hp
    have hleft : p.left = [] := List.length_eq_zero_iff.mp (Nat.le_zero.mp hk)
    refine ⟨{ p with finished := true }, ?_, ?_⟩
    · refine loop_returns_of_body (by rw [hp]; rfl) (.pure _) ?_
      have hstop : LSFileMapper.iteration sample rand id size p = { p with finished := true } := by
        unfold LSFileMapper.iteration
        rw [hleft]
        rfl
      rw [hstop]
      exact loop_returns_of_not rfl
    · rw [hleft]
      exact (List.append_nil _).symm
  | succ k ih =>
    intro p hk hsize hp
    rcases dropWhile_cases p.left with ⟨hdrop, hno⟩ | ⟨rest, hdrop, hno, hleft⟩
    · refine ⟨{ p with finished := true }, ?_, ?_⟩
      · refine loop_returns_of_body (by rw [hp]; rfl) (.pure _) ?_
        have hstop : LSFileMapper.iteration sample rand id size p = { p with finished := true } := by
          unfold LSFileMapper.iteration
          rw [hdrop]
        rw [hstop]
        exact loop_returns_of_not rfl
      · have hnone : mapped id (size - p.left.length : ℕ) (lines p.left) = [] := by
          by_cases hnil : p.left = []
          · rw [hnil]
            rfl
          · rw [lines_of_notMem hnil hno, mapped, if_neg hno]
        rw [hnone, List.append_nil]
        rfl
    · obtain ⟨q, hq, hrest, hfin, hemitted⟩ := iteration_newline rand id hsample size hdrop
      have hlen : p.left.length = (p.left.takeWhile (· ≠ newline)).length + (rest.length + 1) := by
        have := congrArg List.length hleft
        rwa [List.length_append, List.length_cons] at this
      obtain ⟨r, hr, hr'⟩ := ih q (by rw [hrest]; omega) (by rw [hrest]; omega) hfin
      refine ⟨r, ?_, ?_⟩
      · refine loop_returns_of_body (by rw [hp]; rfl) (.pure _) ?_
        rw [hq]
        exact hr
      · have hoffset : ((size - p.left.length : ℕ) : ℤ) +
            ((p.left.takeWhile (· ≠ newline) ++ [newline]).length : ℕ) = (size - rest.length : ℕ) := by
          rw [List.length_append, List.length_singleton]
          omega
        have hstop : ((size - p.left.length : ℕ) : ℤ) +
            (p.left.takeWhile (· ≠ newline)).length + 1 = (size - rest.length : ℕ) := by omega
        rw [hr', hemitted, hrest, List.append_assoc]
        conv_rhs => rw [hleft]
        rw [lines_newline rest hno, mapped, if_pos (by simp), takeWhile_line hno, ← hleft, hoffset,
          hstop]
        rfl

theorem mapperRight_iff_mapped (hsample : Double.less sample (Double.ofInt 1) = false)
    (content : Str) : MapperRight sample rand id content ↔
      mapped id 0 (lines content) = origins id 0 0 (lines content) := by
  by_cases hnil : content = []
  · subst hnil
    refine ⟨fun _ => rfl, fun _ => ⟨[], ?_, rfl⟩⟩
    exact .pure []
  · obtain ⟨q, hq, hemitted⟩ := mapper_loop rand id hsample content.length content.length
      ⟨content, 0, [], [], false⟩ le_rfl le_rfl rfl
    have hreturns : Returns (fun n => LSFileMapper.fillBuffer sample rand id n content)
        (q.sent ++ [q.obuff]) := by
      obtain ⟨N, hN⟩ := hq.map fun p : LSFileMapper.Progress => p.sent ++ [p.obuff]
      refine ⟨N, fun n hn => ?_⟩
      show LSFileMapper.fillBuffer sample rand id n content = _
      unfold LSFileMapper.fillBuffer
      rw [if_neg hnil]
      exact hN n hn
    have hflat : (q.sent ++ [q.obuff]).flatten = mapped id 0 (lines content) := by
      rw [List.flatten_append, List.flatten_singleton]
      simpa [Progress.emitted] using hemitted
    constructor
    · rintro ⟨batches, hbatches, hright⟩
      rw [← hflat, hreturns.unique hbatches, hright]
    · exact fun h => ⟨_, hreturns, hflat.trans h⟩

/-- The index and the last line are right for a single line. -/
theorem mapped_eq_iff (ls : List Str) : mapped id 0 ls = origins id 0 0 ls ↔
    ls = [] ∨ ∃ l, ls = [l] ∧ newline ∈ l := by
  rcases ls with _ | ⟨l, ls⟩
  · simp [mapped, origins]
  · by_cases hl : newline ∈ l
    · rcases ls with _ | ⟨l', ls⟩
      · simp [mapped, origins, hl]
      · by_cases hl' : newline ∈ l'
        · simp [mapped, origins, hl, hl']
        · simp [mapped, origins, hl, hl']
    · simp [mapped, origins, hl]

end Mapper

/-! ### What the reader emits -/

/-- The lines up to an empty one or to one without newline, of which the end is not known. `room` has
the number of elements in the output buffer, if there is one; there is nothing where it is missing. -/
def read (id : ℕ) : Option ℕ → ℤ → ℕ → List Str → Option (List StringOrigin)
  | _, _, _, [] => some []
  | none, _, _, l :: _ => if l = [newline] then some [] else none
  | some k, offset, index, l :: ls =>
    if l = [newline] then some []
    else if newline ∈ l then
      (read id (if LineSeparatedStreamReader.OutBulk ≤ k + 1 then none else some (k + 1))
        (offset + l.length) (index + 1) ls).map fun origins =>
          ⟨id, offset, offset + l.length, index, l.takeWhile (· ≠ newline)⟩ :: origins
    else some [⟨id, offset, -1, index, l⟩]

section Reader

open LineSeparatedStreamReader

variable {sample : F} (rand : ℕ → ℕ) (id : ℕ)

/-- What was emitted so far. -/
def LineSeparatedStreamReader.Progress.emitted (p : LineSeparatedStreamReader.Progress) :
    List StringOrigin := p.sent.flatten ++ p.obuff.getD []

/-- What the loop comes to: nothing that is defined, or what is emitted on top. -/
def Ends (before : List StringOrigin) (out : Option (List StringOrigin))
    (q : LineSeparatedStreamReader.Progress) : Prop :=
  match out with
  | none => q.undefined = true
  | some out => q.undefined = false ∧ q.emitted = before ++ out

theorem Ends.cons {before : List StringOrigin} {o : StringOrigin} {out : Option (List StringOrigin)}
    {q : LineSeparatedStreamReader.Progress} (h : Ends (before ++ [o]) out q) :
    Ends before (out.map fun origins => o :: origins) q := by
  rcases out with _ | out
  · exact h
  · exact ⟨h.1, h.2.trans (List.append_assoc _ _ _)⟩

/-- **An iteration at the last line**, which has no newline. -/
theorem iteration_last (hsample : Double.less sample (Double.ofInt 1) = false) (size : ℕ)
    {p : LineSeparatedStreamReader.Progress} {s : Str} (hp : p.stream = ⟨s, false, false⟩)
    (hno : newline ∉ s) :
    LineSeparatedStreamReader.iteration sample rand id size p =
      if s = [] then { p with stream := ⟨[], true, true⟩, returned := true }
      else { p with stream := ⟨[], true, true⟩ }.emplaceBack
        ⟨id, (size - s.length : ℕ), -1, p.index, s⟩ := by
  have hout : sampledOut sample (rand p.index) = false := by
    rw [sampledOut, hsample, Bool.false_and]
  have hdrop : s.dropWhile (· ≠ newline) = [] := by
    rcases dropWhile_cases s with ⟨hdrop, -⟩ | ⟨rest, -, -, hs⟩
    · exact hdrop
    · exact absurd (hs ▸ List.mem_append_right _ List.mem_cons_self) hno
  have hstart : (⟨s, false, false⟩ : IStream).tellg size =
      (((size - s.length : ℕ) : ℤ), (⟨s, false, false⟩ : IStream)) := rfl
  have hgot : (⟨s, false, false⟩ : IStream).getline = (s, ⟨[], true, s.isEmpty⟩) := by
    unfold IStream.getline
    simp only [hdrop]
  have hstop : (⟨[], true, s.isEmpty⟩ : IStream).tellg size = (-1, ⟨[], true, true⟩) := rfl
  unfold LineSeparatedStreamReader.iteration
  simp only [hp, hstart, hgot, hstop, hout, Bool.false_eq_true, if_false]

/-- **An iteration at a line with its newline.** -/
theorem iteration_line (hsample : Double.less sample (Double.ofInt 1) = false) (size : ℕ)
    {p : LineSeparatedStreamReader.Progress} {s rest : Str} (hp : p.stream = ⟨s, false, false⟩)
    (hdrop : s.dropWhile (· ≠ newline) = newline :: rest) :
    LineSeparatedStreamReader.iteration sample rand id size p =
      if s.takeWhile (· ≠ newline) = [] then
        { p with stream := ⟨rest, false, false⟩, returned := true }
      else { p with stream := ⟨rest, false, false⟩ }.emplaceBack
        ⟨id, (size - s.length : ℕ), (size - rest.length : ℕ), p.index, s.takeWhile (· ≠ newline)⟩ := by
  have hout : sampledOut sample (rand p.index) = false := by
    rw [sampledOut, hsample, Bool.false_and]
  have hstart : (⟨s, false, false⟩ : IStream).tellg size =
      (((size - s.length : ℕ) : ℤ), (⟨s, false, false⟩ : IStream)) := rfl
  have hgot : (⟨s, false, false⟩ : IStream).getline =
      (s.takeWhile (· ≠ newline), ⟨rest, false, false⟩) := by
    unfold IStream.getline
    simp only [hdrop]
  have hstop : (⟨rest, false, false⟩ : IStream).tellg size =
      (((size - rest.length : ℕ) : ℤ), (⟨rest, false, false⟩ : IStream)) := rfl
  unfold LineSeparatedStreamReader.iteration
  simp only [hp, hstart, hgot, hstop, hout, Bool.false_eq_true, if_false]

/-- The loop of the reader. -/
def readerLoop (sample : F) (size n : ℕ) (p : LineSeparatedStreamReader.Progress) :
    Option LineSeparatedStreamReader.Progress :=
  loop (fun p : LineSeparatedStreamReader.Progress => !p.stream.eof && !p.returned && !p.undefined)
    (fun _ p => some (LineSeparatedStreamReader.iteration sample rand id size p)) n p

/-- Where the next iteration is the last one. -/
theorem readerLoop_last {size : ℕ} {p q : LineSeparatedStreamReader.Progress}
    (hp : (!p.stream.eof && !p.returned && !p.undefined) = true)
    (hq : LineSeparatedStreamReader.iteration sample rand id size p = q)
    (hstop : (!q.stream.eof && !q.returned && !q.undefined) = false) :
    Returns (fun n => readerLoop rand id sample size n p) q := by
  refine loop_returns_of_body hp (.pure _) ?_
  rw [hq]
  exact loop_returns_of_not hstop

/-- **The loop** emits what `read` says. -/
theorem reader_loop (hsample : Double.less sample (Double.ofInt 1) = false) (size : ℕ) :
    ∀ (k : ℕ) (s : Str) (index : ℕ) (obuff : Option (List StringOrigin))
      (sent : List (List StringOrigin)), s.length ≤ k → s.length ≤ size →
      ∃ q, Returns (fun n => readerLoop rand id sample size n
          ⟨⟨s, false, false⟩, index, obuff, sent, false, false⟩) q ∧
        Ends (sent.flatten ++ obuff.getD [])
          (read id (obuff.map List.length) (size - s.length : ℕ) index (lines s)) q := by
  intro k
  induction k with
  | zero =>
    intro s index obuff sent hk _
    obtain rfl := List.length_eq_zero_iff.mp (Nat.le_zero.mp hk)
    have hiter := iteration_last rand id hsample size
      (p := ⟨⟨[], false, false⟩, index, obuff, sent, false, false⟩) rfl List.not_mem_nil
    rw [if_pos rfl] at hiter
    exact ⟨_, readerLoop_last rand id rfl hiter rfl, rfl, (List.append_nil _).symm⟩
  | succ k ih =>
    intro s index obuff sent hk hsize
    rcases dropWhile_cases s with ⟨-, hno⟩ | ⟨rest, hdrop, hno, hs⟩
    · have hiter := iteration_last rand id hsample size
        (p := ⟨⟨s, false, false⟩, index, obuff, sent, false, false⟩) rfl hno
      by_cases hnil : s = []
      · rw [if_pos hnil] at hiter
        refine ⟨_, readerLoop_last rand id rfl hiter rfl, ?_⟩
        rw [hnil]
        exact ⟨rfl, (List.append_nil _).symm⟩
      · rw [if_neg hnil] at hiter
        have hne : s ≠ [newline] := by
          rintro rfl
          exact hno List.mem_cons_self
        rw [lines_of_notMem hnil hno]
        rcases obuff with _ | b
        · refine ⟨_, readerLoop_last rand id rfl hiter rfl, ?_⟩
          rw [Option.map_none, read, if_neg hne]
          rfl
        · simp only [Progress.emplaceBack] at hiter
          refine ⟨_, readerLoop_last rand id rfl hiter (by split_ifs <;> rfl), ?_⟩
          rw [Option.map_some, read, if_neg hne, if_neg hno]
          split_ifs with hbulk
          · exact ⟨rfl, by simp [Progress.emitted]⟩
          · exact ⟨rfl, by simp [Progress.emitted]⟩
    · have hiter := iteration_line rand id hsample size
        (p := ⟨⟨s, false, false⟩, index, obuff, sent, false, false⟩) rfl hdrop
      have hlen : s.length = (s.takeWhile (· ≠ newline)).length + (rest.length + 1) := by
        have := congrArg List.length hs
        rwa [List.length_append, List.length_cons] at this
      have hlines : lines s = (s.takeWhile (· ≠ newline) ++ [newline]) :: lines rest := by
        conv_lhs => rw [hs]
        exact lines_newline rest hno
      rw [hlines]
      by_cases hnil : s.takeWhile (· ≠ newline) = []
      · rw [if_pos hnil] at hiter
        refine ⟨_, readerLoop_last rand id rfl hiter rfl, ?_⟩
        have hempty : read id (obuff.map List.length) (size - s.length : ℕ) index
            ((s.takeWhile (· ≠ newline) ++ [newline]) :: lines rest) = some [] := by
          rw [hnil]
          rcases obuff with _ | b <;> rfl
        rw [hempty]
        exact ⟨rfl, (List.append_nil _).symm⟩
      · rw [if_neg hnil] at hiter
        have hne : s.takeWhile (· ≠ newline) ++ [newline] ≠ [newline] := by
          intro h
          exact hnil (List.append_left_eq_self.mp h)
        rcases obuff with _ | b
        · refine ⟨_, readerLoop_last rand id rfl hiter rfl, ?_⟩
          rw [Option.map_none, read, if_neg hne]
          rfl
        · have hoffset : ((size - s.length : ℕ) : ℤ) +
              (s.takeWhile (· ≠ newline) ++ [newline]).length = (size - rest.length : ℕ) := by
            rw [List.length_append, List.length_singleton]
            omega
          simp only [Progress.emplaceBack] at hiter
          rw [Option.map_some, read, if_neg hne, if_pos (List.mem_append_right _ List.mem_cons_self),
            hoffset, takeWhile_line hno]
          by_cases hbulk : OutBulk ≤ b.length + 1
          · rw [if_pos hbulk] at hiter ⊢
            obtain ⟨q, hq, hends⟩ := ih rest (index + 1) none _ (by omega) (by omega)
            refine ⟨q, loop_returns_of_body rfl (.pure _) (by rw [hiter]; exact hq), Ends.cons ?_⟩
            rw [List.flatten_append, List.flatten_singleton, Option.getD_none, List.append_nil,
              ← List.append_assoc] at hends
            exact hends
          · rw [if_neg hbulk] at hiter ⊢
            obtain ⟨q, hq, hends⟩ := ih rest (index + 1) (some _) sent (by omega) (by omega)
            refine ⟨q, loop_returns_of_body rfl (.pure _) (by rw [hiter]; exact hq), Ends.cons ?_⟩
            rw [Option.map_some, List.length_append, List.length_singleton, Option.getD_some,
              ← List.append_assoc] at hends
            exact hends

theorem readerRight_iff_read (hsample : Double.less sample (Double.ofInt 1) = false) (content : Str) :
    ReaderRight sample rand id content ↔
      read id (some 0) 0 0 (lines content) = some (origins id 0 0 (lines content)) := by
  obtain ⟨q, hq, hends⟩ := reader_loop rand id hsample content.length content.length content 0
    (some []) [] le_rfl le_rfl
  have hzero : ((content.length - content.length : ℕ) : ℤ) = 0 := by rw [Nat.sub_self]; rfl
  rw [hzero] at hends
  have hflat : (q.sent ++ q.obuff.toList).flatten = q.emitted := by
    rw [List.flatten_append, Progress.emitted]
    rcases q.obuff with _ | b <;> simp
  have hfill : ∀ n, LineSeparatedStreamReader.fillBuffer sample rand n ⟨some id, some content⟩ =
      (readerLoop rand id sample content.length n
        ⟨⟨content, false, false⟩, 0, some [], [], false, false⟩).bind fun p =>
          if p.undefined then none else some (p.sent ++ p.obuff.toList) := fun _ => rfl
  rcases hread : read id (some 0) 0 0 (lines content) with _ | out
  · rw [List.flatten_nil, Option.getD_some, Option.map_some, List.length_nil, hread] at hends
    refine ⟨?_, fun h => by cases h⟩
    rintro ⟨batches, ⟨n, hn⟩, -⟩
    obtain ⟨N, hN⟩ := hq
    have hlarge : LineSeparatedStreamReader.fillBuffer sample rand (max n N)
        ⟨some id, some content⟩ = some batches := hn (max n N) (le_max_left _ _)
    have hundef : q.undefined = true := hends
    have hloop := hN (max n N) (le_max_right _ _)
    dsimp only at hloop
    rw [hfill, hloop, Option.bind_some, if_pos hundef] at hlarge
    cases hlarge
  · rw [List.flatten_nil, Option.getD_some, Option.map_some, List.length_nil, hread] at hends
    obtain ⟨hdef, hemitted⟩ := hends
    have hreturns : Returns (fun n => LineSeparatedStreamReader.fillBuffer sample rand n
        ⟨some id, some content⟩) (q.sent ++ q.obuff.toList) := by
      refine hq.bind (g := fun _ p => if p.undefined then none else some (p.sent ++ p.obuff.toList)) ?_
      rw [hdef]
      exact .pure _
    constructor
    · rintro ⟨batches, hbatches, hright⟩
      rw [← hright, ← hreturns.unique hbatches, hflat, hemitted]
      rfl
    · intro h
      obtain rfl := Option.some.inj h
      exact ⟨_, hreturns, hflat.trans hemitted⟩

/-- Without an output buffer there may be no line. -/
theorem read_none_iff (offset : ℤ) (index : ℕ) (ls : List Str) :
    read id none offset index ls = some (origins id offset index ls) ↔ ls = [] := by
  rcases ls with _ | ⟨l, ls⟩
  · simp [read, origins]
  · rw [read]
    split_ifs <;> simp [origins]

/-- **The reader is right** on lines that are not empty and end with a newline, as many as the output
buffer takes. -/
theorem read_eq_iff : ∀ (ls : List Str) (k : ℕ) (offset : ℤ) (index : ℕ), 0 ≤ offset → k < OutBulk →
    (read id (some k) offset index ls = some (origins id offset index ls) ↔
      (∀ l ∈ ls, newline ∈ l ∧ l ≠ [newline]) ∧ k + ls.length ≤ OutBulk)
  | [], k, offset, index, _, hk => by simp [read, origins, hk.le]
  | l :: ls, k, offset, index, hoffset, hk => by
    rw [read, origins, List.forall_mem_cons, List.length_cons]
    by_cases hempty : l = [newline]
    · simp [hempty]
    · by_cases hl : newline ∈ l
      · rw [if_neg hempty, if_pos hl]
        have hinj : ∀ out : Option (List StringOrigin), (out.map fun origins =>
            (⟨id, offset, offset + l.length, index, l.takeWhile (· ≠ newline)⟩ : StringOrigin) ::
              origins) = some (⟨id, offset, offset + l.length, index,
                l.takeWhile (· ≠ newline)⟩ :: origins id (offset + l.length) (index + 1) ls) ↔
            out = some (origins id (offset + l.length) (index + 1) ls) := by
          intro out
          rcases out with _ | out
          · simp
          · simp
        rw [hinj]
        by_cases hbulk : OutBulk ≤ k + 1
        · rw [if_pos hbulk, read_none_iff]
          constructor
          · rintro rfl
            exact ⟨⟨⟨hl, hempty⟩, by simp⟩, by simpa using Nat.succ_le_of_lt hk⟩
          · rintro ⟨-, hlen⟩
            exact List.length_eq_zero_iff.mp (by omega)
        · rw [if_neg hbulk, read_eq_iff ls (k + 1) _ _ (by omega) (by omega)]
          constructor
          · rintro ⟨hall, hlen⟩
            exact ⟨⟨⟨hl, hempty⟩, hall⟩, by omega⟩
          · rintro ⟨⟨-, hall⟩, hlen⟩
            exact ⟨hall, by omega⟩
      · rw [if_neg hempty, if_neg hl]
        constructor
        · intro h
          have hhead := (List.cons.inj (Option.some.inj h)).1
          have hstop : (-1 : ℤ) = offset + l.length := (StringOrigin.mk.inj hhead).2.2.1
          omega
        · rintro ⟨⟨⟨hmem, -⟩, -⟩, -⟩
          exact absurd hmem hl

end Reader

/-! ### Both -/

/-- A text of one line. -/
theorem lines_singleton_iff {content : Str} : (∃ l, lines content = [l] ∧ newline ∈ l ∧ l ≠ [newline]) ↔
    ∃ body, body ≠ [] ∧ newline ∉ body ∧ content = body ++ [newline] := by
  constructor
  · rintro ⟨l, hl, hmem, hne⟩
    rcases dropWhile_cases content with ⟨-, hno⟩ | ⟨rest, -, hno, hs⟩
    · by_cases hnil : content = []
      · rw [hnil] at hl
        cases hl
      · rw [lines_of_notMem hnil hno] at hl
        obtain rfl := (List.cons.inj hl).1
        exact absurd hmem hno
    · rw [hs, lines_newline rest hno] at hl
      obtain ⟨rfl, hrest⟩ := List.cons.inj hl
      rw [lines_eq_nil.mp hrest] at hs
      refine ⟨_, fun hnil => hne ?_, hno, hs⟩
      rw [hnil, List.nil_append]
  · rintro ⟨body, hbody, hno, rfl⟩
    refine ⟨body ++ [newline], lines_newline [] hno, by simp, fun h => ?_⟩
    exact hbody (List.append_left_eq_self.mp h)

/-- **Line splitting is right**, with both tasks, exactly on the empty text and on a single line that is
not empty and ends with a newline. The mapper alone is right on every single line with its newline, the
reader on lines that are not empty, all with their newlines, as many as its output buffer takes. -/
theorem lineSplitting_iff (sample : F) (hsample : Double.less sample (Double.ofInt 1) = false)
    (rand : ℕ → ℕ) (id : ℕ) (content : Str) :
    (MapperRight sample rand id content ∧ ReaderRight sample rand id content ↔ OneLine content) ∧
      (MapperRight sample rand id content ↔ content = [] ∨ ∃ l, lines content = [l] ∧ newline ∈ l) ∧
      (ReaderRight sample rand id content ↔ (∀ l ∈ lines content, newline ∈ l ∧ l ≠ [newline]) ∧
        (lines content).length ≤ LineSeparatedStreamReader.OutBulk) := by
  have hmapper : MapperRight sample rand id content ↔
      content = [] ∨ ∃ l, lines content = [l] ∧ newline ∈ l := by
    rw [mapperRight_iff_mapped rand id hsample, mapped_eq_iff, lines_eq_nil]
  have hreader : ReaderRight sample rand id content ↔
      (∀ l ∈ lines content, newline ∈ l ∧ l ≠ [newline]) ∧
        (lines content).length ≤ LineSeparatedStreamReader.OutBulk := by
    rw [readerRight_iff_read rand id hsample, read_eq_iff id _ 0 0 0 le_rfl (by decide), Nat.zero_add]
  refine ⟨?_, hmapper, hreader⟩
  rw [hmapper, hreader, OneLine, ← lines_singleton_iff]
  constructor
  · rintro ⟨hnil | ⟨l, hl, hmem⟩, hall, -⟩
    · exact Or.inl hnil
    · exact Or.inr ⟨l, hl, hmem, (hall l (by rw [hl]; exact List.mem_cons_self)).2⟩
  · rintro (rfl | ⟨l, hl, hmem, hne⟩)
    · exact ⟨Or.inl rfl, by simp [lines], by decide⟩
    · rw [hl]
      refine ⟨Or.inr ⟨l, rfl, hmem⟩, fun l' hl' => ?_, Nat.le_of_ble_eq_true rfl⟩
      obtain rfl := List.mem_singleton.mp hl'
      exact ⟨hmem, hne⟩

theorem lineSplitting_iff_object :
    (MapperRight (1 : ℚ) (fun _ => 0) 0 (ascii "\x7b\x7d\n") ∧
      ReaderRight (1 : ℚ) (fun _ => 0) 0 (ascii "\x7b\x7d\n") ↔ OneLine (ascii "\x7b\x7d\n")) :=
  (lineSplitting_iff (1 : ℚ) (by simp [Double.less, Double.ofInt]) (fun _ => 0) 0
    (ascii "\x7b\x7d\n")).1

/-- The mapper does not give a line without newline. -/
theorem unterminated_line : ¬ ∀ content : Str, MapperRight (1 : ℚ) (fun _ => 0) 0 content := by
  intro h
  have hsample : Double.less (1 : ℚ) (Double.ofInt 1) = false := by simp [Double.less, Double.ofInt]
  have hmapped := (mapperRight_iff_mapped (fun _ => 0) 0 hsample (ascii "\x7b\x7d")).mp
    (h (ascii "\x7b\x7d"))
  exact absurd hmapped (by decide)

end Joda.Parser.LineSplitting
