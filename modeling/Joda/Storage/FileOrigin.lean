import Joda.Parser.StreamParser

/-! # Intervals of files

A document that was evicted is read again from its file. The intervals of the missing documents are
merged where they touch (`mergeIntervals`), and each interval is parsed from where the stream stands up
to its last byte (`parseIntervals`). So the documents come back, one for each interval, as long as they
lie one behind the other (`Readable`): `parseIntervals_merged`. -/

namespace Joda.Storage.FileOrigin

open Joda.Values.Value Joda.Parser.StreamParser

variable {V : Type}

/-! ### `FileOrigin` -/

def newline : UInt8 := 10

/-- **What is assumed of RapidJSON** when documents are written and read again: whitespace before a
document is skipped, and what was written is read as it was, up to the newline behind it. -/
structure Json (V : Type) extends RapidJson V where
  write : V → Str
  skips : ∀ c s, isWhitespace c = true → parseStream (c :: s) = parseStream s
  written : ∀ v s, parseStream (write v ++ newline :: s) = .document v (newline :: s)

structure ParseInterval where
  file : ℕ
  start : ℕ
  stop : ℕ
deriving DecidableEq

/-- The loop of `mergeIntervals`, after the last interval of the result. -/
def mergeAfter (last_interval : ParseInterval) : List ParseInterval → List ParseInterval
  | [] => [last_interval]
  | new_interval :: intervals =>
    if new_interval.file = last_interval.file ∧ new_interval.start ≤ last_interval.stop then
      mergeAfter { last_interval with stop := max last_interval.stop new_interval.stop } intervals
    else last_interval :: mergeAfter new_interval intervals

/-- `FileOrigin::mergeIntervals` -/
def mergeIntervals : List ParseInterval → List ParseInterval
  | [] => []
  | interval :: intervals => mergeAfter interval intervals

/-- `while (isw.Tell() < start) isw.Take()`: at the end of the file it never ends. -/
def skipTo (size start : ℕ) (left : Str) : Option Str :=
  if size < start then none else some (left.drop (start - (size - left.length)))

/-- The documents of an interval: `isw.Tell() < stop - 1` in `size_t`. There are no more iterations
than bytes left, as one that takes nothing comes again for ever. -/
def parseInterval (json : RapidJson V) (size stop : ℕ) : ℕ → Str → Option (List (Option V) × Str)
  | 0, _ => none
  | n + 1, left =>
    if stop = 0 ∨ size - left.length + 1 < stop then
      match json.parseStream left with
      | .document v rest => (parseInterval json size stop n rest).map fun r => (some v :: r.1, r.2)
      | .empty rest => parseInterval json size stop n rest
      | .error rest => (parseInterval json size stop n rest).map fun r => (none :: r.1, r.2)
    else some ([], left)

/-- The loop of `parseIntervals`, with the file that is open and what is left of it. -/
def parseFrom (json : RapidJson V) (files : ℕ → Str) :
    ℕ × Str → List ParseInterval → Option (List (Option V))
  | _, [] => some []
  | (lastFile, left), interval :: intervals =>
    (skipTo (files interval.file).length interval.start
      (if lastFile = interval.file then left else files interval.file)).bind fun left =>
      (parseInterval json (files interval.file).length interval.stop (left.length + 1) left).bind
        fun r => (parseFrom json files (interval.file, r.2) intervals).map fun ret => r.1 ++ ret

/-- `FileOrigin::parseIntervals`, `none` where it does not end. -/
def parseIntervals (json : RapidJson V) (files : ℕ → Str) :
    List ParseInterval → Option (List (Option V))
  | [] => some []
  | interval :: intervals =>
    parseFrom json files (interval.file, files interval.file) (interval :: intervals)

/-! ### Documents in files -/

/-- Where the parser stops behind the document of an interval. -/
def close (json : RapidJson V) (files : ℕ → Str) (a : ParseInterval) : ℕ :=
  (files a.file).length - (json.parseStream ((files a.file).drop a.start)).rest.length

/-- **A document is read from its interval**, and there is only whitespace behind it. -/
structure Holds (json : RapidJson V) (files : ℕ → Str) (a : ParseInterval) (v : V) : Prop where
  reads : ∃ rest, json.parseStream ((files a.file).drop a.start) = .document v rest
  close_le : close json files a ≤ a.stop
  stop_le : a.stop ≤ (files a.file).length
  blank : ∀ c ∈ ((files a.file).drop (close json files a)).take (a.stop - close json files a),
    isWhitespace c = true

/-- No other document is looked for in the interval: it ends with the document or a byte later, or
there is only whitespace up to the end of the file. -/
def Closed (json : RapidJson V) (files : ℕ → Str) (a : ParseInterval) : Prop :=
  a.stop ≤ close json files a + 1 ∨
    ∀ c ∈ (files a.file).drop (close json files a), isWhitespace c = true

def Merges (a b : ParseInterval) : Prop := b.file = a.file ∧ b.start ≤ a.stop

instance (a b : ParseInterval) : Decidable (Merges a b) := instDecidableAnd

/-- **The documents lie one behind the other**, from where the stream stands: the intervals that touch
are those of documents that follow each other, and the others have more than a byte and nothing but
their document. -/
def Readable (json : RapidJson V) (files : ℕ → Str) : ℕ → List ParseInterval → Prop
  | _, [] => True
  | stand, [a] => stand + 1 < a.stop ∧ Closed json files a
  | stand, a :: b :: intervals =>
    if Merges a b then
      close json files a ≤ b.start ∧ Readable json files (close json files a) (b :: intervals)
    else
      stand + 1 < a.stop ∧ Closed json files a ∧ Readable json files b.start (b :: intervals)

/-- From where the first document starts. -/
def ReadableAll (json : RapidJson V) (files : ℕ → Str) (intervals : List ParseInterval) : Prop :=
  ∀ a ∈ intervals.head?, Readable json files a.start intervals

/-! ### What is read -/

variable {json : Json V} {files : ℕ → Str} {a b : ParseInterval} {v w : V}

theorem parse_blank (json : Json V) {s : Str} (t : Str) (h : ∀ c ∈ s, isWhitespace c = true) :
    json.parseStream (s ++ t) = json.parseStream t := by
  induction s with
  | nil => rfl
  | cons c s ih =>
    rw [List.cons_append, json.skips c _ (h c List.mem_cons_self)]
    exact ih fun d hd => h d (List.mem_cons_of_mem c hd)

theorem parse_nil : json.parseStream [] = .empty [] := by
  obtain ⟨rest, hrest⟩ := (json.blank []).mpr (by simp)
  have hsuffix := json.suffix []
  rw [hrest] at hsuffix ⊢
  exact congrArg Outcome.empty (List.suffix_nil.mp hsuffix)

theorem parse_all_blank (json : Json V) {s : Str} (h : ∀ c ∈ s, isWhitespace c = true) :
    json.parseStream s = .empty [] := by
  have := parse_blank json [] h
  rwa [List.append_nil, parse_nil] at this

/-- What is left behind the document. -/
theorem Holds.parse (h : Holds json.toRapidJson files a v) :
    json.parseStream ((files a.file).drop a.start) =
      .document v ((files a.file).drop (close json.toRapidJson files a)) := by
  obtain ⟨rest, hrest⟩ := h.reads
  have hsuffix := (json.suffix ((files a.file).drop a.start)).trans (List.drop_suffix _ _)
  rw [hrest] at hsuffix
  have hclose : close json.toRapidJson files a = (files a.file).length - rest.length := by
    rw [close, hrest, Outcome.rest]
  obtain ⟨front, hfront⟩ := hsuffix
  have hrest' : rest = (files a.file).drop (close json.toRapidJson files a) := by
    rw [hclose, ← hfront, Outcome.rest, List.length_append, Nat.add_sub_cancel, List.drop_left]
  rw [hrest, ← hrest']

/-- Between the end of a document and the end of its interval there is only whitespace. -/
theorem Holds.parse_drop (h : Holds json.toRapidJson files a v) {p q : ℕ}
    (hp : close json.toRapidJson files a ≤ p) (hpq : p ≤ q) (hq : q ≤ a.stop) :
    json.parseStream ((files a.file).drop p) = json.parseStream ((files a.file).drop q) := by
  have hblank := h.blank
  generalize close json.toRapidJson files a = e at hblank hp
  generalize files a.file = text at hblank
  have hsplit : text.drop p = (text.drop p).take (q - p) ++ text.drop q := by
    conv_lhs => rw [← List.take_append_drop (q - p) (text.drop p)]
    rw [List.drop_drop, show p + (q - p) = q by omega]
  rw [hsplit]
  refine parse_blank json _ fun c hc => hblank c ?_
  obtain ⟨i, hi, rfl⟩ := List.mem_iff_getElem.mp hc
  rw [List.length_take, List.length_drop] at hi
  refine List.mem_iff_getElem.mpr ⟨p + i - e, ?_, ?_⟩
  · rw [List.length_take, List.length_drop]
    omega
  · simp only [List.getElem_take, List.getElem_drop]
    congr 1
    omega

/-- A document takes something from the stream. -/
theorem Holds.start_lt (h : Holds json.toRapidJson files a v) :
    a.start < close json.toRapidJson files a := by
  have hlt := json.consumes _ _ _ h.parse
  rw [List.length_drop, List.length_drop] at hlt
  omega

/-- A document that starts in the whitespace behind another one ends after the other's interval. -/
theorem Holds.stop_lt (ha : Holds json.toRapidJson files a v) (hb : Holds json.toRapidJson files b w)
    (hmerges : Merges a b) (hle : close json.toRapidJson files a ≤ b.start) :
    a.stop < close json.toRapidJson files b := by
  have hreads := hb.parse
  rw [hmerges.1, ha.parse_drop hle hmerges.2 le_rfl] at hreads
  have hlt := json.consumes _ _ _ hreads
  rw [List.length_drop, List.length_drop] at hlt
  omega

theorem Holds.congr {files' : ℕ → Str} (h : Holds json.toRapidJson files a v)
    (hfile : files' a.file = files a.file) : Holds json.toRapidJson files' a v := by
  obtain ⟨h1, h2, h3, h4⟩ := h
  unfold close at h2 h4
  rw [← hfile] at h1 h2 h3 h4
  exact ⟨h1, h2, h3, h4⟩

/-- **A document that was written** is read back from where it was written to. -/
theorem holds_written {text : Str} {v : V} {file : ℕ}
    (h : text ++ json.write v ++ [newline] <+: files file) :
    Holds json.toRapidJson files
      ⟨file, text.length, (text ++ json.write v ++ [newline]).length⟩ v := by
  obtain ⟨t, ht⟩ := h
  have htext : files file = text ++ (json.write v ++ newline :: t) := by
    rw [← ht]
    simp
  have hdrop : (files file).drop text.length = json.write v ++ newline :: t := by
    rw [htext, List.drop_left]
  have hsize : (files file).length = text.length + ((json.write v).length + (t.length + 1)) := by
    rw [htext, List.length_append, List.length_append, List.length_cons]
  have hparse : json.parseStream ((files file).drop text.length) = .document v (newline :: t) := by
    rw [hdrop]
    exact json.written v t
  have hclose : close json.toRapidJson files
      ⟨file, text.length, (text ++ json.write v ++ [newline]).length⟩ =
        text.length + (json.write v).length := by
    unfold close
    dsimp only
    rw [hparse, Outcome.rest, hsize, List.length_cons]
    omega
  have hlonger : (text ++ json.write v ++ [newline]).length =
      text.length + (json.write v).length + 1 := by
    rw [List.length_append, List.length_append]
    rfl
  refine ⟨⟨_, hparse⟩, ?_, ?_, fun c hc => ?_⟩
  · rw [hclose]
    dsimp only
    omega
  · dsimp only
    omega
  · rw [hclose] at hc
    dsimp only at hc
    rw [hlonger, Nat.add_sub_cancel_left, htext, ← List.append_assoc,
      ← List.length_append, List.drop_left] at hc
    rw [List.mem_singleton.mp hc]
    rfl

/-! ### Iterations -/

/-- An iteration that takes nothing comes again for ever. -/
theorem parseInterval_stuck {size stop : ℕ} {left : Str}
    (hmore : stop = 0 ∨ size - left.length + 1 < stop)
    (hsame : (json.parseStream left).rest = left) :
    ∀ n, parseInterval json.toRapidJson size stop n left = none
  | 0 => rfl
  | n + 1 => by
    have ih := parseInterval_stuck hmore hsame n
    rw [parseInterval, if_pos hmore]
    rcases houtcome : json.parseStream left with ⟨v, rest⟩ | ⟨rest⟩ | ⟨rest⟩
    · rw [houtcome] at hsame
      obtain rfl : rest = left := hsame
      simp only [ih, Option.map_none]
    · rw [houtcome] at hsame
      obtain rfl : rest = left := hsame
      exact ih
    · rw [houtcome] at hsame
      obtain rfl : rest = left := hsame
      simp only [ih, Option.map_none]

/-- More iterations than bytes left are not needed. -/
theorem parseInterval_fuel (size stop : ℕ) : ∀ (n m : ℕ) (left : Str), left.length < n →
    left.length < m → parseInterval json.toRapidJson size stop n left =
      parseInterval json.toRapidJson size stop m left
  | 0, _, _, h, _ => absurd h (Nat.not_lt_zero _)
  | _, 0, _, _, h => absurd h (Nat.not_lt_zero _)
  | n + 1, m + 1, left, hn, hm => by
    by_cases hmore : stop = 0 ∨ size - left.length + 1 < stop
    · have hsuffix := json.suffix left
      by_cases hsame : (json.parseStream left).rest = left
      · rw [parseInterval_stuck hmore hsame, parseInterval_stuck hmore hsame]
      · have hlt : (json.parseStream left).rest.length < left.length := by
          rcases Nat.eq_or_lt_of_le hsuffix.length_le with heq | hlt
          · exact absurd (hsuffix.eq_of_length heq) hsame
          · exact hlt
        have ih := parseInterval_fuel size stop n m (json.parseStream left).rest (by omega) (by omega)
        rw [parseInterval, parseInterval, if_pos hmore, if_pos hmore]
        rcases houtcome : json.parseStream left with ⟨v, rest⟩ | ⟨rest⟩ | ⟨rest⟩
        · rw [houtcome] at ih
          exact congrArg (Option.map fun r => (some v :: r.1, r.2)) ih
        · rw [houtcome] at ih
          exact ih
        · rw [houtcome] at ih
          exact congrArg (Option.map fun r => (none :: r.1, r.2)) ih
    · rw [parseInterval, parseInterval, if_neg hmore, if_neg hmore]

/-! ### Intervals -/

/-- The first of the merged intervals only grows. -/
theorem mergeAfter_cons : ∀ (intervals : List ParseInterval) (last : ParseInterval),
    ∃ stop rest, last.stop ≤ stop ∧
      mergeAfter last intervals = { last with stop := stop } :: rest
  | [], last => ⟨last.stop, [], le_rfl, rfl⟩
  | new :: intervals, last => by
    rw [mergeAfter]
    split_ifs with h
    · obtain ⟨stop, rest, hle, heq⟩ := mergeAfter_cons intervals
        { last with stop := max last.stop new.stop }
      exact ⟨stop, rest, le_trans (le_max_left _ _) hle, heq⟩
    · exact ⟨last.stop, _, le_rfl, rfl⟩

variable {file start stop : ℕ} {intervals : List ParseInterval}

/-- The stream stands in front of a document that begins before the last byte of the interval. -/
theorem parseFrom_document {p q : ℕ} {v : V} (hstart : start ≤ p) (hmore : p + 1 < stop)
    (hq : q ≤ (files file).length)
    (hreads : json.parseStream ((files file).drop p) = .document v ((files file).drop q)) :
    parseFrom json.toRapidJson files (file, (files file).drop p) (⟨file, start, stop⟩ :: intervals) =
      (parseFrom json.toRapidJson files (file, (files file).drop q)
        (⟨file, start, stop⟩ :: intervals)).map fun ret => some v :: ret := by
  have hlt := json.consumes _ _ _ hreads
  rw [List.length_drop, List.length_drop] at hlt
  have hskip : ∀ r, start ≤ r → r ≤ (files file).length →
      skipTo (files file).length start ((files file).drop r) = some ((files file).drop r) := by
    intro r hr hle
    rw [skipTo, if_neg (by omega), List.length_drop,
      show start - ((files file).length - ((files file).length - r)) = 0 by omega, List.drop_zero]
  simp only [parseFrom, if_true]
  rw [hskip p hstart (by omega), hskip q (by omega) hq, Option.bind_some, Option.bind_some,
    parseInterval, if_pos (Or.inr (by rw [List.length_drop]; omega)), hreads]
  dsimp only
  rw [parseInterval_fuel _ _ _ (((files file).drop q).length + 1) _
    (by rw [List.length_drop, List.length_drop]; omega) (by omega)]
  rcases parseInterval json.toRapidJson (files file).length stop
    (((files file).drop q).length + 1) ((files file).drop q) with - | r
  · rfl
  · simp only [Option.map_some, Option.bind_some, Option.map_map, List.cons_append]
    rfl

/-- The stream is brought to where the interval starts. -/
theorem parseFrom_start (json : Json V) (stop : ℕ) (intervals : List ParseInterval) {p : ℕ}
    (hp : p ≤ start) (hstart : start ≤ (files file).length) :
    parseFrom json.toRapidJson files (file, (files file).drop p) (⟨file, start, stop⟩ :: intervals) =
      parseFrom json.toRapidJson files (file, (files file).drop start)
        (⟨file, start, stop⟩ :: intervals) := by
  simp only [parseFrom, if_true]
  rw [skipTo, skipTo, if_neg (by omega), if_neg (by omega), List.length_drop, List.length_drop,
    List.drop_drop, List.drop_drop,
    show p + (start - ((files file).length - ((files file).length - p))) = start by omega,
    show start + (start - ((files file).length - ((files file).length - start))) = start by omega]

theorem parseFrom_open {lastFile : ℕ} {left : Str} (h : lastFile ≠ file)
    (hstart : start ≤ (files file).length) :
    parseFrom json.toRapidJson files (lastFile, left) (⟨file, start, stop⟩ :: intervals) =
      parseFrom json.toRapidJson files (file, (files file).drop start)
        (⟨file, start, stop⟩ :: intervals) := by
  have hzero := parseFrom_start json stop intervals
    (Nat.zero_le start) hstart
  rw [List.drop_zero] at hzero
  rw [← hzero]
  simp only [parseFrom, if_neg h, if_true]

/-- Behind the last document of an interval the stream stays in it or is at the end of the file. -/
theorem parseFrom_closed (intervals : List ParseInterval) (ha : Holds json.toRapidJson files a v)
    (hclosed : Closed json.toRapidJson files a) {start : ℕ}
    (hstart : start ≤ close json.toRapidJson files a) :
    ∃ left, (left = (files a.file).drop (close json.toRapidJson files a) ∨ left = [] ∧
        ∀ c ∈ (files a.file).drop (close json.toRapidJson files a), isWhitespace c = true) ∧
      parseFrom json.toRapidJson files
          (a.file, (files a.file).drop (close json.toRapidJson files a))
          (⟨a.file, start, a.stop⟩ :: intervals) =
        parseFrom json.toRapidJson files (a.file, left) intervals := by
  have hclose := ha.close_le
  have hstop := ha.stop_le
  have hlt := ha.start_lt
  unfold Closed at hclosed
  generalize close json.toRapidJson files a = e at *
  have hskip : skipTo (files a.file).length start ((files a.file).drop e) =
      some ((files a.file).drop e) := by
    rw [skipTo, if_neg (by omega), List.length_drop,
      show start - ((files a.file).length - ((files a.file).length - e)) = 0 by omega, List.drop_zero]
  simp only [parseFrom, if_true]
  rw [hskip, Option.bind_some]
  by_cases hmore : e + 1 < a.stop
  · have hblank := hclosed.resolve_left (by omega)
    refine ⟨[], Or.inr ⟨rfl, hblank⟩, ?_⟩
    rw [parseInterval, if_pos (Or.inr (by rw [List.length_drop]; omega)), parse_all_blank json hblank]
    dsimp only
    rw [parseInterval_fuel _ _ _ 1 _ (by rw [List.length_drop, List.length_nil]; omega) (by simp),
      parseInterval, if_neg (by rw [List.length_nil]; omega), Option.bind_some]
    simp
  · refine ⟨_, Or.inl rfl, ?_⟩
    rw [parseInterval, if_neg (by rw [List.length_drop]; omega), Option.bind_some]
    simp

/-- From the end of a closed interval the stream comes to the next one, if they do not touch. -/
theorem parseFrom_next (ha : Holds json.toRapidJson files a v) (hb : Holds json.toRapidJson files b w)
    (hmerges : ¬ Merges a b) {left : Str}
    (hleft : left = (files a.file).drop (close json.toRapidJson files a) ∨ left = [] ∧
      ∀ c ∈ (files a.file).drop (close json.toRapidJson files a), isWhitespace c = true)
    (stop : ℕ) (intervals : List ParseInterval) :
    parseFrom json.toRapidJson files (a.file, left) (⟨b.file, b.start, stop⟩ :: intervals) =
      parseFrom json.toRapidJson files (b.file, (files b.file).drop b.start)
        (⟨b.file, b.start, stop⟩ :: intervals) := by
  have hsize : b.start ≤ (files b.file).length := by
    have := hb.start_lt
    have := hb.close_le
    have := hb.stop_le
    omega
  by_cases hfile : a.file = b.file
  · have hbehind : a.stop < b.start := by
      by_contra hc
      exact hmerges ⟨hfile.symm, by omega⟩
    have hclose := ha.close_le
    rcases hleft with rfl | ⟨-, hblank⟩
    · rw [hfile]
      exact parseFrom_start json stop intervals (by omega) hsize
    · -- the other document is behind, so the file does not end with whitespace here
      have hall : ∀ c ∈ (files b.file).drop b.start, isWhitespace c = true := by
        intro c hc
        refine hblank c ?_
        rw [hfile]
        rw [show b.start = close json.toRapidJson files a +
          (b.start - close json.toRapidJson files a) by omega, ← List.drop_drop] at hc
        exact List.mem_of_mem_drop hc
      have hnone := parse_all_blank json hall
      rw [hb.parse] at hnone
      cases hnone
  · exact parseFrom_open hfile hsize

/-- **From where the stream stands in front of a document**: it and the following ones are read, each
by one turn of the loop over its merged interval. -/
theorem parseFrom_readable : ∀ (intervals : List ParseInterval) (vs : List V) (a : ParseInterval)
    (v : V) (start stand : ℕ), List.Forall₂ (Holds json.toRapidJson files) (a :: intervals) (v :: vs) →
      start ≤ stand → stand ≤ a.start →
      json.parseStream ((files a.file).drop stand) =
        .document v ((files a.file).drop (close json.toRapidJson files a)) →
      Readable json.toRapidJson files stand (a :: intervals) →
      parseFrom json.toRapidJson files (a.file, (files a.file).drop stand)
          (mergeAfter ⟨a.file, start, a.stop⟩ intervals) =
        some ((v :: vs).map some)
  | [], vs, a, v, start, stand, hholds, hstart, hle, hreads, hreadable => by
    rcases hholds with - | ⟨ha, hrest⟩
    rcases hrest with - | -
    have hlt := ha.start_lt
    obtain ⟨hmore, hclosed⟩ := hreadable
    rw [mergeAfter, parseFrom_document hstart hmore (le_trans ha.close_le ha.stop_le) hreads]
    have hbefore : start ≤ close json.toRapidJson files a := by omega
    obtain ⟨left, -, heq⟩ := parseFrom_closed [] ha hclosed hbefore
    rw [heq]
    rfl
  | b :: intervals, [], a, v, _, _, hholds, _, _, _, _ => by
    rcases hholds with - | ⟨-, hrest⟩
    cases hrest
  | b :: intervals, w :: vs, a, v, start, stand, hholds, hstart, hle, hreads, hreadable => by
    rcases hholds with - | ⟨ha, hrest⟩
    have hb : Holds json.toRapidJson files b w := by
      rcases hrest with - | ⟨hb, -⟩
      exact hb
    have hlt := ha.start_lt
    have hltb := hb.start_lt
    rw [Readable] at hreadable
    rw [mergeAfter]
    by_cases hmerges : Merges a b
    · rw [if_pos hmerges] at hreadable
      obtain ⟨hbehind, hnext⟩ := hreadable
      have hstop := ha.stop_lt hb hmerges hbehind
      have hcb := hb.close_le
      have hreadsb : json.parseStream ((files b.file).drop (close json.toRapidJson files a)) =
          .document w ((files b.file).drop (close json.toRapidJson files b)) := by
        rw [← hb.parse, hmerges.1]
        exact ha.parse_drop le_rfl hbehind hmerges.2
      have ih := parseFrom_readable intervals vs b w start _ hrest (by omega) hbehind hreadsb hnext
      have hmax : max a.stop b.stop = b.stop := by omega
      rw [if_pos (show _ ∧ _ from hmerges)]
      dsimp only
      rw [hmax]
      obtain ⟨stop, tail, hgrown, heq⟩ := mergeAfter_cons intervals ⟨a.file, start, b.stop⟩
      have hgrown : b.stop ≤ stop := hgrown
      rw [hmerges.1] at ih
      rw [heq] at ih ⊢
      rw [parseFrom_document hstart (by omega) (le_trans ha.close_le ha.stop_le) hreads, ih]
      rfl
    · rw [if_neg hmerges] at hreadable
      obtain ⟨hmore, hclosed, hnext⟩ := hreadable
      have ih := parseFrom_readable intervals vs b w b.start b.start hrest le_rfl le_rfl hb.parse hnext
      rw [if_neg (show ¬ (_ ∧ _) from hmerges),
        parseFrom_document hstart hmore (le_trans ha.close_le ha.stop_le) hreads]
      have hbefore : start ≤ close json.toRapidJson files a := by omega
      obtain ⟨left, hleft, heq⟩ := parseFrom_closed (mergeAfter b intervals) ha hclosed hbefore
      obtain ⟨stop, tail, -, hcons⟩ := mergeAfter_cons intervals b
      rw [heq]
      rw [show (⟨b.file, b.start, b.stop⟩ : ParseInterval) = b from rfl] at ih
      rw [hcons] at ih ⊢
      rw [parseFrom_next ha hb hmerges hleft, ih]
      rfl

/-- **The merged intervals give the documents back**, one for each interval and in their order. -/
theorem parseIntervals_merged {intervals : List ParseInterval} {vs : List V}
    (hholds : List.Forall₂ (Holds json.toRapidJson files) intervals vs)
    (hreadable : ReadableAll json.toRapidJson files intervals) :
    parseIntervals json.toRapidJson files (mergeIntervals intervals) = some (vs.map some) := by
  rcases hholds with - | @⟨a, v, intervals, vs, ha, hrest⟩
  · rfl
  · have hsize : a.start ≤ (files a.file).length := by
      have := ha.start_lt
      have := ha.close_le
      have := ha.stop_le
      omega
    have hread := parseFrom_readable intervals vs a v a.start a.start (.cons ha hrest) le_rfl le_rfl
      ha.parse (hreadable a rfl)
    obtain ⟨stop, tail, -, hcons⟩ := mergeAfter_cons intervals a
    have hstart := parseFrom_start json stop tail (Nat.zero_le a.start) hsize
    rw [show (⟨a.file, a.start, a.stop⟩ : ParseInterval) = a from rfl] at hread
    rw [hcons] at hread
    rw [List.drop_zero] at hstart
    rw [mergeIntervals, hcons, parseIntervals]
    exact hstart.trans hread

end Joda.Storage.FileOrigin
