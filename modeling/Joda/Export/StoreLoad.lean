import Joda.Export.FileLines
import Joda.Pipeline.Storing

/-! # Storing documents and loading them again

`STORE AS FILES` as a pipeline: `StorageSender` sends the containers of a storage, the copies of
`JSONStringifier` make bulks of texts of them, and each copy of `WriteFiles` appends the bulks it gets to
a file of its own. `LOAD FROM FILES` as a pipeline: `ListDir` sends the files of a directory, in some
order, `LSFileMapper` gives each a number and reads its lines, the copies of the parser make containers
of them, and `StorageReceiver` stores these.

The tasks run interleaved in any way. What is loaded from a directory that was only stored to are the
documents that were stored there, and each of them can be read again from where it came from. -/

namespace Joda.Export.StoreLoad

open Joda.Lib.Runs Joda.Lib.Network Joda.Values.Value
open Joda.Pipeline.Executor (Calc)
open Joda.Pipeline.Emissions (outputs after emissions)
open Joda.Pipeline.Workers Joda.Pipeline.Storing
open Joda.Parser.StreamParser (Parsed Scheduler defaultScheduler isWhitespace)
open Joda.Parser.LineSplitting
open Joda.Storage.FileOrigin (Json parseIntervals mergeIntervals)
open Joda.Storage.ReparseRuns (brackets)
open Joda.Export.FileLines

variable {V F : Type} [Double F]

/-! ### `STORE AS FILES` -/

/-- The files `0.json`, `1.json` and so on of a directory. -/
abbrev Directory := ℕ → Option Str

/-- **`JSONStringifier`**: the last bulk of a container is left in the output buffer. -/
def stringifier (json : Json V) : Calc Unit (Option (List (Option V))) (List Str) where
  fillBuffer _ cont :=
    let bulks := (cont.map (JSONStringifierExec.bulks (text json))).getD []
    ⟨(), none, bulks.dropLast, bulks.getLast?⟩
  finalize _ := ([], none)

/-- **`WriteFiles`** -/
def writeFiles : Sink (Option Str) (List Str) where
  emptyBuffer := emptyBuffer
  finalize file := file

/-- What is in the queues. -/
abbrev StoreT (V : Type) : ℕ → Type
  | 1 => Option (List (Option V))
  | 2 => List Str
  | _ => Unit

structure StoreQuery (V : Type) where
  registered : Option (JSONStorage (List (Option V)))
  dir : Directory
  stringifiers : ℕ
  writers : ℕ
  capacity : ℕ
  stringifiers_pos : 0 < stringifiers
  writers_pos : 0 < writers

/-- **The pipeline**; the copies of `WriteFiles` have the numbers from 0 on. -/
def StoreQuery.net (json : Json V) (q : StoreQuery V) : Net (StoreT V) where
  size
    | 0 => 1
    | 1 => q.stringifiers
    | 2 => q.writers
    | _ => 0
  worker
    | 0, _ => senderWorker q.registered
    | 1, _ => ioWorker ⟨stringifier json, .multiThreaded, q.capacity⟩ ()
    | 2, i => iWorker Unit writeFiles (q.dir i)
    | _ + 3, _ => iWorker Unit ⟨fun s _ => s, id⟩ ()

/-- The directory that it leaves behind. -/
def StoreQuery.after {json : Json V} (q : StoreQuery V) (s : State (q.net json)) : Directory := fun i =>
  if i < q.writers then IState.state (s.state 2 i) else q.dir i

/-- **A directory after some exports**, with the documents that were stored to it. -/
inductive Stored (json : Json V) : Directory → List (Option V) → Prop
  | empty : Stored json (fun _ => none) []
  | store {docs : List (Option V)} {q : StoreQuery V} {past} {s : State (q.net json)}
      (h : Stored json q.dir docs) (hrun : Run Init Step past s)
      (hgone : ∀ i, i < q.writers → s.gone 2 i = true) :
      Stored json (q.after s) (docs ++ (getOrAddStorage q.registered).container.flatten)

/-! ### `LOAD FROM FILES` -/

/-- **`FileNameRepo`**: the files that have a number, in the order of the numbers from 2 on. -/
def addFile (repo : List ℕ) (file : ℕ) : ℕ × List ℕ :=
  if file ∈ repo then (repo.idxOf file + 2, repo) else (repo.length + 2, repo ++ [file])

def getFile (repo : List ℕ) (id : ℕ) : Option ℕ := if id < 2 then none else repo[id - 2]?

structure LoadQuery (V F : Type) where
  dir : Directory
  /-- the order in which the directory is iterated -/
  order : List ℕ
  nodup : order.Nodup
  lists : ∀ i, i ∈ order ↔ (dir i).isSome
  sample : F
  rand : ℕ → ℕ → ℕ
  repo : List ℕ
  hasSpace : ℕ → ℕ → Bool
  registered : Option (JSONStorage (List (Parsed V)))
  parsers : ℕ
  capacity : ℕ
  parsers_pos : 0 < parsers

/-- **`LSListDir`**; it has finished when its `dirname` is cleared. -/
def listDir (order : List ℕ) (sample : F) : Source Bool (ℕ × F) where
  finished cleared := cleared
  fillBuffer _ := (true, order.map fun file => (file, sample), none)

/-- **`LSFileMapper`** -/
def fileMapper (dir : Directory) (rand : ℕ → ℕ → ℕ) : Calc (List ℕ) (ℕ × F) (List StringOrigin) where
  fillBuffer repo input :=
    match dir input.1 with
    | none => ⟨repo, none, [], none⟩
    | some content =>
      let lines := batches input.2 (rand input.1) (addFile repo input.1).1 content
      ⟨(addFile repo input.1).2, none, lines.dropLast, lines.getLast?⟩
  finalize _ := ([], none)

/-- **`JSONPipelineTextParser`** -/
def textParser (parse : Str → Option V) (sched : Scheduler V) :
    Calc sched.State (List StringOrigin) (Option (List (Parsed V))) where
  fillBuffer s buff :=
    let r := JSONPipelineTextParser.fillBuffer parse sched buff s
    ⟨r.1, none, r.2.map some, none⟩
  finalize s := ((sched.finalize s).map some, none)

abbrev LoadT (V F : Type) : ℕ → Type
  | 1 => ℕ × F
  | 2 => List StringOrigin
  | 3 => Option (List (Parsed V))
  | _ => Unit

/-- **The pipeline**; each copy of the parser has a `DefaultContainerScheduler`. -/
def LoadQuery.net (parse : Str → Option V) (q : LoadQuery V F) : Net (LoadT V F) where
  size
    | 0 => 1
    | 1 => 1
    | 2 => q.parsers
    | 3 => 1
    | _ => 0
  worker
    | 0, _ => oWorker Unit (listDir q.order q.sample) .singleThreaded false
    | 1, _ => ioWorker ⟨fileMapper q.dir q.rand, .singleThreaded, q.capacity⟩ q.repo
    | 2, i => ioWorker ⟨textParser parse (defaultScheduler V (q.hasSpace i)), .multiThreaded, q.capacity⟩
        ((0, []) : ℕ × List (Parsed V))
    | 3, _ => receiverWorker q.registered
    | _ + 4, _ => iWorker Unit ⟨fun s _ => s, id⟩ ()

/-- The containers that were stored. -/
def LoadQuery.loaded {parse : Str → Option V} (q : LoadQuery V F) (s : State (q.net parse)) :
    List (List (Parsed V)) :=
  (getOrAddStorage (IState.state (s.state 3 0))).container.drop
    (getOrAddStorage q.registered).container.length

/-- The text of a file by its number. -/
def LoadQuery.file {parse : Str → Option V} (q : LoadQuery V F) (s : State (q.net parse)) (id : ℕ) : Str :=
  ((getFile (Joda.Pipeline.Executor.State.state (s.state 1 0)) id).bind q.dir).getD []

/-! ### What an export writes -/

theorem dropLast_append_getLast? {α : Type} (l : List α) : l.dropLast ++ l.getLast?.toList = l := by
  rcases List.eq_nil_or_concat l with rfl | ⟨l, a, rfl⟩
  · rfl
  · rw [List.concat_eq_append, List.dropLast_concat, List.getLast?_concat, Option.toList_some]

theorem flatten_map_flatten {α β γ : Type} (f : α → List (List γ)) (g : α → List β) (t : β → List γ) :
    ∀ l : List α, (∀ a ∈ l, (f a).flatten = (g a).flatMap t) →
      (l.map f).flatten.flatten = (l.map g).flatten.flatMap t
  | [], _ => rfl
  | a :: l, h => by
    rw [List.map_cons, List.flatten_cons, List.flatten_append, h a List.mem_cons_self, List.map_cons,
      List.flatten_cons, List.flatMap_append,
      flatten_map_flatten f g t l fun b hb => h b (List.mem_cons_of_mem _ hb)]

section Store

variable {json : Json V}

theorem takes_stringifier : Takes (stringifier json) where
  takes _ _ := rfl
  ends _ := Nat.zero_le 1

/-- The texts of a container. -/
def texts (json : Json V) (cont : Option (List (Option V))) : List Str := (cont.getD []).map (text json)

theorem outputs_stringifier : ∀ conts : List (Option (List (Option V))),
    (outputs (stringifier json) () conts).flatten = conts.flatMap (texts json)
  | [] => rfl
  | cont :: conts => by
    have hbulks :
        ((cont.map (JSONStringifierExec.bulks (text json))).getD []).flatten = texts json cont := by
      rcases cont with _ | docs
      · rfl
      · exact (stringifier_returns docs).2
    rw [outputs, List.flatten_append, List.flatMap_cons, ← hbulks, ← outputs_stringifier conts]
    dsimp only [stringifier]
    rw [dropLast_append_getLast?]

/-- **The bulks of a copy** have the texts of the containers it got. -/
theorem emissions_stringifier (conts : List (Option (List (Option V)))) :
    (emissions (stringifier json) () conts).flatten = conts.flatMap (texts json) := by
  rw [← outputs_stringifier]
  exact congrArg List.flatten ((List.append_nil _).trans (List.append_nil _))

variable {q : StoreQuery V} {s : State (q.net json)}

/-- The lines that a copy of `WriteFiles` got. -/
def got (s : State (q.net json)) (i : ℕ) : List Str := (pops (s.past 2 i)).flatten

/-- **Everything is written**: the writers get the texts of all containers. -/
theorem got_perm (h : Inv s) (hgone : ∀ i, i < q.writers → s.gone 2 i = true) :
    ((List.range q.writers).map (got s)).flatten.Perm
      ((getOrAddStorage q.registered).container.flatten.map (text json)) := by
  have hwriters := hgone 0 q.writers_pos
  have hbulks : (s.shares 2).flatten.Perm (s.gifts 1).flatten :=
    delivered_perm h (k := 1) iWorker_gives.1 hwriters
  have hleft := (delivered h (k := 1) iWorker_gives.1 hwriters).2
  have hconts : (s.shares 1).flatten.Perm (s.gifts 0).flatten :=
    delivered_perm h (k := 0) (ioWorker_gives takes_stringifier).1 (hleft 0 q.stringifiers_pos)
  have hsender := (delivered h (k := 0) (ioWorker_gives takes_stringifier).1 (hleft 0 q.stringifiers_pos)).2
  -- each copy gives the texts of its containers
  have htexts : (s.gifts 1).flatten.flatten = (s.shares 1).flatten.flatMap (texts json) := by
    refine flatten_map_flatten _ _ _ _ fun i hi => ?_
    have hgives := (h.gives (hleft i (List.mem_range.mp hi)) (ioWorker_gives takes_stringifier).2).1
    rw [hgives]
    exact emissions_stringifier _
  -- the sender gives what is stored
  have hsent : (s.gifts 0).flatten = (getOrAddStorage q.registered).container.map some := by
    have hgives := (h.gives (hsender 0 Nat.one_pos) senderWorker_gives).1
    change (pushes (s.past 0 0) ++ []) = _
    rw [List.append_nil, hgives, Joda.Pipeline.Storing.stored, List.reduceOption_nil, List.append_nil]
  have hgot : ((List.range q.writers).map (got s)).flatten = (s.shares 2).flatten.flatten := by
    rw [List.flatten_flatten, State.shares, List.map_map]
    rfl
  rw [hgot]
  refine hbulks.flatten.trans ?_
  rw [htexts]
  refine (hconts.flatMap_right _).trans (List.Perm.of_eq ?_)
  rw [hsent, List.flatMap_map, List.map_flatten, List.flatMap_def]
  rfl

/-- **The directory after an export**: to every file the lines were appended that its writer got. -/
theorem after_content (h : Inv s) (hgone : ∀ i, i < q.writers → s.gone 2 i = true) (i : ℕ) :
    (q.after s i).getD [] = (q.dir i).getD [] ++ content (if i < q.writers then got s i else []) := by
  unfold StoreQuery.after
  split_ifs with hi
  · have hstate := (h.gives (hgone i hi) iWorker_gives.2).2
    rw [hstate]
    exact foldl_emptyBuffer _ _
  · exact (List.append_nil _).symm

end Store

/-! ### A directory that was only stored to -/

/-- **The lines of a directory** are the texts of these documents. -/
structure Lined (json : Json V) (dir : Directory) (docs : List (Option V)) (n : ℕ) (lines : ℕ → List Str) :
    Prop where
  contents : ∀ i, (dir i).getD [] = content (lines i)
  bounded : ∀ i, n ≤ i → dir i = none
  all : ∑ i ∈ Finset.range n, (lines i : Multiset Str) = (docs.map (text json) : Multiset Str)

section Directories

variable {json : Json V} {dir : Directory} {docs : List (Option V)} {n : ℕ} {lines : ℕ → List Str}

theorem Lined.eq_nil (h : Lined json dir docs n lines) {i : ℕ} (hi : dir i = none) : lines i = [] := by
  have hcontent := h.contents i
  rw [hi] at hcontent
  exact content_eq_nil hcontent.symm

theorem Lined.sum (h : Lined json dir docs n lines) {files : Finset ℕ}
    (hfiles : ∀ i, (dir i).isSome → i ∈ files) :
    ∑ i ∈ files, (lines i : Multiset Str) = (docs.map (text json) : Multiset Str) := by
  have hnone : ∀ i, dir i = none → (lines i : Multiset Str) = 0 := fun i hi => by
    rw [h.eq_nil hi]
    rfl
  have hsome : ∀ i, i ∉ files → dir i = none := fun i hi =>
    Option.not_isSome_iff_eq_none.mp fun hdir => hi (hfiles i hdir)
  have hrange : ∑ i ∈ Finset.range n, (lines i : Multiset Str) =
      ∑ i ∈ Finset.range n ∪ files, (lines i : Multiset Str) :=
    Finset.sum_subset Finset.subset_union_left fun i _ hi =>
      hnone i (h.bounded i (Nat.le_of_not_lt fun hlt => hi (Finset.mem_range.mpr hlt)))
  rw [← h.all, hrange]
  exact Finset.sum_subset Finset.subset_union_right fun i _ hi => hnone i (hsome i hi)

/-- **An export** appends the texts of its documents. -/
theorem Lined.after {q : StoreQuery V} {s : State (q.net json)} (h : Lined json q.dir docs n lines)
    (hinv : Inv s) (hgone : ∀ i, i < q.writers → s.gone 2 i = true) :
    Lined json (q.after s) (docs ++ (getOrAddStorage q.registered).container.flatten) (max n q.writers)
      fun i => lines i ++ if i < q.writers then got s i else [] := by
  refine ⟨fun i => ?_, fun i hi => ?_, ?_⟩
  · rw [after_content hinv hgone, h.contents, content_append]
  · unfold StoreQuery.after
    rw [if_neg (by omega)]
    exact h.bounded i (by omega)
  · have hgot : ∑ i ∈ Finset.range (max n q.writers),
        ((if i < q.writers then got s i else [] : List Str) : Multiset Str) =
          ((getOrAddStorage q.registered).container.flatten.map (text json) : Multiset Str) := by
      rw [← Multiset.coe_eq_coe.mpr (got_perm hinv hgone), coe_flatten_map]
      rw [← Finset.sum_subset (Finset.range_subset_range.mpr (le_max_right n q.writers))]
      · exact Finset.sum_congr rfl fun i hi => by rw [if_pos (Finset.mem_range.mp hi)]
      · intro i _ hi
        rw [if_neg fun hlt => hi (Finset.mem_range.mpr hlt)]
        rfl
    have hold : ∑ i ∈ Finset.range (max n q.writers), (lines i : Multiset Str) =
        (docs.map (text json) : Multiset Str) := h.sum fun i hi => by
      by_contra hmem
      rw [Finset.mem_range] at hmem
      rw [h.bounded i (by omega)] at hi
      cases hi
    rw [List.map_append, ← Multiset.coe_add, ← hgot, ← hold, ← Finset.sum_add_distrib]
    exact Finset.sum_congr rfl fun i _ => (Multiset.coe_add _ _).symm

/-- **Every run of exports** leaves the lines of all documents that were stored. -/
theorem Stored.lined (h : Stored json dir docs) : ∃ n lines, Lined json dir docs n lines := by
  induction h with
  | empty => exact ⟨0, fun _ => [], fun _ => rfl, fun _ _ => rfl, rfl⟩
  | store _ hrun hgone ih =>
    obtain ⟨n, lines, hlined⟩ := ih
    exact ⟨_, _, hlined.after (run_inv hrun) hgone⟩

end Directories

/-! ### What an import reads -/

omit [Double F] in
theorem reached_listDir {order : List ℕ} {sample : F} {sent : List (ℕ × F)} {cleared : Bool}
    (h : Reached (listDir order sample) false sent cleared) :
    cleared = false ∧ sent = [] ∨ cleared = true ∧ sent = order.map fun file => (file, sample) := by
  induction h with
  | start => exact Or.inl ⟨rfl, rfl⟩
  | fill _ hs ih =>
    rcases ih with ⟨rfl, rfl⟩ | ⟨rfl, -⟩
    · exact Or.inr ⟨rfl, (List.nil_append _).trans (List.append_nil _)⟩
    · cases hs

section Mapper

variable {dir : Directory} {rand : ℕ → ℕ → ℕ}

/-- **A file has one number**, which it keeps. -/
theorem addFile_spec (repo : List ℕ) (file : ℕ) :
    repo <+: (addFile repo file).2 ∧ file ∈ (addFile repo file).2 ∧
      (addFile repo file).1 = (addFile repo file).2.idxOf file + 2 := by
  unfold addFile
  split_ifs with hmem
  · exact ⟨List.prefix_rfl, hmem, rfl⟩
  · refine ⟨List.prefix_append _ _, by simp, ?_⟩
    dsimp only
    rw [List.idxOf_append_of_notMem hmem, List.idxOf_cons_self, Nat.add_zero]

theorem idxOf_of_prefix {repo repo' : List ℕ} {file : ℕ} (h : repo <+: repo') (hmem : file ∈ repo) :
    repo'.idxOf file = repo.idxOf file := by
  obtain ⟨rest, rfl⟩ := h
  exact List.idxOf_append_of_mem hmem

theorem takes_fileMapper : Takes (fileMapper (F := F) dir rand) where
  takes repo input := by
    dsimp only [fileMapper]
    split <;> rfl
  ends _ := Nat.zero_le 1

theorem after_fileMapper : ∀ (inputs : List (ℕ × F)) (repo : List ℕ),
    repo <+: after (fileMapper dir rand) repo inputs
  | [], _ => List.prefix_rfl
  | input :: inputs, repo => by
    refine List.IsPrefix.trans ?_ (after_fileMapper inputs _)
    dsimp only [fileMapper]
    split
    · exact List.prefix_rfl
    · exact (addFile_spec repo input.1).1

/-- The lines of a file with its number in the repository. -/
def linesIn (dir : Directory) (rand : ℕ → ℕ → ℕ) (repo : List ℕ) (input : ℕ × F) : List StringOrigin :=
  ((dir input.1).map fun content =>
    (batches input.2 (rand input.1) (repo.idxOf input.1 + 2) content).flatten).getD []

theorem outputs_fileMapper : ∀ (inputs : List (ℕ × F)) (repo : List ℕ),
    (outputs (fileMapper dir rand) repo inputs).flatten =
        inputs.flatMap (linesIn dir rand (after (fileMapper dir rand) repo inputs)) ∧
      ∀ input ∈ inputs, (dir input.1).isSome → input.1 ∈ after (fileMapper dir rand) repo inputs
  | [], _ => ⟨rfl, fun _ h => by cases h⟩
  | input :: inputs, repo => by
    obtain ⟨hlines, hknown⟩ :=
      outputs_fileMapper inputs ((fileMapper dir rand).fillBuffer repo input).state
    have hprefix : _ <+:
        after (fileMapper dir rand) ((fileMapper dir rand).fillBuffer repo input).state inputs :=
      after_fileMapper inputs _
    rw [outputs, after, List.flatten_append, hlines, List.flatMap_cons]
    generalize after (fileMapper dir rand) ((fileMapper dir rand).fillBuffer repo input).state inputs =
      final at hprefix hknown
    cases hdir : dir input.1 with
    | none =>
      refine ⟨?_, fun other hother hsome => ?_⟩
      · simp only [fileMapper, linesIn, hdir]
        rfl
      · rcases List.mem_cons.mp hother with rfl | hother
        · rw [hdir] at hsome
          cases hsome
        · exact hknown other hother hsome
    | some content =>
      have hstate : ((fileMapper dir rand).fillBuffer repo input).state = (addFile repo input.1).2 := by
        simp only [fileMapper, hdir]
      rw [hstate] at hprefix
      obtain ⟨-, hmem, hid⟩ := addFile_spec repo input.1
      refine ⟨?_, fun other hother hsome => ?_⟩
      · congr 1
        simp only [fileMapper, linesIn, hdir]
        rw [dropLast_append_getLast?, hid, idxOf_of_prefix hprefix hmem]
        rfl
      · rcases List.mem_cons.mp hother with rfl | hother
        · exact hprefix.subset hmem
        · exact hknown other hother hsome

theorem emissions_fileMapper (inputs : List (ℕ × F)) (repo : List ℕ) :
    (emissions (fileMapper dir rand) repo inputs).flatten =
      inputs.flatMap (linesIn dir rand (after (fileMapper dir rand) repo inputs)) := by
  rw [← (outputs_fileMapper inputs repo).1]
  exact congrArg List.flatten ((List.append_nil _).trans (List.append_nil _))

end Mapper

section Parser

variable {parse : Str → Option V} {sched : Scheduler V}

theorem emissions_textParser : ∀ (buffs : List (List StringOrigin)) (s : sched.State),
    emissions (textParser parse sched) s buffs = (JSONPipelineTextParser.run parse sched buffs s).map some
  | [], s => (List.append_nil _).trans (List.nil_append _)
  | buff :: buffs, s => by
    rw [JSONPipelineTextParser.run, List.map_append, ← emissions_textParser buffs]
    unfold emissions
    rw [outputs, after]
    simp only [List.append_assoc]
    rfl

theorem takes_textParser (hasSpace : ℕ → Bool) : Takes (textParser parse (defaultScheduler V hasSpace)) where
  takes _ _ := rfl
  ends s := by
    unfold ending
    dsimp only [textParser, defaultScheduler]
    split_ifs
    · exact Nat.zero_le 1
    · exact le_rfl

end Parser

section Load

variable {parse : Str → Option V} {q : LoadQuery V F} {s : State (q.net parse)}

/-- The paths that the mapper got. -/
def paths (s : State (q.net parse)) : List (ℕ × F) := pops (s.past 1 0)

/-- The files that have a number when it has finished. -/
def repo (s : State (q.net parse)) : List ℕ := Joda.Pipeline.Executor.State.state (s.state 1 0)

/-- What a copy of the parser sends for the buffers it got. -/
def sends (s : State (q.net parse)) (i : ℕ) : List (List (Parsed V)) :=
  JSONPipelineTextParser.run parse (defaultScheduler V (q.hasSpace i)) (pops (s.past 2 i)) (0, [])

/-- When the receiver has left, the tasks before it have left. -/
structure Left (s : State (q.net parse)) : Prop where
  inv : Inv s
  receiver : s.gone 3 0 = true
  parsers : ∀ i, i < q.parsers → s.gone 2 i = true
  mapper : s.gone 1 0 = true
  lister : s.gone 0 0 = true

theorem left_of_gone (h : Inv s) (hgone : s.gone 3 0 = true) : Left s := by
  have hparsers := (delivered h (k := 2) iWorker_gives.1 hgone).2
  have hmapper := (delivered h (k := 1) (ioWorker_gives (takes_textParser _)).1
    (hparsers 0 q.parsers_pos)).2 0 Nat.one_pos
  exact ⟨h, hgone, hparsers, hmapper,
    (delivered h (k := 0) (ioWorker_gives takes_fileMapper).1 hmapper).2 0 Nat.one_pos⟩

/-- **The mapper gets every file** of the directory once. -/
theorem Left.paths_perm (h : Left s) : (paths s).Perm (q.order.map fun file => (file, q.sample)) := by
  have hperm := delivered_perm h.inv (k := 0) (ioWorker_gives takes_fileMapper).1 h.mapper
  obtain ⟨-, hreached, hcleared⟩ := h.inv.gives h.lister oWorker_gives
  rcases reached_listDir hreached with ⟨hfalse, -⟩ | ⟨-, hsent⟩
  · rw [hfalse] at hcleared
    cases hcleared
  · rw [← hsent, ← List.append_nil (paths s), ← List.append_nil (pushes _)]
    exact hperm

/-- **The parsers get the lines** of these files. -/
theorem Left.lines_perm (h : Left s) :
    ((List.range q.parsers).map fun i => (pops (s.past 2 i)).flatten).flatten.Perm
      ((paths s).flatMap (linesIn q.dir q.rand (repo s))) := by
  have hperm : (s.shares 2).flatten.Perm (s.gifts 1).flatten :=
    delivered_perm h.inv (k := 1) (ioWorker_gives (takes_textParser _)).1 (h.parsers 0 q.parsers_pos)
  obtain ⟨hsent, hrepo⟩ := h.inv.gives h.mapper (ioWorker_gives takes_fileMapper).2
  have hgifts : (s.gifts 1).flatten = pushes (s.past 1 0) := List.append_nil _
  rw [hgifts, hsent] at hperm
  have hlines : (emissions (fileMapper q.dir q.rand) q.repo (paths s)).flatten = _ :=
    emissions_fileMapper _ _
  have hstate : repo s = after (fileMapper q.dir q.rand) q.repo (paths s) := hrepo
  rw [← hstate] at hlines
  rw [← hlines]
  have hflat : ((List.range q.parsers).map fun i => (pops (s.past 2 i)).flatten).flatten =
      (s.shares 2).flatten.flatten := by
    rw [List.flatten_flatten, State.shares, List.map_map]
    rfl
  rw [hflat]
  exact hperm.flatten

/-- **What is stored** are the containers that the copies of the parser sent. -/
theorem Left.loaded_perm (h : Left s) :
    (q.loaded s).Perm ((List.range q.parsers).map (sends s)).flatten := by
  have hperm : (s.shares 3).flatten.Perm (s.gifts 2).flatten :=
    delivered_perm h.inv (k := 2) iWorker_gives.1 h.receiver
  have hshares : (s.shares 3).flatten = pops (s.past 3 0) := List.append_nil _
  have hloaded : q.loaded s = (pops (s.past 3 0)).reduceOption := by
    have hstored := h.inv.gives h.receiver receiverWorker_gives
    unfold LoadQuery.loaded
    rw [hstored]
    exact List.drop_left
  have hsent : (s.gifts 2).flatten = (((List.range q.parsers).map (sends s)).flatten).map some := by
    rw [List.map_flatten, List.map_map]
    refine congrArg List.flatten (List.map_congr_left fun i hi => ?_)
    have hgives :=
      (h.inv.gives (h.parsers i (List.mem_range.mp hi)) (ioWorker_gives (takes_textParser _)).2).1
    rw [hgives]
    exact emissions_textParser _ _
  rw [hshares, hsent] at hperm
  rw [hloaded]
  have hreduce := hperm.filterMap id
  rw [List.filterMap_map] at hreduce
  refine hreduce.trans (List.Perm.of_eq ?_)
  exact List.filterMap_some

/-- **The documents that are stored** are those of the lines. -/
theorem Left.docs_perm (h : Left s) : (q.loaded s).flatten.Perm
    (((paths s).flatMap (linesIn q.dir q.rand (repo s))).filterMap
      (JSONPipelineTextParser.parseLine parse)) := by
  refine (h.loaded_perm.flatten).trans (.trans ?_ (h.lines_perm.filterMap _))
  rw [← Multiset.coe_eq_coe]
  generalize List.range q.parsers = parsers
  induction parsers with
  | nil => rfl
  | cons i parsers ih =>
    rw [List.map_cons, List.flatten_cons, List.flatten_append, ← Multiset.coe_add, ih, List.map_cons,
      List.flatten_cons, List.filterMap_append, ← Multiset.coe_add]
    congr 1
    exact (run_flatten parse _ _ _).trans (add_zero _)

theorem Left.mem_paths (h : Left s) {path : ℕ × F} (hpath : path ∈ paths s) :
    (q.dir path.1).isSome ∧ path.2 = q.sample ∧ path.1 ∈ repo s := by
  obtain ⟨file, hfile, rfl⟩ := List.mem_map.mp (h.paths_perm.subset hpath)
  have hsome := (q.lists file).mp hfile
  have hrepo : repo s = after (fileMapper q.dir q.rand) q.repo (paths s) :=
    (h.inv.gives h.mapper (ioWorker_gives takes_fileMapper).2).2
  refine ⟨hsome, rfl, ?_⟩
  rw [hrepo]
  exact (outputs_fileMapper (paths s) q.repo).2 _ hpath hsome

/-- The files with their numbers and their lines. -/
def files (s : State (q.net parse)) (lines : ℕ → List Str) : List (ℕ × List Str) :=
  (paths s).map fun path => ((repo s).idxOf path.1 + 2, lines path.1)

theorem coe_flatten_map_sum {α β : Type} (f : α → List β) (l : List α) :
    ((l.map f).flatten : Multiset β) = (l.map fun a => (f a : Multiset β)).sum := by
  induction l with
  | nil => rfl
  | cons a l ih =>
    rw [List.map_cons, List.flatten_cons, ← Multiset.coe_add, ih, List.map_cons, List.sum_cons]

variable {json : Json V} {docs : List (Option V)} {n : ℕ} {lines : ℕ → List Str}

/-- **The files that are loaded** have the documents that were stored. -/
theorem Left.filed (h : Left s) (hlined : Lined json q.dir docs n lines) :
    Filed json (q.file s) (files s lines) docs := by
  have hfiles : ((paths s).map Prod.fst).Perm q.order := by
    refine (h.paths_perm.map Prod.fst).trans (List.Perm.of_eq ?_)
    rw [List.map_map]
    exact List.map_id' _
  refine ⟨?_, fun f hf => ?_, ?_⟩
  · have hnodup := hfiles.nodup_iff.mpr q.nodup
    rw [files, List.map_map]
    refine (List.Nodup.of_map _ hnodup).map_on fun a ha b hb hab => ?_
    have hidx : (repo s).idxOf a.1 = (repo s).idxOf b.1 := Nat.add_right_cancel hab
    have hsame : a.1 = b.1 := (List.idxOf_inj (h.mem_paths ha).2.2).mp hidx
    exact Prod.ext hsame ((h.mem_paths ha).2.1.trans (h.mem_paths hb).2.1.symm)
  · obtain ⟨path, hpath, rfl⟩ := List.mem_map.mp hf
    have hfile : getFile (repo s) ((repo s).idxOf path.1 + 2) = some path.1 := by
      unfold getFile
      rw [if_neg (by omega), Nat.add_sub_cancel]
      exact List.getElem?_idxOf (h.mem_paths hpath).2.2
    change ((getFile (repo s) _).bind q.dir).getD [] = _
    rw [hfile]
    exact hlined.contents path.1
  · have hlines : ((files s lines).map Prod.snd).flatten = (((paths s).map Prod.fst).map lines).flatten := by
      rw [files, List.map_map, List.map_map]
      rfl
    rw [hlines]
    refine ((hfiles.map lines).flatten).trans ?_
    rw [← Multiset.coe_eq_coe, coe_flatten_map_sum, ← List.sum_toFinset _ q.nodup]
    exact hlined.sum fun i hi => List.mem_toFinset.mpr ((q.lists i).mpr hi)

theorem Left.placed (h : Left s) (hlined : Lined json q.dir docs n lines) (htexts : Texts json parse)
    (hsample : Double.less q.sample (Double.ofInt 1) = false) :
    (paths s).flatMap (linesIn q.dir q.rand (repo s)) = placed (files s lines) := by
  have hall := (h.filed hlined).lines
  rw [FileLines.placed, files, List.flatMap_map]
  refine List.flatMap_congr fun path hpath => ?_
  obtain ⟨hsome, hsampled, -⟩ := h.mem_paths hpath
  obtain ⟨content', hcontent⟩ := Option.isSome_iff_exists.mp hsome
  have hcontents := hlined.contents path.1
  rw [hcontent, Option.getD_some] at hcontents
  unfold linesIn
  rw [hcontent, Option.map_some, Option.getD_some, hsampled, hcontents]
  refine batches_content _ _ hsample fun t ht => ?_
  have hmem : t ∈ ((files s lines).map Prod.snd).flatten := by
    rw [files, List.map_map]
    exact List.mem_flatten.mpr ⟨_, List.mem_map_of_mem hpath, ht⟩
  obtain ⟨doc, -, rfl⟩ := List.mem_map.mp (hall.subset hmem)
  exact htexts.notMem doc

/-- **What was stored is loaded**: in every run of a `LOAD` over a directory that was only stored to, with
the documents that are valid in some order, behind what the storage had. -/
theorem store_load (htexts : Texts json parse) (hsample : Double.less q.sample (Double.ofInt 1) = false)
    (hstored : Stored json q.dir docs) {past} (hrun : Run Init Step past s) (hgone : s.gone 3 0 = true) :
    (getOrAddStorage (IState.state (s.state 3 0))).container =
        (getOrAddStorage q.registered).container ++ q.loaded s ∧
      ((q.loaded s).flatten.map Parsed.doc).Perm docs.reduceOption := by
  obtain ⟨n, lines, hlined⟩ := hstored.lined
  have hleft := left_of_gone (run_inv hrun) hgone
  have hdocs := hleft.docs_perm
  rw [hleft.placed hlined htexts hsample] at hdocs
  refine ⟨?_, (hleft.filed hlined).docs_perm htexts hdocs⟩
  have hreceived := hleft.inv.gives hgone receiverWorker_gives
  unfold LoadQuery.loaded
  rw [hreceived, Joda.Pipeline.Storing.stored, List.drop_left]

/-- **Evicted documents are read again**: any documents of a container that was loaded, with their
intervals merged, from the files that they came from. -/
theorem evicted_read (htexts : Texts json parse) (hsample : Double.less q.sample (Double.ofInt 1) = false)
    (hstored : Stored json q.dir docs) {past} (hrun : Run Init Step past s) (hgone : s.gone 3 0 = true) :
    ∀ c ∈ q.loaded s, ∀ evicted : List (Parsed V), evicted.Sublist c →
      parseIntervals json.toRapidJson (q.file s) (mergeIntervals (evicted.map interval)) =
        some (evicted.map fun p => some p.doc) := by
  intro c hc evicted hevicted
  obtain ⟨n, lines, hlined⟩ := hstored.lined
  have hleft := left_of_gone (run_inv hrun) hgone
  have hdocs := hleft.docs_perm
  rw [hleft.placed hlined htexts hsample] at hdocs
  have hordered : Ordered c := by
    obtain ⟨sent, hsent, hc⟩ := List.mem_flatten.mp (hleft.loaded_perm.subset hc)
    obtain ⟨i, -, rfl⟩ := List.mem_map.mp hsent
    exact run_ordered parse _ (defaultScheduler_sorts _) _ _ c hc
  exact (hleft.filed hlined).evicted htexts hdocs hc hordered hevicted

end Load

/-! ### A directory -/

def StoreQuery.drivers (json : Json V) (q : StoreQuery V) : ∀ k i, Driver ((q.net json).worker k i)
  | 0, _ => oDriver Unit storageSender .synchronous ⟨q.registered, false⟩
  | 1, _ => ioDriver ⟨stringifier json, .multiThreaded, q.capacity⟩ ()
  | 2, i => iDriver Unit writeFiles (q.dir i)
  | _ + 3, _ => iDriver Unit ⟨fun s _ => s, id⟩ ()

def StoreQuery.start (json : Json V) (q : StoreQuery V) : State (q.net json) where
  queue _ := []
  state
    | 0, _ => OState.mk ⟨q.registered, false⟩ none (.left none)
    | 1, _ => Joda.Pipeline.Executor.State.mk () none none (.left none) [] 0 [] none [] [] [] []
    | 2, i => IState.mk (q.dir i) (.left none)
    | _ + 3, _ => IState.mk () (.left none)
  gone _ _ := false
  past _ _ := []

theorem StoreQuery.init_start (json : Json V) (q : StoreQuery V) : Init (q.start json) where
  queue _ := rfl
  state
    | 0, _ => rfl
    | 1, _ => ⟨⟨rfl, rfl, rfl, rfl, rfl, rfl, rfl, rfl⟩, rfl⟩
    | 2, _ => rfl
    | _ + 3, _ => rfl
  gone _ _ := rfl
  past _ _ := rfl

/-- Two containers, the bulks of which two copies of the writer share. -/
def twoContainers : StoreQuery Bool where
  registered := some ⟨[[some true, none], [some false]]⟩
  dir _ := none
  stringifiers := 1
  writers := 2
  capacity := 1
  stringifiers_pos := Nat.zero_lt_one
  writers_pos := Nat.zero_lt_two

def exported : Option
    (List (State (twoContainers.net brackets) × Σ k, ℕ × Act (StoreT Bool k) (StoreT Bool (k + 1))) ×
    State (twoContainers.net brackets)) :=
  drive (State.next (twoContainers.drivers brackets))
    (List.replicate 11 (0, 0) ++ List.replicate 20 (1, 0) ++ List.replicate 3 (2, 0) ++
      List.replicate 5 (2, 1) ++ List.replicate 2 (2, 0)) [] (twoContainers.start brackets)

theorem isSome_exported : exported.isSome = true := rfl

theorem run_exported : Run Init Step (exported.get isSome_exported).1 (exported.get isSome_exported).2 :=
  (Run.start (twoContainers.init_start brackets)).drive (fun _ _ _ => step_of_next _)
    (@Option.some_get _ exported isSome_exported).symm

/-- The directory has the files `{}` with an empty line, and `[]`. -/
def twoFiles : Directory := twoContainers.after (exported.get isSome_exported).2

theorem stored_twoFiles : Stored brackets twoFiles [some true, none, some false] := by
  have hgone : ∀ i, i < 2 → (exported.get isSome_exported).2.gone 2 i = true := fun i hi => by
    have hcases : i = 0 ∨ i = 1 := by omega
    rcases hcases with rfl | rfl
    · rfl
    · rfl
  exact Stored.store .empty run_exported hgone

def LoadQuery.drivers (parse : Str → Option V) (q : LoadQuery V F) :
    ∀ k i, Driver ((q.net parse).worker k i)
  | 0, _ => oDriver Unit (listDir q.order q.sample) .singleThreaded false
  | 1, _ => ioDriver ⟨fileMapper q.dir q.rand, .singleThreaded, q.capacity⟩ q.repo
  | 2, i => ioDriver ⟨textParser parse (defaultScheduler V (q.hasSpace i)), .multiThreaded, q.capacity⟩
      ((0, []) : ℕ × List (Parsed V))
  | 3, _ => iDriver Unit storageReceiver q.registered
  | _ + 4, _ => iDriver Unit ⟨fun s _ => s, id⟩ ()

def LoadQuery.start (parse : Str → Option V) (q : LoadQuery V F) : State (q.net parse) where
  queue _ := []
  state
    | 0, _ => OState.mk false none (.left none)
    | 1, _ => Joda.Pipeline.Executor.State.mk q.repo none none (.left none) [] 0 [] none [] [] [] []
    | 2, _ => Joda.Pipeline.Executor.State.mk ((0, []) : ℕ × List (Parsed V)) none none (.left none) [] 0 []
        none [] [] [] []
    | 3, _ => IState.mk q.registered (.left none)
    | _ + 4, _ => IState.mk () (.left none)
  gone _ _ := false
  past _ _ := []

theorem LoadQuery.init_start (parse : Str → Option V) (q : LoadQuery V F) : Init (q.start parse) where
  queue _ := rfl
  state
    | 0, _ => rfl
    | 1, _ => ⟨⟨rfl, rfl, rfl, rfl, rfl, rfl, rfl, rfl⟩, rfl⟩
    | 2, _ => ⟨⟨rfl, rfl, rfl, rfl, rfl, rfl, rfl, rfl⟩, rfl⟩
    | 3, _ => rfl
    | _ + 4, _ => rfl
  gone _ _ := rfl
  past _ _ := rfl

/-- The text of a document, and no more than whitespace behind it. -/
def readBracket (s : Str) : Option Bool :=
  match brackets.parseStream s with
  | .document v rest => if rest.all isWhitespace then some v else none
  | _ => none

theorem brackets_texts : Texts brackets readBracket := by
  refine ⟨fun v => ?_, fun v => ?_, fun v => ?_⟩
  · rcases v with - | - <;> rfl
  · rcases v with - | - <;> decide
  · rcases v with - | - <;> decide

theorem one_sample : Double.less (1 : ℚ) (Double.ofInt 1) = false := by
  simp [Double.less, Double.ofInt]

theorem twoFiles_lists (i : ℕ) : i ∈ [1, 0] ↔ (twoFiles i).isSome := by
  rcases Nat.lt_or_ge i 2 with hlt | hge
  · have hcases : i = 0 ∨ i = 1 := by omega
    rcases hcases with rfl | rfl
    · exact ⟨fun _ => rfl, fun _ => by simp⟩
    · exact ⟨fun _ => rfl, fun _ => by simp⟩
  · have hnone : twoFiles i = none := if_neg (Nat.not_lt.mpr hge)
    rw [hnone]
    refine ⟨fun h => ?_, fun h => by cases h⟩
    simp only [List.mem_cons, List.not_mem_nil, or_false] at h
    omega

theorem nodup_order : [1, 0].Nodup := by decide

/-- The second file is listed first; two copies of the parser share its lines. -/
def loadTwo : LoadQuery Bool ℚ where
  dir := twoFiles
  order := [1, 0]
  nodup := nodup_order
  lists := twoFiles_lists
  sample := 1
  rand _ _ := 0
  repo := [7]
  hasSpace _ _ := true
  registered := none
  parsers := 2
  capacity := 1
  parsers_pos := Nat.zero_lt_two

def loadedTwo : Option
    (List (State (loadTwo.net readBracket) × Σ k, ℕ × Act (LoadT Bool ℚ k) (LoadT Bool ℚ (k + 1))) ×
    State (loadTwo.net readBracket)) :=
  drive (State.next (loadTwo.drivers readBracket))
    (List.replicate 11 (0, 0) ++ List.replicate 20 (1, 0) ++ List.replicate 4 (2, 0) ++
      List.replicate 15 (2, 1) ++ List.replicate 11 (2, 0) ++ List.replicate 7 (3, 0)) []
    (loadTwo.start readBracket)

theorem isSome_loadedTwo : loadedTwo.isSome = true := rfl

theorem run_loadedTwo :
    Run Init Step (loadedTwo.get isSome_loadedTwo).1 (loadedTwo.get isSome_loadedTwo).2 :=
  (Run.start (loadTwo.init_start readBracket)).drive (fun _ _ _ => step_of_next _)
    (@Option.some_get _ loadedTwo isSome_loadedTwo).symm

theorem store_load_two :
    ((loadTwo.loaded (loadedTwo.get isSome_loadedTwo).2).flatten.map Parsed.doc).Perm [true, false] := by
  have hload := store_load brackets_texts one_sample stored_twoFiles run_loadedTwo rfl
  exact hload.2

/-- The first container that is loaded. -/
def firstLoaded : List (Parsed Bool) :=
  (loadTwo.loaded (loadedTwo.get isSome_loadedTwo).2).headD []

theorem firstLoaded_mem : firstLoaded ∈ loadTwo.loaded (loadedTwo.get isSome_loadedTwo).2 :=
  List.mem_cons_self

theorem firstLoaded_docs : firstLoaded.map (fun p => some p.doc) = [some true] := by decide +kernel

theorem evicted_read_two :
    parseIntervals brackets.toRapidJson (loadTwo.file (loadedTwo.get isSome_loadedTwo).2)
      (mergeIntervals (firstLoaded.map interval)) = some [some true] := by
  rw [← firstLoaded_docs]
  exact evicted_read brackets_texts one_sample stored_twoFiles run_loadedTwo rfl firstLoaded firstLoaded_mem
    firstLoaded (List.Sublist.refl _)

end Joda.Export.StoreLoad
