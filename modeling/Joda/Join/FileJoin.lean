import Joda.Join.JoinManager
import Joda.Lib.Grouping
import Joda.Lib.Lookup
import Joda.Storage.View
import Mathlib.Data.Nat.Digits.Defs

/-! # The join through files

`FileJoinManager` has a file for each join value: a line with the type of the value, a line with the
value, and a line for each document. `JoinParser` reads such a file line by line.

A `join` that does not return (the mutex is held already) has no result. Writing and parsing one JSON
value are a parameter. -/

namespace Joda.Join.FileJoin

open Joda.Values.Value Joda.Join.JoinManager Joda.Lib.Grouping Joda.Lib.Lookup
open Joda.Values.Pointer (isDigit digits)
open Joda.Storage.View (isSpace)

/-- **RapidJSON's `Writer` and `Parse`**; `none` is a parse error. -/
structure RapidJson (F : Type) where
  write : RJValue F → Str
  parse : Str → Option (RJValue F)

/-- `locked` says whether `mut` is held. The files are told by their ids; `fLock` has the ids that have
a lock. -/
structure FileJoinManager where
  locked : Bool
  currID : ℕ
  lMap : List (ℤ × ℕ)
  sMap : List (Str × ℕ)
  trueValCreated : Bool
  falseValCreated : Bool
  fLock : List ℕ
  files : List (ℕ × Str)

/-! ### Storing -/

/-- A number as it is written to a stream. -/
def printNat (n : ℕ) : Str :=
  if n = 0 then [48] else ((Nat.digits 10 n).map fun d => d.toUInt8 + 48).reverse

def printInt (z : ℤ) : Str := if z < 0 then 45 :: printNat z.natAbs else printNat z.natAbs

/-- The text of the two lines `createFile` writes for a value. -/
def header : JoinValue → Str
  | .bool b => ascii "BOOL" ++ [10] ++ (if b then ascii "true" else ascii "false") ++ [10]
  | .int d => ascii "INT" ++ [10] ++ printInt d ++ [10]
  | .string s => ascii "STR" ++ [10] ++ s ++ [10]

/-- The file is written anew. -/
def writeFile (id : ℕ) (text : Str) (files : List (ℕ × Str)) : List (ℕ × Str) :=
  files.filter (·.1 ≠ id) ++ [(id, text)]

/-- `createFile(getFile(id), val)`, and the lock of the file. -/
def createFile (m : FileJoinManager) (id : ℕ) (val : JoinValue) : FileJoinManager :=
  { m with
    files := writeFile id (header val) m.files
    fLock := if id ∈ m.fLock then m.fLock else m.fLock ++ [id] }

/-- **`getJoinVal`**; both Booleans have the header of `true`. -/
def getJoinVal (m : FileJoinManager) : JoinValue → FileJoinManager × ℕ
  | .bool true =>
    if m.trueValCreated then (m, trueVal)
    else ({ createFile m trueVal (.bool true) with trueValCreated := true }, trueVal)
  | .bool false =>
    if m.falseValCreated then (m, falseVal)
    else ({ createFile m falseVal (.bool true) with falseValCreated := true }, falseVal)
  | .int d =>
    match m.lMap.lookup d with
    | some id => (m, id)
    | none =>
      let id := m.currID + 1
      (createFile { m with currID := id, lMap := m.lMap ++ [(d, id)] } id (.int d), id)
  | .string s =>
    match m.sMap.lookup s with
    | some id => (m, id)
    | none =>
      let id := m.currID + 1
      (createFile { m with currID := id, sMap := m.sMap ++ [(s, id)] } id (.string s), id)

variable {Doc F : Type} [Double F] (D : Documents Doc F) (J : RapidJson F)

/-- `appendDocToFile`: the document is a line of its file. -/
def appendDocToFile (doc : Doc) (id : ℕ) (files : List (ℕ × Str)) : List (ℕ × Str) :=
  files.map fun f => if f.1 = id then (f.1, f.2 ++ (cString (J.write (D.content doc)) ++ [10])) else f

/-- **`join`**. Where the value is not hashable it returns without unlocking. -/
def join (m : FileJoinManager) (doc : Doc) : Option FileJoinManager :=
  match D.valProv doc with
  | none => some m
  | some val =>
    if m.locked then none
    else match hashable val with
      | none => some { m with locked := true }
      | some v =>
        let r := getJoinVal m v.read
        some { r.1 with files := appendDocToFile D J doc r.2 r.1.files }

/-- The documents are joined one after the other. -/
def joinAll (m : FileJoinManager) (docs : List Doc) : Option FileJoinManager :=
  docs.foldlM (join D J) m

/-- A new manager. -/
def newManager : FileJoinManager := ⟨false, startNormalVal, [], [], false, false, [], []⟩

/-! ### Loading -/

/-- `std::getline`, with what is left of the file. -/
def getline (text : Str) : Option (Str × Str) :=
  if text = [] then none else some (text.takeWhile (· ≠ 10), (text.dropWhile (· ≠ 10)).tail)

theorem getline_length {text line rest : Str} (h : getline text = some (line, rest)) :
    rest.length < text.length := by
  unfold getline at h
  split_ifs at h with hnil
  obtain ⟨-, rfl⟩ := Prod.mk.inj (Option.some.inj h)
  have hsplit := congrArg List.length (List.takeWhile_append_dropWhile (p := (· ≠ 10)) (l := text))
  have hpos : 0 < text.length := List.length_pos_iff.mpr hnil
  rw [List.length_append] at hsplit
  rw [List.length_tail]
  omega

/-- The loop over the lines of the documents. -/
def readDocs (text : Str) : List (RJValue F) :=
  match h : getline text with
  | none => []
  | some (line, rest) =>
    have := getline_length h
    match J.parse (cString line) with
    | none => readDocs rest
    | some doc => doc :: readDocs rest
termination_by text.length

/-- `std::atoll` -/
def atoll (s : Str) : ℤ :=
  let s := s.dropWhile isSpace
  let ds := (if s.head? = some 45 ∨ s.head? = some 43 then s.tail else s).takeWhile isDigit
  if s.head? = some 45 then -digits ds else digits ds

/-- The value the two lines of the header stand for. -/
def readHeader (header₁ header₂ : Str) : Option (RJValue F) :=
  if header₁ = ascii "BOOL" then
    if header₂ = ascii "true" then some (.bool true)
    else if header₂ = ascii "false" then some (.bool false)
    else none
  else if header₁ = ascii "INT" then some (.number (.int (atoll (cString header₂))))
  else if header₁ = ascii "STR" then some (.string (cString header₂))
  else none

/-- The document `JoinParser::parse` puts together from a file, `joinDoc`. -/
def joinDoc (name text : Str) : Option (RJValue F) := do
  let (header₁, text) ← getline text
  let (header₂, text) ← getline text
  let val ← readHeader header₁ header₂
  return .object [(cString name, val), (ascii "joins", .array (readDocs J text))]

/-- **`JoinParser::parse`**: the container after it. The document is put together, and not inserted. -/
def parse (name text : Str) (cont : List (RJValue F)) : List (RJValue F) :=
  match joinDoc J name text with
  | none => cont
  | some _ => cont

/-- **`LoadJoinFiles` and its parser**: the documents of the containers, one container for each file;
no result where `getJoinFiles` waits for the mutex. -/
def load (name : Str) (m : FileJoinManager) : Option (List (RJValue F)) :=
  if m.locked then none
  else some (m.fLock.reverse.flatMap fun id => parse J name ((m.files.lookup id).getD []) [])

/-! ### What the join is for -/

/-- The documents that have a join value, with it. -/
def stored (docs : List Doc) : List (JoinValue × Doc) :=
  docs.filterMap fun doc => (D.joinValue doc).map (·, doc)

/-- The document for a value. -/
def result (name : Str) (g : JoinValue × List (JoinValue × Doc)) : RJValue F :=
  .object [(name, g.1.toJson), (ascii "joins", .array (g.2.map fun d => D.content d.2))]

/-- **Joining through files loses nothing**: the documents are joined and the files are loaded, and for
each value there is one document, with the value and the documents stored under it. -/
def LosesNothing (name : Str) (docs : List Doc) : Prop :=
  ∃ m out, joinAll D J newManager docs = some m ∧ load J name m = some out ∧
    ∃ gs, IsGrouping Prod.fst (stored D docs) gs ∧ out.Perm (gs.map (result D name))

variable {D J}

omit [Double F] in
theorem parse_eq (name text : Str) (cont : List (RJValue F)) : parse J name text cont = cont := by
  unfold parse
  cases joinDoc J name text <;> rfl

omit [Double F] in
/-- No document is loaded. -/
theorem load_eq {name : Str} {m : FileJoinManager} {out : List (RJValue F)}
    (h : load J name m = some out) : m.locked = false ∧ out = [] := by
  unfold load at h
  by_cases hl : m.locked = true
  · rw [if_pos hl] at h
    cases h
  · rw [if_neg hl] at h
    refine ⟨Bool.not_eq_true _ ▸ hl, ?_⟩
    rw [← Option.some.inj h]
    simp [parse_eq]

/-- While the mutex is held, only documents without a join value can be joined. -/
theorem join_of_locked {m m' : FileJoinManager} {doc : Doc} (hl : m.locked = true)
    (h : join D J m doc = some m') : m' = m := by
  unfold join at h
  cases hv : D.valProv doc with
  | none =>
    rw [hv] at h
    exact (Option.some.inj h).symm
  | some val =>
    simp [hv, hl] at h

theorem joinAll_of_locked : ∀ {docs : List Doc} {m m' : FileJoinManager}, m.locked = true →
    joinAll D J m docs = some m' → m'.locked = true
  | [], m, m', hl, h => by
    obtain rfl := Option.some.inj h
    exact hl
  | doc :: docs, m, m', hl, h => by
    unfold joinAll at h
    rw [List.foldlM_cons] at h
    obtain ⟨m₁, h1, h2⟩ := Option.bind_eq_some_iff.mp h
    rw [join_of_locked hl h1] at h2
    exact joinAll_of_locked hl h2

/-- A value that is not hashable leaves the mutex locked. -/
theorem joinAll_locked : ∀ {docs : List Doc} {m m' : FileJoinManager},
    joinAll D J m docs = some m' → (∀ doc ∈ docs, D.joinValue doc = none) → m'.locked = false →
      ∀ doc ∈ docs, D.valProv doc = none
  | [], _, _, _, _, _, _, hdoc => nomatch hdoc
  | d :: docs, m, m', h, hnone, hl, doc, hdoc => by
    unfold joinAll at h
    rw [List.foldlM_cons] at h
    obtain ⟨m₁, h1, h2⟩ := Option.bind_eq_some_iff.mp h
    have hd := hnone d List.mem_cons_self
    have hvalue : D.valProv d = none := by
      by_contra hne
      obtain ⟨val, hv⟩ := Option.ne_none_iff_exists'.mp hne
      rw [Documents.joinValue, hv, Option.bind_some] at hd
      have hlocked : m₁.locked = true := by
        unfold join at h1
        simp only [hv, hd] at h1
        split_ifs at h1 with hm
        rw [← Option.some.inj h1]
      have := joinAll_of_locked hlocked h2
      rw [hl] at this
      cases this
    rcases List.mem_cons.mp hdoc with rfl | hdoc
    · exact hvalue
    · exact joinAll_locked h2 (fun doc hd => hnone doc (List.mem_cons_of_mem d hd)) hl doc hdoc

theorem joinAll_missing : ∀ {docs : List Doc} (m : FileJoinManager),
    (∀ doc ∈ docs, D.valProv doc = none) → joinAll D J m docs = some m
  | [], _, _ => rfl
  | doc :: docs, m, h => by
    have hdoc : join D J m doc = some m := by
      unfold join
      rw [h doc List.mem_cons_self]
    unfold joinAll
    rw [List.foldlM_cons, hdoc]
    exact joinAll_missing m fun d hd => h d (List.mem_cons_of_mem doc hd)

theorem stored_eq_nil {docs : List Doc} :
    stored D docs = [] ↔ ∀ doc ∈ docs, D.joinValue doc = none := by
  unfold stored
  simp

/-- **Joining through files loses nothing exactly if no document has a join value**: the parser
inserts no document, and the mutex stays locked after a value that is not hashable. -/
theorem losesNothing_iff (D : Documents Doc F) (J : RapidJson F) (name : Str) (docs : List Doc) :
    LosesNothing D J name docs ↔ ∀ doc ∈ docs, D.valProv doc = none := by
  constructor
  · rintro ⟨m, out, hjoin, hload, gs, hgs, hperm⟩
    obtain ⟨hl, rfl⟩ := load_eq hload
    have hnil : gs = [] := List.map_eq_nil_iff.mp (List.nil_perm.mp hperm)
    have hstored : stored D docs = [] := by
      rw [hnil] at hgs
      exact List.eq_nil_iff_forall_not_mem.mpr fun d hd => by simpa using hgs.complete d hd
    exact joinAll_locked hjoin (stored_eq_nil.mp hstored) hl
  · intro h
    have hstored : stored D docs = [] := stored_eq_nil.mpr fun doc hd => by
      rw [Documents.joinValue, h doc hd]
      rfl
    refine ⟨newManager, [], joinAll_missing _ h, rfl, [], ?_, List.Perm.refl _⟩
    rw [hstored]
    exact ⟨List.nodup_nil, fun _ ha => (nomatch ha), fun _ hg => (nomatch hg),
      fun _ hg => (nomatch hg)⟩

/-- One document with the value 1: nothing is loaded. -/
theorem file_join_loses : ¬ LosesNothing (F := Float)
    ⟨fun _ : Unit => some (.number (.int 1)), fun _ => .null, fun _ => .null⟩
    ⟨fun _ => ascii "null", fun _ => some .null⟩ (ascii "j") [()] := by
  rintro ⟨m, out, -, hload, gs, hgs, hperm⟩
  obtain ⟨-, rfl⟩ := load_eq hload
  have hnil : gs = [] := List.map_eq_nil_iff.mp (List.nil_perm.mp hperm)
  rw [hnil] at hgs
  exact absurd (hgs.complete (.int 1, ()) List.mem_cons_self) List.not_mem_nil

end Joda.Join.FileJoin
