import Joda.Join.JoinManager
import Joda.Lib.Grouping
import Joda.Lib.Lookup
import Joda.Lib.Runs

/-! # The join in memory

`MemoryJoinManager` has a document for each join value, to which `join` adds documents and which
`loadOneJoinCont` takes out. The ids of the values are in maps and flags, the documents in a table by
id.

A `join` is not one section: a Boolean's flag is tested outside the mutex, the document for the value
is made in one section and looked up in another, and the document is added under its own mutex. A
thread is therefore between two `Section`s of its `join`; the steps of the threads and the loads come in
any order. What a load leaves in the table, because its container is full, is left open. -/

namespace Joda.Join.MemoryJoin

open Joda.Values.Value Joda.Join.JoinManager Joda.Lib.Runs Joda.Lib.Grouping Joda.Lib.Lookup

variable {Doc F : Type}

/-- The members `value` and `join` of its document. -/
structure MemoryJoinDoc (F : Type) where
  value : JoinValue
  join : List (RJValue F)

/-- The document that is emitted. -/
def MemoryJoinDoc.toJson (d : MemoryJoinDoc F) : RJValue F :=
  .object [(ascii "join", .array d.join), (ascii "value", d.value.toJson)]

/-- An entry of `docs` is null or owns the object at an address. -/
structure MemoryJoinManager (F : Type) where
  currID : ℕ
  lMap : List (ℤ × ℕ)
  sMap : List (Str × ℕ)
  trueValCreated : Bool
  falseValCreated : Bool
  joinSize : ℕ
  docs : List (ℕ × Option (ℕ × MemoryJoinDoc F))

/-- Where a thread is in its `join`. -/
inductive Section (Doc : Type) where
  | idle
  /-- The flag of a Boolean was found unset. -/
  | create (b : Bool) (doc : Doc)
  /-- `getJoinVal` has returned. -/
  | lookup (id : ℕ) (doc : Doc)
  /-- The address of the document is known, or null. -/
  | push (d : Option ℕ) (doc : Doc)

/-- A document that was joined, after so many loads. -/
structure Joined (F : Type) where
  loads : ℕ
  value : JoinValue
  content : RJValue F

/-- The manager and its threads, and what was observed: whether a null pointer or a pointer to a removed
object was used, what was joined and what was emitted. -/
structure Execution (Doc F : Type) where
  manager : MemoryJoinManager F
  threads : ℕ → Section Doc
  allocated : ℕ
  crashed : Bool
  loads : ℕ
  joined : List (Joined F)
  emitted : List (MemoryJoinDoc F)

/-- `docs[id] = doc` -/
def putDoc (id : ℕ) (doc : Option (ℕ × MemoryJoinDoc F)) :
    List (ℕ × Option (ℕ × MemoryJoinDoc F)) → List (ℕ × Option (ℕ × MemoryJoinDoc F))
  | [] => [(id, doc)]
  | e :: docs => if e.1 = id then (id, doc) :: docs else e :: putDoc id doc docs

/-- The object at an address gets a document, if it is still there. -/
def pushBack (address : ℕ) (json : RJValue F) (docs : List (ℕ × Option (ℕ × MemoryJoinDoc F))) :
    Option (List (ℕ × Option (ℕ × MemoryJoinDoc F))) :=
  if docs.any fun e => e.2.any (·.1 = address) then
    some (docs.map fun e => (e.1, e.2.map fun o =>
      if o.1 = address then (o.1, { o.2 with join := o.2.join ++ [json] }) else o))
  else none

/-- What the maps and flags say about a value. -/
def idOf (m : MemoryJoinManager F) : JoinValue → Option ℕ
  | .bool true => if m.trueValCreated then some trueVal else none
  | .bool false => if m.falseValCreated then some falseVal else none
  | .int d => m.lMap.lookup d
  | .string s => m.sMap.lookup s

/-- `docs[id] = std::make_unique<MemoryJoinDoc>(v)` -/
def makeDoc (s : Execution Doc F) (id : ℕ) (v : JoinValue) : Execution Doc F :=
  { s with
    manager := { s.manager with docs := putDoc id (some (s.allocated, ⟨v, []⟩)) s.manager.docs }
    allocated := s.allocated + 1 }

def setThread (s : Execution Doc F) (t : ℕ) (at_ : Section Doc) : Execution Doc F :=
  { s with threads := Function.update s.threads t at_ }

/-- **`getJoinVal`**, for a Boolean only the test of its flag. -/
def getJoinVal (s : Execution Doc F) (t : ℕ) (doc : Doc) : JoinValue → Execution Doc F
  | .bool b =>
    match idOf s.manager (.bool b) with
    | some id => setThread s t (.lookup id doc)
    | none => setThread s t (.create b doc)
  | .int d =>
    match s.manager.lMap.lookup d with
    | some id => setThread s t (.lookup id doc)
    | none =>
      let id := s.manager.currID + 1
      let s := { s with
        manager := { s.manager with currID := id, lMap := s.manager.lMap ++ [(d, id)] } }
      setThread (makeDoc s id (.int d)) t (.lookup id doc)
  | .string str =>
    match s.manager.sMap.lookup str with
    | some id => setThread s t (.lookup id doc)
    | none =>
      let id := s.manager.currID + 1
      let s := { s with
        manager := { s.manager with currID := id, sMap := s.manager.sMap ++ [(str, id)] } }
      setThread (makeDoc s id (.string str)) t (.lookup id doc)

/-- The section of `getJoinVal` that makes the document for a Boolean. -/
def createBool (s : Execution Doc F) (t : ℕ) (doc : Doc) (b : Bool) : Execution Doc F :=
  let s := makeDoc s (if b then trueVal else falseVal) (.bool b)
  let s := { s with manager :=
    if b then { s.manager with trueValCreated := true }
    else { s.manager with falseValCreated := true } }
  setThread s t (.lookup (if b then trueVal else falseVal) doc)

/-- `docs[id].get()`, which makes a null entry if there is none. -/
def lookupDoc (s : Execution Doc F) (t : ℕ) (doc : Doc) (id : ℕ) : Execution Doc F :=
  match s.manager.docs.lookup id with
  | some d => setThread s t (.push (d.map Prod.fst) doc)
  | none => setThread { s with
      manager := { s.manager with docs := s.manager.docs ++ [(id, none)] } } t (.push none doc)

/-- `d->join(*(doc.getJson()))`; the document is joined then. -/
def joinDoc [Double F] (D : Documents Doc F) (s : Execution Doc F) (t : ℕ) (doc : Doc)
    (d : Option ℕ) : Execution Doc F :=
  match d.bind fun address => pushBack address (D.getJson doc) s.manager.docs with
  | none => { s with crashed := true }
  | some docs => setThread { s with
      manager := { s.manager with docs }
      joined := s.joined ++ ((D.joinValue doc).map (⟨s.loads, ·, D.content doc⟩)).toList } t .idle

/-- **`loadOneJoinCont`**, with the ids of the documents that were taken out when the container was
full. -/
def loadOneJoinCont (getMemSize : MemoryJoinDoc F → ℕ) (s : Execution Doc F) (taken : List ℕ) :
    Execution Doc F :=
  let docs := s.manager.docs
  let out := docs.filter (·.1 ∈ taken)
  if docs = [] then s
  else if s.manager.joinSize = 0 ∧ docs.any (·.2.isNone) ∨ out.any (·.2.isNone) then
    { s with crashed := true }
  else
    let joinSize := if s.manager.joinSize = 0 then
      (docs.filterMap (·.2)).foldl (fun n o => n + getMemSize o.2) 0 else s.manager.joinSize
    { s with
      manager := { s.manager with joinSize, docs := docs.filter (·.1 ∉ taken) }
      loads := s.loads + 1
      emitted := s.emitted ++ (out.filterMap (·.2)).map Prod.snd }

inductive Event (Doc : Type) where
  | join (t : ℕ) (doc : Doc)
  | step (t : ℕ)
  | load (taken : List ℕ)

/-- **An event**: a thread begins a `join`, goes on with it, or a container is loaded, which takes at
least one document. -/
inductive Step [Double F] (D : Documents Doc F) (getMemSize : MemoryJoinDoc F → ℕ) :
    Event Doc → Execution Doc F → Execution Doc F → Prop
  | skip {s : Execution Doc F} {t : ℕ} {doc : Doc} (hc : s.crashed = false)
      (ht : s.threads t = .idle) (hv : D.joinValue doc = none) : Step D getMemSize (.join t doc) s s
  | begin {s : Execution Doc F} {t : ℕ} {doc : Doc} {v : JoinValue} (hc : s.crashed = false)
      (ht : s.threads t = .idle) (hv : D.joinValue doc = some v) :
      Step D getMemSize (.join t doc) s (getJoinVal s t doc v.read)
  | create {s : Execution Doc F} {t : ℕ} {doc : Doc} {b : Bool} (hc : s.crashed = false)
      (ht : s.threads t = .create b doc) : Step D getMemSize (.step t) s (createBool s t doc b)
  | lookup {s : Execution Doc F} {t : ℕ} {doc : Doc} {id : ℕ} (hc : s.crashed = false)
      (ht : s.threads t = .lookup id doc) : Step D getMemSize (.step t) s (lookupDoc s t doc id)
  | push {s : Execution Doc F} {t : ℕ} {doc : Doc} {d : Option ℕ} (hc : s.crashed = false)
      (ht : s.threads t = .push d doc) : Step D getMemSize (.step t) s (joinDoc D s t doc d)
  | load {s : Execution Doc F} {taken : List ℕ} (hc : s.crashed = false)
      (hn : s.manager.docs ≠ [] → taken ≠ []) (ht : ∀ id ∈ taken, id ∈ s.manager.docs.map Prod.fst) :
      Step D getMemSize (.load taken) s (loadOneJoinCont getMemSize s taken)

/-- A new manager. -/
def Init (s : Execution Doc F) : Prop :=
  s = ⟨⟨startNormalVal, [], [], false, false, 0, []⟩, fun _ => .idle, 0, false, 0, [], []⟩

/-! ### What the join relies on -/

variable [Double F] (D : Documents Doc F)

/-- **The condition on the steps.** A document is not one of a view, a string has no zero byte, and no
value is joined again after a load; a Boolean's document is not made while another thread has made it;
no container is loaded while a thread is between two sections for a document of the table. -/
def Meets (s : Execution Doc F) : Event Doc → Prop
  | .join _ doc => ∀ v, D.joinValue doc = some v →
      D.getJson doc = D.content doc ∧ v.read = v ∧ ∀ r ∈ s.joined, r.value = v → r.loads = s.loads
  | .step t => ∀ b doc, s.threads t = .create b doc → idOf s.manager (.bool b) = none
  | .load _ => ∀ t doc, (∀ id, s.threads t ≠ .lookup id doc) ∧ ∀ d, s.threads t ≠ .push d doc

/-- The documents with something to emit. -/
def waiting (m : MemoryJoinManager F) : List (MemoryJoinDoc F) :=
  (m.docs.filterMap fun e => e.2.map Prod.snd).filter fun d => !d.join.isEmpty

/-- **Every document is emitted once, in the group of its value**: no null pointer and no removed object
was used, and what was emitted or waits in the table is, for each value and each time between two loads,
one document with the value and all that was joined. -/
def GroupedOnce (s : Execution Doc F) : Prop :=
  s.crashed = false ∧ ∃ gs, IsGrouping (fun r => (r.loads, r.value)) s.joined gs ∧
    (s.emitted ++ waiting s.manager).map MemoryJoinDoc.toJson =
      gs.map fun g => MemoryJoinDoc.toJson ⟨g.1.2, g.2.map Joined.content⟩

/-! ### The table -/

/-- An entry with an object. -/
def entry (e : ℕ × ℕ × MemoryJoinDoc F) : ℕ × Option (ℕ × MemoryJoinDoc F) := (e.1, some e.2)

/-- The object at an address gets a document. -/
def joined (address : ℕ) (json : RJValue F) (e : ℕ × ℕ × MemoryJoinDoc F) :
    ℕ × ℕ × MemoryJoinDoc F :=
  if e.2.1 = address then (e.1, e.2.1, { e.2.2 with join := e.2.2.join ++ [json] }) else e

omit [Double F] in
theorem putDoc_new {id : ℕ} {o : ℕ × MemoryJoinDoc F} : ∀ {es : List (ℕ × ℕ × MemoryJoinDoc F)},
    (∀ e ∈ es, e.1 ≠ id) → putDoc id (some o) (es.map entry) = (es ++ [(id, o)]).map entry
  | [], _ => rfl
  | e :: es, h => by
    have hne : (entry e).1 ≠ id := h e List.mem_cons_self
    rw [List.map_cons, putDoc, if_neg hne,
      putDoc_new fun e' he' => h e' (List.mem_cons_of_mem _ he')]
    rfl

omit [Double F] in
theorem pushBack_mem {address : ℕ} {es : List (ℕ × ℕ × MemoryJoinDoc F)}
    {e : ℕ × ℕ × MemoryJoinDoc F} (he : e ∈ es) (ha : e.2.1 = address) (json : RJValue F) :
    pushBack address json (es.map entry) = some ((es.map (joined address json)).map entry) := by
  unfold pushBack
  rw [if_pos, List.map_map, List.map_map]
  · congr 1
    refine List.map_congr_left fun e' _ => ?_
    by_cases h : e'.2.1 = address
    · simp [entry, joined, h]
    · simp [entry, joined, h]
  · exact List.any_eq_true.mpr ⟨entry e, List.mem_map_of_mem he, by simp [entry, ha]⟩

omit [Double F] in
@[simp] theorem joined_id (address : ℕ) (json : RJValue F) (e : ℕ × ℕ × MemoryJoinDoc F) :
    (joined address json e).1 = e.1 := by
  unfold joined
  split_ifs <;> rfl

omit [Double F] in
@[simp] theorem joined_address (address : ℕ) (json : RJValue F) (e : ℕ × ℕ × MemoryJoinDoc F) :
    (joined address json e).2.1 = e.2.1 := by
  unfold joined
  split_ifs <;> rfl

omit [Double F] in
@[simp] theorem joined_value (address : ℕ) (json : RJValue F) (e : ℕ × ℕ × MemoryJoinDoc F) :
    (joined address json e).2.2.value = e.2.2.value := by
  unfold joined
  split_ifs <;> rfl

/-! ### The invariant -/

/-- The documents, those that were emitted first. -/
def groups (s : Execution Doc F) (es : List (ℕ × ℕ × MemoryJoinDoc F)) : List (MemoryJoinDoc F) :=
  s.emitted ++ es.map fun e => e.2.2

/-- A thread is about to join a document to the one of the entry. -/
structure Joins (js : List (Joined F)) (loads : ℕ) (doc : Doc) (e : ℕ × ℕ × MemoryJoinDoc F) :
    Prop where
  value : D.joinValue doc = some e.2.2.value
  json : D.getJson doc = D.content doc
  now : ∀ r ∈ js, r.value = e.2.2.value → r.loads = loads

/-- What holds of a thread. -/
def ThreadOk (js : List (Joined F)) (loads : ℕ) (es : List (ℕ × ℕ × MemoryJoinDoc F)) :
    Section Doc → Prop
  | .idle => True
  | .create b doc => D.joinValue doc = some (.bool b) ∧ D.getJson doc = D.content doc
  | .lookup id doc => ∃ e ∈ es, e.1 = id ∧ Joins D js loads doc e
  | .push d doc => ∃ e ∈ es, d = some e.2.1 ∧ Joins D js loads doc e

/-- The thread is between two sections for the entry. -/
def Holds (e : ℕ × ℕ × MemoryJoinDoc F) : Section Doc → Prop
  | .lookup id _ => e.1 = id
  | .push d _ => d = some e.2.1
  | _ => False

/-- **The invariant** that relates the maps and flags, the table, the threads and what was observed. -/
structure InvAt (s : Execution Doc F) (es : List (ℕ × ℕ × MemoryJoinDoc F)) : Prop where
  docs : s.manager.docs = es.map entry
  alive : s.crashed = false
  addresses : (es.map fun e => e.2.1).Nodup
  allocated : ∀ e ∈ es, e.2.1 < s.allocated
  start : startNormalVal ≤ s.manager.currID
  bound : ∀ v id, idOf s.manager v = some id → id ≤ s.manager.currID
  normal : ∀ v id, idOf s.manager v = some id → (∀ b, v ≠ .bool b) → startNormalVal < id
  injective : ∀ v w id, idOf s.manager v = some id → idOf s.manager w = some id → v = w
  ids : ∀ e ∈ es, idOf s.manager e.2.2.value = some e.1
  known : ∀ v, (idOf s.manager v).isSome ↔ v ∈ (groups s es).map MemoryJoinDoc.value
  values : ((groups s es).map MemoryJoinDoc.value).Nodup
  join : ∀ d ∈ groups s es, d.join = (s.joined.filter (·.value = d.value)).map Joined.content
  complete : ∀ r ∈ s.joined, r.value ∈ (groups s es).map MemoryJoinDoc.value
  loads : ∀ r ∈ s.joined, r.loads ≤ s.loads
  together : ∀ r ∈ s.joined, ∀ r' ∈ s.joined, r.value = r'.value → r.loads = r'.loads
  old : ∀ d ∈ s.emitted, ∃ r ∈ s.joined, r.value = d.value ∧ r.loads < s.loads
  pending : ∀ e ∈ es, e.2.2.join = [] → ∃ t, Holds e (s.threads t)
  threads : ∀ t, ThreadOk D s.joined s.loads es (s.threads t)

variable {D} {s : Execution Doc F} {es : List (ℕ × ℕ × MemoryJoinDoc F)}

/-- Entries of one value are the same. -/
theorem InvAt.entry_inj (h : InvAt D s es) {e e' : ℕ × ℕ × MemoryJoinDoc F} (he : e ∈ es)
    (he' : e' ∈ es) (hv : e.2.2.value = e'.2.2.value) : e = e' := by
  have hnd : (es.map fun e => e.2.2.value).Nodup := by
    have := h.values
    unfold groups at this
    rw [List.map_append, List.map_map] at this
    exact (List.nodup_append.mp this).2.1
  exact List.inj_on_of_nodup_map hnd he he' hv

theorem InvAt.lookup (h : InvAt D s es) {e : ℕ × ℕ × MemoryJoinDoc F} (he : e ∈ es) :
    s.manager.docs.lookup e.1 = some (some e.2) := by
  rw [h.docs]
  have hnd : (es.map Prod.fst).Nodup := by
    rw [List.nodup_map_iff_inj_on]
    · intro e he e' he' heq
      have h1 := h.ids e he
      have h2 := h.ids e' he'
      rw [heq] at h1
      exact h.entry_inj he he' (h.injective _ _ _ h1 h2)
    · exact List.Nodup.of_map _ h.addresses
  clear h
  induction es with
  | nil => cases he
  | cons e' es ih =>
    rw [List.map_cons, entry, lookup_pair]
    rcases List.mem_cons.mp he with rfl | he
    · rw [if_pos rfl]
    · have hne : e.1 ≠ e'.1 := fun heq =>
        (List.nodup_cons.mp hnd).1 (heq ▸ List.mem_map_of_mem he)
      rw [if_neg hne]
      exact ih he (List.nodup_cons.mp hnd).2

theorem inv_init (h : Init s) : InvAt D s [] := by
  unfold Init at h
  subst h
  have hid : ∀ v, idOf (F := F) ⟨startNormalVal, [], [], false, false, 0, []⟩ v = none := by
    intro v
    cases v with
    | bool b => cases b <;> rfl
    | int d => rfl
    | string str => rfl
  constructor <;> simp [groups, hid, ThreadOk]

/-! ### Steps -/

theorem threadOk_update {js : List (Joined F)} {loads : ℕ} {es' : List (ℕ × ℕ × MemoryJoinDoc F)}
    {threads : ℕ → Section Doc} {t : ℕ} {at_ : Section Doc} (hnew : ThreadOk D js loads es' at_)
    (hold : ∀ t, ThreadOk D js loads es' (threads t)) (t' : ℕ) :
    ThreadOk D js loads es' (Function.update threads t at_ t') := by
  by_cases ht : t' = t
  · rw [ht, Function.update_self]
    exact hnew
  · rw [Function.update_of_ne ht]
    exact hold t'

/-- Entries stay in the table under their ids and addresses. -/
theorem ThreadOk.mono {js js' : List (Joined F)} {loads : ℕ}
    {es' : List (ℕ × ℕ × MemoryJoinDoc F)} {at_ : Section Doc} (h : ThreadOk D js loads es at_)
    (hes : ∀ e ∈ es, ∃ e' ∈ es', e'.1 = e.1 ∧ e'.2.1 = e.2.1 ∧ e'.2.2.value = e.2.2.value)
    (hjs : ∀ r ∈ js', r ∈ js ∨ r.loads = loads) : ThreadOk D js' loads es' at_ := by
  have hjoins : ∀ doc, ∀ e e' : ℕ × ℕ × MemoryJoinDoc F, Joins D js loads doc e →
      e'.2.2.value = e.2.2.value → Joins D js' loads doc e' := by
    intro doc e e' hj hv
    refine ⟨hv ▸ hj.value, hj.json, fun r hr hrv => ?_⟩
    rcases hjs r hr with hr | hr
    · exact hj.now r hr (hrv.trans hv)
    · exact hr
  cases at_ with
  | idle => trivial
  | create b doc => exact h
  | lookup id doc =>
    obtain ⟨e, he, hid, hj⟩ := h
    obtain ⟨e', he', hid', _, hv'⟩ := hes e he
    exact ⟨e', he', hid'.trans hid, hjoins doc e e' hj hv'⟩
  | push d doc =>
    obtain ⟨e, he, hd, hj⟩ := h
    obtain ⟨e', he', _, ha', hv'⟩ := hes e he
    exact ⟨e', he', by rw [hd, ha'], hjoins doc e e' hj hv'⟩

/-- A thread goes to another section, and holds what it held. -/
theorem InvAt.setThread (h : InvAt D s es) {t : ℕ} {at_ : Section Doc}
    (hok : ThreadOk D s.joined s.loads es at_)
    (hhold : ∀ e ∈ es, Holds e (s.threads t) → Holds e at_) :
    InvAt D (setThread s t at_) es := by
  refine ⟨h.docs, h.alive, h.addresses, h.allocated, h.start, h.bound, h.normal, h.injective, h.ids,
    h.known, h.values, h.join, h.complete, h.loads, h.together, h.old, fun e he hj => ?_,
    threadOk_update hok h.threads⟩
  obtain ⟨t', ht'⟩ := h.pending e he hj
  refine ⟨t', ?_⟩
  change Holds e (Function.update s.threads t at_ t')
  by_cases htt : t' = t
  · rw [htt, Function.update_self]
    exact hhold e he (htt ▸ ht')
  · rwa [Function.update_of_ne htt]

/-- A document is made for a value that has no id yet. -/
theorem InvAt.makeDoc (h : InvAt D s es) {t id : ℕ} {doc : Doc} {v : JoinValue}
    {m : MemoryJoinManager F}
    (hdocs : m.docs = putDoc id (some (s.allocated, ⟨v, []⟩)) s.manager.docs)
    (hids : ∀ w, idOf m w = if w = v then some id else idOf s.manager w)
    (hv : idOf s.manager v = none) (hfree : ∀ w, idOf s.manager w ≠ some id)
    (hcurr : s.manager.currID ≤ m.currID) (hid : id ≤ m.currID)
    (hnormal : (∀ b, v ≠ .bool b) → startNormalVal < id)
    (ht : ∀ e : ℕ × ℕ × MemoryJoinDoc F, ¬ Holds e (s.threads t)) (hjoin : D.joinValue doc = some v)
    (hjson : D.getJson doc = D.content doc) :
    InvAt D { s with
      manager := m, allocated := s.allocated + 1
      threads := Function.update s.threads t (.lookup id doc) }
      (es ++ [(id, s.allocated, ⟨v, []⟩)]) := by
  have hnew : v ∉ (groups s es).map MemoryJoinDoc.value := fun hmem => by
    have := (h.known v).mpr hmem
    rw [hv] at this
    simp at this
  have hnone : ∀ r ∈ s.joined, r.value ≠ v := fun r hr heq => hnew (heq ▸ h.complete r hr)
  have hgroups : s.emitted ++ (es ++ [(id, s.allocated, (⟨v, []⟩ : MemoryJoinDoc F))]).map
      (fun e => e.2.2) = groups s es ++ [⟨v, []⟩] := by
    simp [groups]
  refine ⟨?_, h.alive, ?_, fun e he => ?_, le_trans h.start hcurr, fun w i hw => ?_,
    fun w i hw hb => ?_, fun w w' i hw hw' => ?_, fun e he => ?_, fun w => ?_, ?_, fun d hd => ?_,
    fun r hr => ?_, h.loads, h.together, h.old, fun e he hj => ?_, fun t' => ?_⟩
  · rw [hdocs, h.docs, putDoc_new]
    intro e he heq
    exact hfree _ (heq ▸ h.ids e he)
  · rw [List.map_append, List.nodup_append]
    refine ⟨h.addresses, by simp, fun a ha b hb => ?_⟩
    obtain ⟨e, he, rfl⟩ := List.mem_map.mp ha
    have hb : b = s.allocated := by simpa using hb
    have := h.allocated e he
    omega
  · rcases List.mem_append.mp he with he | he
    · have := h.allocated e he
      exact Nat.lt_succ_of_lt this
    · rw [List.mem_singleton.mp he]
      exact Nat.lt_succ_self _
  · rw [hids] at hw
    split_ifs at hw
    · obtain rfl := Option.some.inj hw
      exact hid
    · exact le_trans (h.bound w i hw) hcurr
  · rw [hids] at hw
    split_ifs at hw with heq
    · obtain rfl := Option.some.inj hw
      exact hnormal (heq ▸ hb)
    · exact h.normal w i hw hb
  · rw [hids] at hw hw'
    split_ifs at hw hw' with h1 h2 h2
    · rw [h1, h2]
    · obtain rfl := Option.some.inj hw
      exact absurd hw' (hfree w')
    · obtain rfl := Option.some.inj hw'
      exact absurd hw (hfree w)
    · exact h.injective w w' i hw hw'
  · rw [hids]
    rcases List.mem_append.mp he with he | he
    · rw [if_neg, h.ids e he]
      intro heq
      have := h.ids e he
      rw [heq, hv] at this
      cases this
    · rw [List.mem_singleton.mp he, if_pos rfl]
  · rw [hids, groups, hgroups, List.map_append, List.mem_append, List.map_singleton,
      List.mem_singleton, ← h.known]
    split_ifs with heq
    · simp [heq]
    · simp [heq]
  · rw [groups, hgroups, List.map_append, List.nodup_append]
    refine ⟨h.values, by simp, fun a ha b hb hab => ?_⟩
    have hb : b = v := by simpa using hb
    exact hnew (hb ▸ hab ▸ ha)
  · rw [groups, hgroups] at hd
    rcases List.mem_append.mp hd with hd | hd
    · exact h.join d hd
    · rw [List.mem_singleton.mp hd, List.filter_eq_nil_iff.mpr fun r hr => by simpa using hnone r hr]
      rfl
  · rw [groups, hgroups, List.map_append]
    exact List.mem_append_left _ (h.complete r hr)
  · rcases List.mem_append.mp he with he | he
    · obtain ⟨t', ht'⟩ := h.pending e he hj
      refine ⟨t', ?_⟩
      have htt : t' ≠ t := fun heq => ht e (heq ▸ ht')
      change Holds e (Function.update s.threads t _ t')
      rwa [Function.update_of_ne htt]
    · refine ⟨t, ?_⟩
      change Holds e (Function.update s.threads t _ t)
      rw [Function.update_self, List.mem_singleton.mp he]
      exact rfl
  · have hlast : ThreadOk D s.joined s.loads (es ++ [(id, s.allocated, ⟨v, []⟩)])
        (.lookup id doc) :=
      ⟨_, List.mem_append_right _ (List.mem_singleton_self _), rfl, hjoin, hjson,
        fun r hr heq => absurd heq (hnone r hr)⟩
    refine threadOk_update hlast (fun t' => ?_) t'
    exact (h.threads t').mono (fun e he => ⟨e, List.mem_append_left _ he, rfl, rfl, rfl⟩)
      fun r hr => Or.inl hr

theorem InvAt.free (h : InvAt D s es) (w : JoinValue) : idOf s.manager w ≠ some (s.manager.currID + 1) :=
  fun hw => by
    have := h.bound w _ hw
    omega

/-- **A thread begins its `join`.** -/
theorem InvAt.begin (h : InvAt D s es) {t : ℕ} {doc : Doc} {v : JoinValue}
    (ht : s.threads t = .idle) (hv : D.joinValue doc = some v) (hjson : D.getJson doc = D.content doc)
    (hnow : ∀ r ∈ s.joined, r.value = v → r.loads = s.loads) :
    ∃ es', InvAt D (getJoinVal s t doc v) es' := by
  have hhold : ∀ e : ℕ × ℕ × MemoryJoinDoc F, ¬ Holds e (s.threads t) := fun e he => by
    rw [ht] at he
    exact he
  -- a value with an id has its document in the table, as no load came after it was joined
  have hfound : ∀ id, idOf s.manager v = some id →
      InvAt D (MemoryJoin.setThread s t (.lookup id doc)) es := by
    intro id hid
    have hmem := (h.known v).mp (by rw [hid]; rfl)
    obtain ⟨d, hd, hdv⟩ := List.mem_map.mp hmem
    rcases List.mem_append.mp hd with hd | hd
    · obtain ⟨r, hr, hrv, hrl⟩ := h.old d hd
      have := hnow r hr (hrv.trans hdv)
      omega
    · obtain ⟨e, he, rfl⟩ := List.mem_map.mp hd
      have heid := h.ids e he
      rw [hdv, hid] at heid
      refine h.setThread ⟨e, he, (Option.some.inj heid).symm, ?_, hjson, ?_⟩
        fun e' _ he' => absurd he' (hhold e')
      · rw [hdv]
        exact hv
      · rw [hdv]
        exact hnow
  cases v with
  | bool b =>
    cases hid : idOf s.manager (.bool b) with
    | some id =>
      simp only [getJoinVal, hid]
      exact ⟨es, hfound id hid⟩
    | none =>
      simp only [getJoinVal, hid]
      exact ⟨es, h.setThread ⟨hv, hjson⟩ fun e' _ he' => absurd he' (hhold e')⟩
  | int d =>
    cases hid : s.manager.lMap.lookup d with
    | some id =>
      simp only [getJoinVal, hid]
      exact ⟨es, hfound id hid⟩
    | none =>
      simp only [getJoinVal, hid]
      refine ⟨_, h.makeDoc rfl (fun w => ?_) hid h.free (Nat.le_succ _) le_rfl
        (fun _ => Nat.lt_succ_of_le h.start) hhold hv hjson⟩
      cases w with
      | bool b => cases b <;> rfl
      | string str => rfl
      | int d' => simpa [idOf, MemoryJoin.makeDoc] using lookup_append_new hid _ d'
  | string str =>
    cases hid : s.manager.sMap.lookup str with
    | some id =>
      simp only [getJoinVal, hid]
      exact ⟨es, hfound id hid⟩
    | none =>
      simp only [getJoinVal, hid]
      refine ⟨_, h.makeDoc rfl (fun w => ?_) hid h.free (Nat.le_succ _) le_rfl
        (fun _ => Nat.lt_succ_of_le h.start) hhold hv hjson⟩
      cases w with
      | bool b => cases b <;> rfl
      | int d => rfl
      | string str' => simpa [idOf, MemoryJoin.makeDoc] using lookup_append_new hid _ str'

/-- **The document for a Boolean is made.** -/
theorem InvAt.create (h : InvAt D s es) {t : ℕ} {doc : Doc} {b : Bool}
    (ht : s.threads t = .create b doc) (hb : idOf s.manager (.bool b) = none) :
    ∃ es', InvAt D (createBool s t doc b) es' := by
  have hok := h.threads t
  rw [ht] at hok
  have hhold : ∀ e : ℕ × ℕ × MemoryJoinDoc F, ¬ Holds e (s.threads t) := fun e he => by
    rw [ht] at he
    exact he
  have hlt : (if b then trueVal else falseVal) ≤ startNormalVal := by cases b <;> decide
  refine ⟨_, h.makeDoc (m := (createBool s t doc b).manager) ?_ (fun w => ?_) hb (fun w hw => ?_) ?_ ?_
    (fun hne => absurd rfl (hne b)) hhold hok.1 hok.2⟩
  · cases b <;> rfl
  · cases b <;> cases w with
    | bool b' => cases b' <;> simp [idOf, createBool, MemoryJoin.makeDoc, MemoryJoin.setThread]
    | int d => simp [idOf, createBool, MemoryJoin.makeDoc, MemoryJoin.setThread]
    | string str => simp [idOf, createBool, MemoryJoin.makeDoc, MemoryJoin.setThread]
  · cases w with
    | bool b' =>
      by_cases hbb : b' = b
      · rw [hbb, hb] at hw
        cases hw
      · cases b <;> cases b' <;> simp [idOf, trueVal, falseVal] at hw hbb
    | int d =>
      have := h.normal _ _ hw fun b' => by simp
      omega
    | string str =>
      have := h.normal _ _ hw fun b' => by simp
      omega
  · cases b <;> exact le_rfl
  · have hcurr : s.manager.currID ≤ (createBool s t doc b).manager.currID := by cases b <;> exact le_rfl
    exact le_trans hlt (le_trans h.start hcurr)

/-- **The document is looked up.** -/
theorem InvAt.lookupDoc (h : InvAt D s es) {t : ℕ} {doc : Doc} {id : ℕ}
    (ht : s.threads t = .lookup id doc) : InvAt D (lookupDoc s t doc id) es := by
  have hok := h.threads t
  rw [ht] at hok
  obtain ⟨e, he, rfl, hj⟩ := hok
  simp only [MemoryJoin.lookupDoc, h.lookup he]
  refine h.setThread ⟨e, he, rfl, hj⟩ fun e' he' hh => ?_
  rw [ht] at hh
  have hids := h.ids e' he'
  rw [show e'.1 = e.1 from hh] at hids
  rw [h.entry_inj he' he (h.injective _ _ _ hids (h.ids e he))]
  rfl

/-- A document is added to the one of an entry. -/
theorem InvAt.push (h : InvAt D s es) {t : ℕ} {doc : Doc} {e : ℕ × ℕ × MemoryJoinDoc F} (he : e ∈ es)
    (ht : s.threads t = .push (some e.2.1) doc) (hj : Joins D s.joined s.loads doc e) :
    InvAt D { s with
      manager := { s.manager with docs := (es.map (joined e.2.1 (D.getJson doc))).map entry }
      threads := Function.update s.threads t .idle
      joined := s.joined ++ [⟨s.loads, e.2.2.value, D.content doc⟩] }
      (es.map (joined e.2.1 (D.getJson doc))) := by
  have hself : ∀ e' ∈ es, e'.2.1 = e.2.1 → e' = e := fun e' he' ha =>
    List.inj_on_of_nodup_map h.addresses he' he ha
  have hvalues : (es.map (joined e.2.1 (D.getJson doc))).map (fun e => e.2.2.value) =
      es.map fun e => e.2.2.value := by
    rw [List.map_map]
    exact List.map_congr_left fun e' _ => joined_value _ _ e'
  have hgroups : (s.emitted ++ (es.map (joined e.2.1 (D.getJson doc))).map fun e => e.2.2).map
      MemoryJoinDoc.value = (groups s es).map MemoryJoinDoc.value := by
    have := hvalues
    simp only [groups, List.map_append, List.map_map] at this ⊢
    exact congrArg _ this
  have hdisjoint : ∀ d ∈ s.emitted, d.value ≠ e.2.2.value := fun d hd heq => by
    have := h.values
    rw [groups, List.map_append, List.nodup_append] at this
    refine this.2.2 _ (List.mem_map_of_mem hd) e.2.2.value ?_ heq
    rw [List.map_map]
    exact List.mem_map_of_mem (f := fun e : ℕ × ℕ × MemoryJoinDoc F => e.2.2.value) he
  have hother : ∀ v, v ≠ e.2.2.value →
      (s.joined ++ [(⟨s.loads, e.2.2.value, D.content doc⟩ : Joined F)]).filter (·.value = v) =
        s.joined.filter (·.value = v) := by
    intro v hv
    rw [List.filter_append, List.filter_singleton]
    simp [Ne.symm hv]
  refine ⟨rfl, h.alive, ?_, fun e' he' => ?_, h.start, h.bound,
    h.normal, h.injective, fun e' he' => ?_, fun v => ?_, ?_, fun d hd => ?_, fun r hr => ?_,
    fun r hr => ?_, fun r hr r' hr' heq => ?_, fun d hd => ?_, fun e' he' hnil => ?_, fun t' => ?_⟩
  · rw [List.map_map]
    exact (List.map_congr_left fun e' _ => joined_address _ _ e') ▸ h.addresses
  · obtain ⟨e₀, he₀, rfl⟩ := List.mem_map.mp he'
    rw [joined_address]
    exact h.allocated e₀ he₀
  · obtain ⟨e₀, he₀, rfl⟩ := List.mem_map.mp he'
    rw [joined_id, joined_value]
    exact h.ids e₀ he₀
  · rw [groups, hgroups]
    exact h.known v
  · rw [groups, hgroups]
    exact h.values
  · rcases List.mem_append.mp hd with hd | hd
    · rw [hother _ (hdisjoint d hd)]
      exact h.join d (List.mem_append_left _ hd)
    · obtain ⟨e'', he'', rfl⟩ := List.mem_map.mp hd
      obtain ⟨e', he', rfl⟩ := List.mem_map.mp he''
      have hold := h.join e'.2.2 (List.mem_append_right _ (List.mem_map_of_mem he'))
      rw [joined_value]
      by_cases ha : e'.2.1 = e.2.1
      · obtain rfl := hself e' he' ha
        simp [joined, List.filter_append, hold, hj.json]
      · rw [hother _ fun heq => ha (congrArg (·.2.1) (h.entry_inj he' he heq))]
        simpa [joined, ha] using hold
  · rw [groups, hgroups]
    rcases List.mem_append.mp hr with hr | hr
    · exact h.complete r hr
    · rw [List.mem_singleton.mp hr]
      exact List.mem_map_of_mem (List.mem_append_right _ (List.mem_map_of_mem he))
  · rcases List.mem_append.mp hr with hr | hr
    · exact h.loads r hr
    · rw [List.mem_singleton.mp hr]
  · rcases List.mem_append.mp hr with hr | hr <;> rcases List.mem_append.mp hr' with hr' | hr'
    · exact h.together r hr r' hr' heq
    · rw [List.mem_singleton.mp hr'] at heq ⊢
      exact hj.now r hr heq
    · rw [List.mem_singleton.mp hr] at heq ⊢
      exact (hj.now r' hr' heq.symm).symm
    · rw [List.mem_singleton.mp hr, List.mem_singleton.mp hr']
  · obtain ⟨r, hr, hrv⟩ := h.old d hd
    exact ⟨r, List.mem_append_left _ hr, hrv⟩
  · obtain ⟨e₀, he₀, rfl⟩ := List.mem_map.mp he'
    by_cases ha : e₀.2.1 = e.2.1
    · simp [joined, ha] at hnil
    · have hsame : joined e.2.1 (D.getJson doc) e₀ = e₀ := by simp [joined, ha]
      rw [hsame] at hnil ⊢
      obtain ⟨t', ht'⟩ := h.pending e₀ he₀ hnil
      have hne : t' ≠ t := by
        rintro rfl
        rw [ht] at ht'
        exact ha (Option.some.inj ht').symm
      refine ⟨t', ?_⟩
      change Holds e₀ (Function.update s.threads t _ t')
      rwa [Function.update_of_ne hne]
  · refine threadOk_update (show ThreadOk D _ _ _ .idle from trivial) (fun t' => ?_) t'
    refine (h.threads t').mono (fun e' he' => ⟨_, List.mem_map_of_mem he', joined_id _ _ _,
      joined_address _ _ _, joined_value _ _ _⟩) fun r hr => ?_
    rcases List.mem_append.mp hr with hr | hr
    · exact Or.inl hr
    · rw [List.mem_singleton.mp hr]
      exact Or.inr rfl

/-- **The document is joined.** -/
theorem InvAt.joinDoc (h : InvAt D s es) {t : ℕ} {doc : Doc} {d : Option ℕ}
    (ht : s.threads t = .push d doc) : ∃ es', InvAt D (joinDoc D s t doc d) es' := by
  have hok := h.threads t
  rw [ht] at hok
  obtain ⟨e, he, rfl, hj⟩ := hok
  have hpush := pushBack_mem he (rfl : e.2.1 = e.2.1) (D.getJson doc)
  rw [← h.docs] at hpush
  simp only [MemoryJoin.joinDoc, Option.bind_some, hpush, hj.value, Option.map_some,
    Option.toList_some]
  exact ⟨_, h.push he ht hj⟩

omit [Double F] in
theorem filter_entry (es : List (ℕ × ℕ × MemoryJoinDoc F)) (p : ℕ → Bool) :
    (es.map entry).filter (fun e => p e.1) = (es.filter fun e => p e.1).map entry := by
  rw [List.filter_map]
  rfl

omit [Double F] in
theorem objects_entry (es : List (ℕ × ℕ × MemoryJoinDoc F)) :
    (es.map entry).filterMap (·.2) = es.map (·.2) := by
  rw [List.filterMap_map]
  exact List.filterMap_eq_map' (f := fun e : ℕ × ℕ × MemoryJoinDoc F => e.2) ▸ rfl

/-- **A container is loaded.** -/
theorem InvAt.load (h : InvAt D s es) (getMemSize : MemoryJoinDoc F → ℕ) {taken : List ℕ}
    (hm : Meets D s (.load taken)) : ∃ es', InvAt D (loadOneJoinCont getMemSize s taken) es' := by
  unfold loadOneJoinCont
  have hnone : ∀ es' : List (ℕ × ℕ × MemoryJoinDoc F), (es'.map entry).any (·.2.isNone) = false := by
    intro es'
    simp [entry]
  simp only [h.docs, filter_entry es fun id => decide (id ∈ taken),
    filter_entry es fun id => decide (id ∉ taken), hnone, objects_entry]
  by_cases hnil : es.map entry = []
  · rw [if_pos hnil]
    exact ⟨es, h⟩
  rw [if_neg hnil, if_neg (by simp)]
  have hfree : ∀ e ∈ es, e.2.2.join ≠ [] := fun e he hj => by
    obtain ⟨t, ht⟩ := h.pending e he hj
    cases hs : s.threads t with
    | idle =>
      rw [hs] at ht
      exact ht
    | create b doc =>
      rw [hs] at ht
      exact ht
    | lookup id doc => exact (hm t doc).1 id hs
    | push d doc => exact (hm t doc).2 d hs
  have hsub : ∀ e ∈ es.filter (fun e => decide (e.1 ∉ taken)), e ∈ es := fun e he =>
    (List.mem_filter.mp he).1
  have hperm : (s.emitted ++ (es.filter fun e => decide (e.1 ∈ taken)).map (fun e => e.2.2) ++
      (es.filter fun e => decide (e.1 ∉ taken)).map fun e => e.2.2).Perm (groups s es) := by
    have := List.filter_append_perm (fun e => decide (e.1 ∈ taken)) es
    rw [List.append_assoc, ← List.map_append]
    refine List.Perm.append_left _ (List.Perm.map _ ?_)
    simpa only [decide_not] using this
  have hvalues := hperm.map MemoryJoinDoc.value
  refine ⟨es.filter fun e => decide (e.1 ∉ taken), rfl, h.alive, ?_, fun e he => h.allocated e (hsub e he),
    h.start, h.bound, h.normal, h.injective, fun e he => h.ids e (hsub e he), fun v => ?_, ?_,
    fun d hd => ?_, fun r hr => ?_, fun r hr => Nat.le_succ_of_le (h.loads r hr), h.together,
    fun d hd => ?_, fun e he hj => absurd hj (hfree e (hsub e he)), fun t => ?_⟩
  · exact (List.filter_sublist.map _).nodup h.addresses
  · simp only [groups, List.map_map]
    exact (h.known v).trans (hvalues.mem_iff).symm
  · simp only [groups, List.map_map]
    exact hvalues.nodup_iff.mpr h.values
  · simp only [groups, List.map_map] at hd
    exact h.join d (hperm.mem_iff.mp hd)
  · simp only [groups, List.map_map]
    exact hvalues.mem_iff.mpr (h.complete r hr)
  · rcases List.mem_append.mp hd with hd | hd
    · obtain ⟨r, hr, hrv, hrl⟩ := h.old d hd
      exact ⟨r, hr, hrv, Nat.lt_succ_of_lt hrl⟩
    · rw [List.map_map] at hd
      obtain ⟨e, he, rfl⟩ := List.mem_map.mp hd
      have hes := (List.mem_filter.mp he).1
      have hj := h.join e.2.2 (List.mem_append_right _ (List.mem_map_of_mem hes))
      have hne := hfree e hes
      rw [hj, ne_eq, List.map_eq_nil_iff] at hne
      obtain ⟨r, hr⟩ := List.exists_mem_of_ne_nil _ hne
      obtain ⟨hr, hrv⟩ := List.mem_filter.mp hr
      exact ⟨r, hr, of_decide_eq_true hrv, Nat.lt_succ_of_le (h.loads r hr)⟩
  · have hok := h.threads t
    cases hs : s.threads t with
    | idle => trivial
    | create b doc =>
      rw [hs] at hok
      exact hok
    | lookup id doc => exact absurd hs ((hm t doc).1 id)
    | push d doc => exact absurd hs ((hm t doc).2 d)

/-- **A step that meets the condition keeps the invariant.** -/
theorem InvAt.step (h : InvAt D s es) {getMemSize : MemoryJoinDoc F → ℕ} {e : Event Doc}
    {s' : Execution Doc F} (hm : Meets D s e) (hs : Step D getMemSize e s s') :
    ∃ es', InvAt D s' es' := by
  cases hs with
  | skip => exact ⟨es, h⟩
  | begin _ ht hv =>
    obtain ⟨hjson, hread, hnow⟩ := hm _ hv
    rw [hread]
    exact h.begin ht hv hjson hnow
  | create _ ht => exact h.create ht (hm _ _ ht)
  | lookup _ ht => exact ⟨es, h.lookupDoc ht⟩
  | push _ ht => exact h.joinDoc ht
  | load => exact h.load getMemSize hm

/-- A document has something to emit exactly if one with its value was joined. -/
theorem InvAt.join_ne_nil (h : InvAt D s es) {d : MemoryJoinDoc F} (hd : d ∈ groups s es) :
    (!d.join.isEmpty) = true ↔ ∃ r ∈ s.joined, r.value = d.value := by
  rw [h.join d hd, Bool.not_eq_true', List.isEmpty_eq_false_iff, ne_eq, List.map_eq_nil_iff,
    List.filter_eq_nil_iff]
  simp

theorem InvAt.emitted_waiting (h : InvAt D s es) :
    s.emitted ++ waiting s.manager = (groups s es).filter fun d => !d.join.isEmpty := by
  have hwaiting : waiting s.manager = (es.map fun e => e.2.2).filter fun d => !d.join.isEmpty := by
    unfold waiting
    rw [h.docs, List.filterMap_map]
    congr 1
    exact List.filterMap_eq_map' (f := fun e : ℕ × ℕ × MemoryJoinDoc F => e.2.2) ▸ rfl
  have hemitted : ∀ d ∈ s.emitted, (!d.join.isEmpty) = true := fun d hd => by
    obtain ⟨r, hr, hrv, _⟩ := h.old d hd
    exact (h.join_ne_nil (List.mem_append_left _ hd)).mpr ⟨r, hr, hrv⟩
  rw [hwaiting, groups, List.filter_append, List.filter_eq_self.mpr hemitted]

/-- What was joined is grouped by its values alone. -/
theorem InvAt.grouping (h : InvAt D s es) :
    IsGrouping Joined.value s.joined (((groups s es).filter fun d => !d.join.isEmpty).map fun d =>
      (d.value, s.joined.filter (·.value = d.value))) := by
  refine ⟨?_, fun r hr => ?_, fun g hg => ?_, fun g hg => ?_⟩
  · rw [List.map_map]
    exact (List.filter_sublist.map MemoryJoinDoc.value).nodup h.values
  · rw [List.map_map]
    obtain ⟨d, hd, hdv⟩ := List.mem_map.mp (h.complete r hr)
    have hne := (h.join_ne_nil hd).mpr ⟨r, hr, hdv.symm⟩
    exact List.mem_map.mpr ⟨d, List.mem_filter.mpr ⟨hd, hne⟩, hdv⟩
  · obtain ⟨d, hd, rfl⟩ := List.mem_map.mp hg
    obtain ⟨hd, hne⟩ := List.mem_filter.mp hd
    obtain ⟨r, hr, hrv⟩ := (h.join_ne_nil hd).mp hne
    exact List.ne_nil_of_mem (List.mem_filter.mpr ⟨hr, decide_eq_true hrv⟩)
  · obtain ⟨d, _, rfl⟩ := List.mem_map.mp hg
    rfl

/-- The invariant says that every document is emitted once. -/
theorem InvAt.groupedOnce (h : InvAt D s es) : GroupedOnce s := by
  -- each value was joined between the same two loads, so the groups are those of the finer key
  have hfine := h.grouping.refine (fun r : Joined F => (r.loads, r.value))
    (fun g => ((g.2.head?.map Joined.loads).getD 0, g.1)) fun g hg r hr => ?_
  · refine ⟨h.alive, _, hfine, ?_⟩
    rw [h.emitted_waiting, List.map_map, List.map_map]
    refine List.map_congr_left fun d hd => ?_
    have hj := h.join d (List.mem_filter.mp hd).1
    simp only [Function.comp_apply]
    rw [← hj]
  · obtain ⟨d, _, rfl⟩ := List.mem_map.mp hg
    simp only [Prod.mk.injEq]
    refine ⟨fun heq => heq.2, fun hv => ⟨?_, hv⟩⟩
    have hmem : r ∈ s.joined.filter (·.value = d.value) := List.mem_filter.mpr ⟨hr, decide_eq_true hv⟩
    obtain ⟨r', rs, hf⟩ := List.exists_cons_of_ne_nil (List.ne_nil_of_mem hmem)
    have hr' : r' ∈ s.joined.filter (·.value = d.value) := by
      rw [hf]
      exact List.mem_cons_self
    obtain ⟨hr', hv'⟩ := List.mem_filter.mp hr'
    rw [hf]
    exact h.together r hr r' hr' (hv.trans (of_decide_eq_true hv').symm)

/-- Nothing that was joined is lost or comes twice. -/
theorem InvAt.perm (h : InvAt D s es) :
    ((s.emitted ++ waiting s.manager).flatMap MemoryJoinDoc.join).Perm
      (s.joined.map Joined.content) := by
  have hperm := h.grouping.perm.map Joined.content
  rw [h.emitted_waiting]
  refine List.Perm.trans (List.Perm.of_eq ?_) hperm
  rw [List.flatMap_map, List.map_flatMap]
  refine List.flatMap_congr fun d hd => ?_
  exact h.join d (List.mem_filter.mp hd).1

theorem inv_run (D : Documents Doc F) (getMemSize : MemoryJoinDoc F → ℕ)
    {past : List (Execution Doc F × Event Doc)} {s : Execution Doc F}
    (h : Run Init (Step D getMemSize) past s) (hm : ∀ p ∈ past, Meets D p.1 p.2) :
    (∃ es, InvAt D s es) ∧ ∀ p ∈ past, ∃ es, InvAt D p.1 es :=
  h.invariant (fun s => ∃ es, InvAt D s es) (Meets D) (fun _ hs => ⟨[], inv_init hs⟩)
    (fun _ _ _ hi hmeets hst => hi.choose_spec.step hmeets hst) hm

/-- **The join groups every document once**: in every run whose steps meet the condition, in every state
that is reached. -/
theorem grouped_once (D : Documents Doc F) (getMemSize : MemoryJoinDoc F → ℕ)
    {past : List (Execution Doc F × Event Doc)} {s : Execution Doc F}
    (h : Run Init (Step D getMemSize) past s) (hm : ∀ p ∈ past, Meets D p.1 p.2) :
    GroupedOnce s ∧ ∀ p ∈ past, GroupedOnce p.1 := by
  obtain ⟨hs, hpast⟩ := inv_run D getMemSize h hm
  exact ⟨hs.choose_spec.groupedOnce, fun p hp => (hpast p hp).choose_spec.groupedOnce⟩

/-! ### A run of two threads -/

/-- What an event leads to. -/
def next (D : Documents Doc F) (getMemSize : MemoryJoinDoc F → ℕ) (s : Execution Doc F) :
    Event Doc → Option (Execution Doc F)
  | .join t doc =>
    match s.crashed, s.threads t, D.joinValue doc with
    | false, .idle, none => some s
    | false, .idle, some v => some (getJoinVal s t doc v.read)
    | _, _, _ => none
  | .step t =>
    match s.crashed, s.threads t with
    | false, .create b doc => some (createBool s t doc b)
    | false, .lookup id doc => some (lookupDoc s t doc id)
    | false, .push d doc => some (joinDoc D s t doc d)
    | _, _ => none
  | .load taken =>
    if s.crashed = false ∧ (s.manager.docs ≠ [] → taken ≠ []) ∧
        ∀ id ∈ taken, id ∈ s.manager.docs.map Prod.fst then
      some (loadOneJoinCont getMemSize s taken)
    else none

theorem step_of_next {D : Documents Doc F} {getMemSize : MemoryJoinDoc F → ℕ} {s s' : Execution Doc F}
    {e : Event Doc} (h : next D getMemSize s e = some s') : Step D getMemSize e s s' := by
  cases e with
  | join t doc =>
    dsimp only [next] at h
    split at h <;> cases h
    · exact .skip ‹_› ‹_› ‹_›
    · exact .begin ‹_› ‹_› ‹_›
  | step t =>
    dsimp only [next] at h
    split at h <;> cases h
    · exact .create ‹_› ‹_›
    · exact .lookup ‹_› ‹_›
    · exact .push ‹_› ‹_›
  | load taken =>
    dsimp only [next] at h
    split_ifs at h with hn
    cases h
    exact .load hn.1 hn.2.1 hn.2.2

/-- Documents with their join value and a number as content. -/
def numbered : Documents (JoinValue × ℤ) Float :=
  ⟨fun d => some d.1.toJson, fun d => .number (.int d.2), fun d => .number (.int d.2)⟩

def startNumbered : Execution (JoinValue × ℤ) Float :=
  ⟨⟨startNormalVal, [], [], false, false, 0, []⟩, fun _ => .idle, 0, false, 0, [], []⟩

/-- Two threads join documents with the values 1 and `"x"`; the group of 1 is taken out, then a document
with the value true is joined. -/
def joinedFour : Option (List (Execution (JoinValue × ℤ) Float × Event (JoinValue × ℤ)) ×
    Execution (JoinValue × ℤ) Float) :=
  follow (next numbered fun _ => 0)
    [.join 0 (.int 1, 10), .join 1 (.string (ascii "x"), 11), .step 0, .step 1, .step 1, .step 0,
      .join 0 (.int 1, 12), .step 0, .step 0, .load [4], .join 1 (.bool true, 13), .step 1, .step 1,
      .step 1] [] startNumbered

theorem isSome_joinedFour : joinedFour.isSome = true := rfl

theorem startNumbered_init : Init startNumbered := rfl

theorem run_joinedFour : Run Init (Step numbered fun _ => 0) (joinedFour.get isSome_joinedFour).1
    (joinedFour.get isSome_joinedFour).2 :=
  (Run.start startNumbered_init).follow (fun _ _ _ => step_of_next)
    (@Option.some_get _ joinedFour isSome_joinedFour).symm

/-- A `join` meets the condition if its value was not joined before the last load. -/
theorem numbered_meets {s : Execution (JoinValue × ℤ) Float} {t : ℕ} {v : JoinValue} {n : ℤ}
    (hv : numbered.joinValue (v, n) = some v) (hread : v.read = v)
    (hnew : s.joined.all (fun r => r.value ≠ v || r.loads = s.loads) = true) :
    Meets numbered s (.join t (v, n)) := by
  intro w hw
  obtain rfl := Option.some.inj (hv.symm.trans hw)
  refine ⟨rfl, hread, fun r hr hrv => ?_⟩
  simpa [hrv] using List.all_eq_true.mp hnew r hr

/-- A load meets it if all threads are outside. -/
theorem load_meets {s : Execution (JoinValue × ℤ) Float} {taken : List ℕ} (h : ∀ t, s.threads t = .idle) :
    Meets numbered s (.load taken) := by
  intro t doc
  rw [h t]
  exact ⟨fun id ht => (by cases ht), fun d ht => (by cases ht)⟩

theorem meets_joinedFour : ∀ p ∈ (joinedFour.get isSome_joinedFour).1, Meets numbered p.1 p.2 := by
  repeat
    refine List.forall_mem_cons.mpr ⟨?_, ?_⟩
    · first
      | exact numbered_meets rfl rfl rfl
      | (rintro b doc h; cases h; done)
      | (rintro b doc h; cases h; rfl)
      | refine load_meets fun t => ?_
        by_cases h0 : t = 0
        · rw [h0]; rfl
        · by_cases h1 : t = 1
          · rw [h1]; rfl
          · repeat
              first
              | refine (Function.update_of_ne h0 _ _).trans ?_
              | refine (Function.update_of_ne h1 _ _).trans ?_
            rfl
  exact fun p hp => by cases hp

theorem grouped_once_joinedFour : GroupedOnce (joinedFour.get isSome_joinedFour).2 ∧
    (joinedFour.get isSome_joinedFour).2.emitted = [⟨.int 1, [.number (.int 10), .number (.int 12)]⟩] ∧
      waiting (joinedFour.get isSome_joinedFour).2.manager =
        [⟨.string (ascii "x"), [.number (.int 11)]⟩, ⟨.bool true, [.number (.int 13)]⟩] :=
  ⟨(grouped_once numbered (fun _ => 0) run_joinedFour meets_joinedFour).1, rfl, rfl⟩

/-! ### A value that is joined again -/

/-- One document, whose join value is 1. -/
def one : Documents Unit Float := ⟨fun _ => some (.number (.int 1)), fun _ => .null, fun _ => .null⟩

theorem one_joinValue : one.joinValue () = some (.int 1) := rfl

/-- A new manager of it. -/
def start : Execution Unit Float :=
  ⟨⟨startNormalVal, [], [], false, false, 0, []⟩, fun _ => .idle, 0, false, 0, [], []⟩

/-- A value that was joined before a load is joined again: its document is not in the table any more. -/
theorem not_grouped_once : ¬ ∀ (past : List (Execution Unit Float × Event Unit))
    (s : Execution Unit Float), Run Init (Step one fun _ => 0) past s → GroupedOnce s := by
  intro h
  have run1 : Run Init (Step one fun _ => 0) _ _ :=
    .step (a := .join 0 ()) (.start rfl : Run Init _ [] start) (.begin rfl rfl one_joinValue)
  have run2 := run1.step (a := .step 0) (.lookup rfl rfl)
  have run3 := run2.step (a := .step 0) (.push rfl rfl)
  have run4 := run3.step (a := .load [4]) (.load rfl (by simp) (by decide))
  have run5 := run4.step (a := .join 0 ()) (.begin rfl rfl one_joinValue)
  have run6 := run5.step (a := .step 0) (.lookup rfl rfl)
  have run7 := run6.step (a := .step 0) (.push rfl rfl)
  have hcrashed := (h _ _ run7).1
  exact absurd hcrashed (by decide)

end Joda.Join.MemoryJoin
