import Joda.Lib.Runs
import Joda.Text
import Mathlib.Algebra.Order.Ring.Rat
import Mathlib.Algebra.Order.Field.Basic
import Mathlib.Data.List.Nodup
import Mathlib.Data.List.Sort

/-! # Scheduling by similarity

A parser asks `SimilarityScheduler` for the container of each text, parses the text into it and hands a
container on when it is full; what is left is handed on at the end. The loop that looks for the most
similar container begins with the similarity 0 and the index -1, which is returned where the threshold
is 0 and nothing is similar. Apart from that each document is placed right, and is in exactly one of the
containers that are handed on (`placed_and_sent_iff`). -/

namespace Joda.Similarity.Scheduler

open Joda.Lib.Runs

/-! ### Containers -/

/-- `operator<` of the origins of documents. -/
class Origin (D : Type) where
  less : D → D → Bool

/-- **`JSONContainer`** as far as the scheduler uses it. -/
structure JSONContainer (D : Type) where
  contId : ℕ
  maxSize : ℕ
  /-- `alloc->Size()` -/
  allocated : ℕ
  docs : List D
  final : Bool

def JSON_CONTAINER_DEFAULT_SIZE : ℕ := 50 * 1024 * 1024

namespace JSONContainer

variable {D : Type}

/-- The constructor, with the configured size and the next `contId`. -/
def new (JSONContainerSize contId maxsize : ℕ) : JSONContainer D where
  contId := contId
  maxSize := if JSONContainerSize ≠ 0 then JSONContainerSize
    else if maxsize = 0 then JSON_CONTAINER_DEFAULT_SIZE else maxsize
  allocated := 0
  docs := []
  final := false

def hasSpace (c : JSONContainer D) (size : ℕ) : Bool :=
  decide (c.maxSize = 0) || decide (c.allocated + size < c.maxSize)

/-- A final container must not get a document. -/
def insertDoc (c : JSONContainer D) (doc : D) : Option (JSONContainer D) :=
  if c.final then none else some { c with docs := c.docs ++ [doc] }

def finalize [Origin D] (c : JSONContainer D) : JSONContainer D :=
  { c with final := true, docs := c.docs.mergeSort fun a b => !Origin.less b a }

end JSONContainer

/-! ### The scheduler -/

structure Config (R : Type) where
  JSONContainerSize : ℕ
  sim_min_similarity : R

/-- **`SimilarityScheduler`** with the global counter of the containers. -/
structure SimilarityScheduler (D Rep : Type) where
  container : List (JSONContainer D × Rep)
  contSize : ℕ
  contIdCounter : ℕ

/-- An index that may be negative: as `size_t` it is then beyond every vector. -/
abbrev ContainerIdentifier := ℤ

section Functions

variable {D Rep R : Type} [LinearOrder R] [Zero R] (config : Config R) (measure : Rep → Rep → R)

namespace SimilarityScheduler

def createContainer (s : SimilarityScheduler D Rep) : JSONContainer D :=
  if s.contSize = 0 then .new config.JSONContainerSize s.contIdCounter config.JSONContainerSize
  else .new config.JSONContainerSize s.contIdCounter s.contSize

/-- The loop over the containers from the index `i` on, with `maxSim` and `maxSimi`, an `int`. -/
def mostSimilar (docRep : Rep) : List (JSONContainer D × Rep) → ℕ → R × ℤ → R × ℤ
  | [], _, best => best
  | c :: cs, i, best =>
    mostSimilar docRep cs (i + 1)
      (if best.1 < measure docRep c.2 then (measure docRep c.2, (i : ℤ).bmod (2 ^ 32)) else best)

/-- **`getContainerForDoc`** The three of them differ in how they get the representation of the
document. -/
def getContainerForDoc (docRep : Rep) (s : SimilarityScheduler D Rep) :
    ContainerIdentifier × SimilarityScheduler D Rep :=
  let best := mostSimilar measure docRep s.container 0 (0, -1)
  if s.container ≠ [] ∧ config.sim_min_similarity ≤ best.1 then (best.2, s)
  else (s.container.length,
    { s with
      container := s.container ++ [(s.createContainer config, docRep)]
      contIdCounter := s.contIdCounter + 1 })

/-- `container[id]`, where there is one. -/
def atId (s : SimilarityScheduler D Rep) (id : ContainerIdentifier) : Option (JSONContainer D × Rep) :=
  if 0 ≤ id then s.container[id.toNat]? else none

def setAt (s : SimilarityScheduler D Rep) (id : ContainerIdentifier) (c : JSONContainer D) :
    SimilarityScheduler D Rep :=
  { s with container := s.container.modify id.toNat fun e => (c, e.2) }

/-- `getNewDoc`, and what is then allocated for the document. -/
def getNewDoc (id : ContainerIdentifier) (bytes : ℕ) (s : SimilarityScheduler D Rep) :
    Option (SimilarityScheduler D Rep) :=
  (s.atId id).map fun e => s.setAt id { e.1 with allocated := e.1.allocated + bytes }

/-- A full container is returned, and replaced by a new one with the same representation. -/
def scheduleDocument [Origin D] (id : ContainerIdentifier) (doc : D) (s : SimilarityScheduler D Rep) :
    Option (SimilarityScheduler D Rep × Option (JSONContainer D)) :=
  (s.atId id).bind fun e => (e.1.insertDoc doc).map fun c =>
    if !(c.hasSpace 0 || decide (c.docs.length = 0)) then
      ({ s.setAt id (s.createContainer config) with contIdCounter := s.contIdCounter + 1 },
        some c.finalize)
    else (s.setAt id c, none)

/-- The containers that have documents. -/
def finalize [Origin D] (s : SimilarityScheduler D Rep) : List (JSONContainer D) :=
  (s.container.filter fun e => decide (0 < e.1.docs.length)).map fun e => e.1.finalize

end SimilarityScheduler

open SimilarityScheduler

/-! ### The most similar container -/

section Best

/-- The first of the containers with the greatest similarity `m`. -/
structure FirstBest (docRep : Rep) (cs : List (JSONContainer D × Rep)) (i : ℕ) (m : R) : Prop where
  here : ∃ c, cs[i]? = some c ∧ measure docRep c.2 = m
  most : ∀ c ∈ cs, measure docRep c.2 ≤ m
  first : ∀ j < i, ∀ c, cs[j]? = some c → measure docRep c.2 < m

variable {measure} {docRep : Rep} {cs : List (JSONContainer D × Rep)}

omit [Zero R] in
theorem FirstBest.lt_length {i : ℕ} {m : R} (h : FirstBest measure docRep cs i m) : i < cs.length := by
  obtain ⟨c, hc, -⟩ := h.here
  exact (List.getElem?_eq_some_iff.mp hc).1

omit [Zero R] in
theorem FirstBest.unique {i i' : ℕ} {m m' : R} (h : FirstBest measure docRep cs i m)
    (h' : FirstBest measure docRep cs i' m') : i = i' ∧ m = m' := by
  obtain ⟨c, hc, hm⟩ := h.here
  obtain ⟨c', hc', hm'⟩ := h'.here
  have hle : m' ≤ m := hm' ▸ h.most c' (List.mem_of_getElem? hc')
  have hge : m ≤ m' := hm ▸ h'.most c (List.mem_of_getElem? hc)
  obtain rfl := le_antisymm hge hle
  refine ⟨?_, rfl⟩
  rcases lt_trichotomy i i' with hlt | heq | hlt
  · exact absurd (h'.first i hlt c hc) (by rw [hm]; exact lt_irrefl _)
  · exact heq
  · exact absurd (h.first i' hlt c' hc') (by rw [hm']; exact lt_irrefl _)

omit [Zero R] in
theorem FirstBest.stay {i : ℕ} {m : R} (h : FirstBest measure docRep cs i m)
    {c : JSONContainer D × Rep} (hc : measure docRep c.2 ≤ m) :
    FirstBest measure docRep (cs ++ [c]) i m := by
  have hi := h.lt_length
  refine ⟨?_, fun d hd => ?_, fun j hj d hd => ?_⟩
  · rw [List.getElem?_append_left hi]
    exact h.here
  · rcases List.mem_append.mp hd with hd | hd
    · exact h.most d hd
    · rwa [List.mem_singleton.mp hd]
  · rw [List.getElem?_append_left (by omega)] at hd
    exact h.first j hj d hd

omit [Zero R] in
theorem FirstBest.last {c : JSONContainer D × Rep}
    (hc : ∀ d ∈ cs, measure docRep d.2 < measure docRep c.2) :
    FirstBest measure docRep (cs ++ [c]) cs.length (measure docRep c.2) := by
  refine ⟨⟨c, List.getElem?_concat_length, rfl⟩, fun d hd => ?_, fun j hj d hd => ?_⟩
  · rcases List.mem_append.mp hd with hd | hd
    · exact le_of_lt (hc d hd)
    · rw [List.mem_singleton.mp hd]
  · rw [List.getElem?_append_left hj] at hd
    exact hc d (List.mem_of_getElem? hd)

/-- What the loop knows after the containers `cs`. -/
def Found (measure : Rep → Rep → R) (docRep : Rep) (cs : List (JSONContainer D × Rep)) (best : R × ℤ) : Prop :=
  (best = (0, -1) ∧ ∀ c ∈ cs, measure docRep c.2 ≤ 0) ∨
    ∃ i : ℕ, 0 < best.1 ∧ best.2 = (i : ℤ).bmod (2 ^ 32) ∧ FirstBest measure docRep cs i best.1

theorem found_mostSimilar : ∀ (cs pre : List (JSONContainer D × Rep)) (best : R × ℤ),
    Found measure docRep pre best →
      Found measure docRep (pre ++ cs) (mostSimilar measure docRep cs pre.length best)
  | [], pre, best, h => by
    rw [List.append_nil]
    exact h
  | c :: cs, pre, best, h => by
    rw [mostSimilar, ← List.singleton_append, ← List.append_assoc]
    have hlen : pre.length + 1 = (pre ++ [c]).length := by simp
    rw [hlen]
    refine found_mostSimilar cs (pre ++ [c]) _ ?_
    by_cases hlt : best.1 < measure docRep c.2
    · rw [if_pos hlt]
      refine Or.inr ⟨pre.length, ?_, by dsimp only, FirstBest.last fun d hd => ?_⟩
      · rcases h with ⟨rfl, -⟩ | ⟨i, hpos, -, -⟩
        · exact hlt
        · exact lt_trans hpos hlt
      · rcases h with ⟨rfl, hall⟩ | ⟨i, -, -, hbest⟩
        · exact lt_of_le_of_lt (hall d hd) hlt
        · exact lt_of_le_of_lt (hbest.most d hd) hlt
    · rw [if_neg hlt]
      rcases h with ⟨rfl, hall⟩ | ⟨i, hpos, hi, hbest⟩
      · refine Or.inl ⟨rfl, fun d hd => ?_⟩
        rcases List.mem_append.mp hd with hd | hd
        · exact hall d hd
        · rw [List.mem_singleton.mp hd]
          exact not_lt.mp hlt
      · exact Or.inr ⟨i, hpos, hi, hbest.stay (not_lt.mp hlt)⟩

end Best

/-! ### Where a document is placed -/

section Placed

/-- **The document is placed right**: the index is one of a container, and if the container was there
before, it is similar enough and none is more similar. -/
def PlacedRight (docRep : Rep) (s : SimilarityScheduler D Rep) : Prop :=
  ∃ i : ℕ, (getContainerForDoc config measure docRep s).1 = i ∧
    i < (getContainerForDoc config measure docRep s).2.container.length ∧
    ∀ c, s.container[i]? = some c → config.sim_min_similarity ≤ measure docRep c.2 ∧
      ∀ c' ∈ s.container, measure docRep c'.2 ≤ measure docRep c.2

/-- **Something is similar or has to be**, and the most similar container has an index that is an
`int`. -/
def Meets (docRep : Rep) (s : SimilarityScheduler D Rep) : Prop :=
  (s.container ≠ [] → config.sim_min_similarity ≤ 0 → ∃ c ∈ s.container, 0 < measure docRep c.2) ∧
    ∀ i m, FirstBest measure docRep s.container i m → config.sim_min_similarity ≤ m → i < 2 ^ 31

variable {config measure} {docRep : Rep} {s : SimilarityScheduler D Rep}

/-- **Step**: when a document is placed right. -/
theorem placedRight_iff :
    PlacedRight config measure docRep s ↔ Meets config measure docRep s := by
  have hfound : Found measure docRep s.container
      (mostSimilar measure docRep s.container 0 (0, -1)) :=
    found_mostSimilar s.container [] (0, -1) (Or.inl ⟨rfl, fun _ h => absurd h List.not_mem_nil⟩)
  unfold PlacedRight
  by_cases hplace : s.container ≠ [] ∧
      config.sim_min_similarity ≤ (mostSimilar measure docRep s.container 0 (0, -1)).1
  · have hget : getContainerForDoc config measure docRep s =
        ((mostSimilar measure docRep s.container 0 (0, -1)).2, s) := if_pos hplace
    obtain ⟨hne, hle⟩ := hplace
    rw [hget]
    rcases hfound with ⟨hbest, hall⟩ | ⟨i, hpos, hi, hfirst⟩
    · -- nothing is similar
      rw [hbest] at hle ⊢
      constructor
      · rintro ⟨i, hi, -⟩
        have hi' : (-1 : ℤ) = i := hi
        omega
      · rintro ⟨hsimilar, -⟩
        obtain ⟨c, hc, hpos⟩ := hsimilar hne hle
        exact absurd (hall c hc) (not_le.mpr hpos)
    · obtain ⟨c, hc, hm⟩ := hfirst.here
      constructor
      · rintro ⟨j, hj, hlt, hright⟩
        refine ⟨fun _ _ => ⟨c, List.mem_of_getElem? hc, by rw [hm]; exact hpos⟩, fun i' m' h' _ => ?_⟩
        obtain ⟨rfl, rfl⟩ := hfirst.unique h'
        by_contra hge
        -- the index as an `int` is another one
        have hij : j < i := by
          have hji : (i : ℤ).bmod (2 ^ 32) = j := hi ▸ hj
          have hbound : (i : ℤ).bmod (2 ^ 32) < (((2 ^ 32 : ℕ) : ℤ) + 1) / 2 := Int.bmod_lt (by norm_num)
          rw [hji] at hbound
          omega
        have hlt' : j < s.container.length := hlt
        obtain ⟨-, hmost⟩ := hright _ (List.getElem?_eq_getElem hlt')
        have hless := hfirst.first j hij _ (List.getElem?_eq_getElem hlt')
        exact absurd (hm ▸ hmost c (List.mem_of_getElem? hc)) (not_le.mpr hless)
      · rintro ⟨-, hint⟩
        have hi31 := hint i _ hfirst hle
        refine ⟨i, ?_, hfirst.lt_length, fun c' hc' => ?_⟩
        · show (mostSimilar measure docRep s.container 0 (0, -1)).2 = i
          rw [hi]
          exact Int.bmod_eq_of_le (by omega) (by omega)
        · obtain rfl := Option.some.inj (hc.symm.trans hc')
          rw [hm]
          exact ⟨hle, hfirst.most⟩
  · have hget : getContainerForDoc config measure docRep s = ((s.container.length : ℤ),
        { s with
          container := s.container ++ [(s.createContainer config, docRep)]
          contIdCounter := s.contIdCounter + 1 }) := if_neg hplace
    rw [hget]
    refine iff_of_true ⟨s.container.length, rfl, by simp, fun c hc => ?_⟩ ⟨fun hne hzero => ?_, ?_⟩
    · rw [List.getElem?_eq_none (le_refl _)] at hc
      cases hc
    · exfalso
      rcases hfound with ⟨hbest, -⟩ | ⟨i, hpos, -, -⟩
      · exact hplace ⟨hne, by rw [hbest]; exact hzero⟩
      · exact hplace ⟨hne, le_trans hzero (le_of_lt hpos)⟩
    · intro i m hfirst hle
      exfalso
      obtain ⟨c, hc, hm⟩ := hfirst.here
      have hne : s.container ≠ [] := List.ne_nil_of_mem (List.mem_of_getElem? hc)
      rcases hfound with ⟨hbest, hall⟩ | ⟨j, -, -, hfirst'⟩
      · refine hplace ⟨hne, le_trans hle ?_⟩
        rw [hbest, ← hm]
        exact hall c (List.mem_of_getElem? hc)
      · obtain ⟨-, rfl⟩ := hfirst.unique hfirst'
        exact hplace ⟨hne, hle⟩

end Placed

/-! ### The parser -/

/-- A text, by what it is represented by, what is allocated for its document, and the document if it can
be parsed. -/
structure Text (D Rep : Type) where
  rep : Rep
  bytes : ℕ
  doc : Option D

/-- A parser and the containers it has sent on. -/
structure Parser (D Rep : Type) where
  sched : SimilarityScheduler D Rep
  sent : List (JSONContainer D)

variable [Origin D]

/-- One text of `fillBuffer`; none where a container is accessed that does not exist. -/
def fillBuffer (text : Text D Rep) (p : Parser D Rep) : Option (Parser D Rep) :=
  let (cont, sched) := getContainerForDoc config measure text.rep p.sched
  (getNewDoc cont text.bytes sched).bind fun sched =>
    match text.doc with
    | none => some { p with sched }
    | some doc => (scheduleDocument config cont doc sched).map fun r => ⟨r.1, p.sent ++ r.2.toList⟩

/-- What a parser has sent on after its own `finalize`. -/
def Parser.finalize (p : Parser D Rep) : List (JSONContainer D) := p.sent ++ p.sched.finalize

/-- A text comes, or a container is created elsewhere. -/
inductive Action (D Rep : Type) where
  | text (text : Text D Rep)
  | created

/-- **A step.** After an access to a container that does not exist, anything may be the case. -/
def Step : Action D Rep → Parser D Rep → Parser D Rep → Prop
  | .text text, p, q => ∀ r, fillBuffer config measure text p = some r → q = r
  | .created, p, q => q = { p with sched := { p.sched with contIdCounter := p.sched.contIdCounter + 1 } }

def Init (p : Parser D Rep) : Prop := p.sched.container = [] ∧ p.sent = []

/-! ### Every document in one container -/

/-- The documents that were scheduled by an action. -/
def Action.docs : Action D Rep → List D
  | .text t => t.doc.toList
  | .created => []

/-- **The documents are in these containers**, each in one of them, and these are different ones. -/
structure Accounted (scheduled : List D) (cs : List (JSONContainer D)) (counter : ℕ) : Prop where
  docs : (cs.flatMap (·.docs)).Perm scheduled
  ids : (cs.map (·.contId)).Nodup
  fresh : ∀ c ∈ cs, c.contId < counter

section Accounted

variable {scheduled : List D} {cs cs' : List (JSONContainer D)} {counter : ℕ}

omit [Origin D] in
theorem Accounted.perm (h : Accounted scheduled cs counter) (hperm : cs.Perm cs') :
    Accounted scheduled cs' counter :=
  ⟨(hperm.symm.flatMap_right _).trans h.docs, (hperm.map _).nodup_iff.mp h.ids,
    fun c hc => h.fresh c (hperm.mem_iff.mpr hc)⟩

omit [Origin D] in
theorem Accounted.new (h : Accounted scheduled cs counter) {c : JSONContainer D}
    (hid : c.contId = counter) (hdocs : c.docs = []) : Accounted scheduled (c :: cs) (counter + 1) := by
  refine ⟨?_, ?_, fun d hd => ?_⟩
  · rw [List.flatMap_cons, hdocs, List.nil_append]
    exact h.docs
  · rw [List.map_cons, List.nodup_cons]
    refine ⟨fun hmem => ?_, h.ids⟩
    obtain ⟨d, hd, heq⟩ := List.mem_map.mp hmem
    have := h.fresh d hd
    omega
  · rcases List.mem_cons.mp hd with rfl | hd
    · omega
    · exact lt_trans (h.fresh d hd) (Nat.lt_succ_self _)

omit [Origin D] in
theorem Accounted.update {c c' : JSONContainer D} (h : Accounted scheduled (c :: cs) counter)
    (hid : c'.contId = c.contId) {docs : List D} (hdocs : c'.docs.Perm (c.docs ++ docs)) :
    Accounted (docs ++ scheduled) (c' :: cs) counter := by
  refine ⟨?_, ?_, fun d hd => ?_⟩
  · rw [List.flatMap_cons]
    refine (hdocs.append_right _).trans ?_
    rw [List.append_assoc]
    refine (List.perm_append_comm_assoc _ _ _).trans (List.Perm.append_left docs ?_)
    rw [← List.flatMap_cons]
    exact h.docs
  · have hids := h.ids
    rwa [List.map_cons, hid]
  · rcases List.mem_cons.mp hd with rfl | hd
    · rw [hid]
      exact h.fresh c List.mem_cons_self
    · exact h.fresh d (List.mem_cons_of_mem _ hd)

end Accounted

/-- The containers that were sent and those that are open. -/
def Parser.containers (p : Parser D Rep) : List (JSONContainer D) :=
  p.sent ++ p.sched.container.map Prod.fst

/-- **The invariant of a parser**: the documents are accounted for, and only the containers that were
sent are final. -/
structure Accounts (scheduled : List D) (p : Parser D Rep) : Prop where
  all : Accounted scheduled p.containers p.sched.contIdCounter
  sent : ∀ c ∈ p.sent, c.final = true
  opened : ∀ e ∈ p.sched.container, e.1.final = false

section Accounts

variable {config measure} {scheduled : List D} {p : Parser D Rep}

variable (config) in
omit [LinearOrder R] [Zero R] [Origin D] in
theorem createContainer_spec (s : SimilarityScheduler D Rep) :
    (s.createContainer config).contId = s.contIdCounter ∧ (s.createContainer config).docs = [] ∧
      (s.createContainer config).final = false := by
  unfold createContainer
  split_ifs <;> exact ⟨rfl, rfl, rfl⟩

variable (config measure) in
omit [Origin D] in
theorem Accounts.getContainerForDoc (h : Accounts scheduled p) (docRep : Rep) :
    Accounts scheduled { p with sched := (getContainerForDoc config measure docRep p.sched).2 } := by
  obtain ⟨hid, hdocs, hfinal⟩ := createContainer_spec config p.sched
  unfold SimilarityScheduler.getContainerForDoc
  dsimp only
  split_ifs
  · exact h
  · refine ⟨?_, h.sent, fun e he => ?_⟩
    · refine (h.all.new hid hdocs).perm ?_
      simp only [Parser.containers, List.map_append, List.map_singleton, ← List.append_assoc]
      exact (List.perm_append_singleton _ _).symm
    · rcases List.mem_append.mp he with he | he
      · exact h.opened e he
      · rw [List.mem_singleton.mp he]
        exact hfinal

omit [Origin D] in
/-- An index that is valid splits the containers. -/
theorem atId_split {s : SimilarityScheduler D Rep} {i : ℕ} (hi : i < s.container.length) :
    ∃ as e bs, s.container = as ++ e :: bs ∧ s.atId i = some e ∧
      ∀ c, (s.setAt i c).container = as ++ (c, e.2) :: bs := by
  refine ⟨s.container.take i, s.container[i], s.container.drop (i + 1), ?_, ?_, fun c => ?_⟩
  · rw [← List.drop_eq_getElem_cons hi, List.take_append_drop]
  · unfold atId
    rw [if_pos (Int.natCast_nonneg i), Int.toNat_natCast, List.getElem?_eq_getElem hi]
  · exact List.modify_eq_take_cons_drop hi

omit [Origin D] in
/-- One of the open containers before the others. -/
theorem Accounts.front {as bs : List (JSONContainer D × Rep)} {e : JSONContainer D × Rep}
    (hsplit : p.sched.container = as ++ e :: bs) :
    (e.1 :: (p.sent ++ (as ++ bs).map Prod.fst)).Perm p.containers := by
  unfold Parser.containers
  rw [hsplit, List.map_append, List.map_append, List.map_cons, ← List.append_assoc, ← List.append_assoc]
  exact List.perm_middle.symm

omit [Origin D] in
/-- Documents are added to an open container. -/
theorem Accounts.setAt (h : Accounts scheduled p) {i : ℕ} (hi : i < p.sched.container.length)
    {docs : List D} {c : JSONContainer D × Rep → JSONContainer D} (hid : ∀ e, (c e).contId = e.1.contId)
    (hdocs : ∀ e, (c e).docs = e.1.docs ++ docs) (hfinal : ∀ e, (c e).final = e.1.final) :
    ∃ e, p.sched.atId i = some e ∧ Accounts (docs ++ scheduled) { p with sched := p.sched.setAt i (c e) } := by
  obtain ⟨as, e, bs, hsplit, hat, hset⟩ := atId_split hi
  refine ⟨e, hat, ?_, h.sent, fun d hd => ?_⟩
  · have hfront := h.all.perm (Accounts.front hsplit).symm
    refine (hfront.update (hid e) (.of_eq (hdocs e))).perm ?_
    exact Accounts.front (p := { p with sched := p.sched.setAt i (c e) }) (e := (c e, e.2)) (hset _)
  · have hd' : d ∈ as ++ (c e, e.2) :: bs := hset (c e) ▸ hd
    rcases List.mem_append.mp hd' with hd' | hd'
    · exact h.opened d (hsplit ▸ List.mem_append_left _ hd')
    · rcases List.mem_cons.mp hd' with rfl | hd'
      · rw [hfinal]
        exact h.opened e (hsplit ▸ List.mem_append_right _ List.mem_cons_self)
      · exact h.opened d (hsplit ▸ List.mem_append_right _ (List.mem_cons_of_mem _ hd'))

theorem finalize_docs (c : JSONContainer D) : c.finalize.docs.Perm c.docs := List.mergeSort_perm _ _

variable (config) in
omit [LinearOrder R] [Zero R] in
/-- A document is added to an open container that is then sent. -/
theorem Accounts.send (h : Accounts scheduled p) {i : ℕ} (hi : i < p.sched.container.length) (doc : D) :
    ∃ e, p.sched.atId i = some e ∧ Accounts (doc :: scheduled)
      ⟨{ p.sched.setAt i (p.sched.createContainer config) with
          contIdCounter := p.sched.contIdCounter + 1 },
        p.sent ++ [JSONContainer.finalize { e.1 with docs := e.1.docs ++ [doc] }]⟩ := by
  obtain ⟨as, e, bs, hsplit, hat, hset⟩ := atId_split hi
  obtain ⟨hid, hdocs, hfinal⟩ := createContainer_spec config p.sched
  refine ⟨e, hat, ?_, fun c hc => ?_, fun d hd => ?_⟩
  · have hfront := h.all.perm (Accounts.front hsplit).symm
    have hid' : (JSONContainer.finalize { e.1 with docs := e.1.docs ++ [doc] }).contId = e.1.contId := rfl
    have hadded : (JSONContainer.finalize { e.1 with docs := e.1.docs ++ [doc] }).docs.Perm
        (e.1.docs ++ [doc]) := finalize_docs _
    have hsent := hfront.update hid' hadded
    refine (hsent.new hid hdocs).perm ?_
    unfold Parser.containers
    dsimp only
    rw [hset, List.map_append, List.map_append, List.map_cons, List.append_assoc, List.singleton_append]
    refine (List.Perm.swap _ _ _).trans (List.Perm.trans (List.Perm.cons _ ?_) List.perm_middle.symm)
    rw [← List.append_assoc, ← List.append_assoc]
    exact List.perm_middle.symm
  · rcases List.mem_append.mp hc with hc | hc
    · exact h.sent c hc
    · rw [List.mem_singleton.mp hc]
      rfl
  · have hd' : d ∈ as ++ (p.sched.createContainer config, e.2) :: bs := hset _ ▸ hd
    rcases List.mem_append.mp hd' with hd' | hd'
    · exact h.opened d (hsplit ▸ List.mem_append_left _ hd')
    · rcases List.mem_cons.mp hd' with rfl | hd'
      · exact hfinal
      · exact h.opened d (hsplit ▸ List.mem_append_right _ (List.mem_cons_of_mem _ hd'))

variable (config) in
omit [LinearOrder R] [Zero R] in
/-- A document is scheduled. -/
theorem Accounts.scheduleDocument (h : Accounts scheduled p) {i : ℕ}
    (hi : i < p.sched.container.length) (doc : D) :
    ∃ r, SimilarityScheduler.scheduleDocument config i doc p.sched = some r ∧
      Accounts (doc :: scheduled) ⟨r.1, p.sent ++ r.2.toList⟩ := by
  obtain ⟨e, hat, hsend⟩ := h.send config hi doc
  have hopen : e.1.final = false := by
    obtain ⟨as, e', bs, hsplit, hat', -⟩ := atId_split hi
    obtain rfl := Option.some.inj (hat.symm.trans hat')
    exact h.opened e (hsplit ▸ List.mem_append_right _ List.mem_cons_self)
  have hinsert : e.1.insertDoc doc = some { e.1 with docs := e.1.docs ++ [doc] } :=
    if_neg (by rw [hopen]; exact Bool.false_ne_true)
  unfold SimilarityScheduler.scheduleDocument
  rw [hat, Option.bind_some, hinsert, Option.map_some]
  refine ⟨_, rfl, ?_⟩
  split_ifs
  · exact hsend
  · obtain ⟨e', hat', hset⟩ := h.setAt hi
      (c := fun e => { e.1 with docs := e.1.docs ++ [doc] }) (fun _ => rfl)
      (fun e => (rfl : _ = e.1.docs ++ [doc])) (fun _ => rfl)
    obtain rfl := Option.some.inj (hat.symm.trans hat')
    rw [Option.toList_none, List.append_nil]
    exact hset

/-- **Step**: a text whose document is placed right. -/
theorem Accounts.fillBuffer (h : Accounts scheduled p) {t : Text D Rep}
    (hplaced : PlacedRight config measure t.rep p.sched) :
    ∃ r, fillBuffer config measure t p = some r ∧ Accounts ((Action.text t).docs ++ scheduled) r := by
  obtain ⟨i, hi, hlt, -⟩ := hplaced
  have hget := h.getContainerForDoc config measure t.rep
  obtain ⟨e, hat, hnew⟩ := hget.setAt hlt
    (c := fun e => { e.1 with allocated := e.1.allocated + t.bytes })
    (fun _ => rfl) (fun e => (List.append_nil e.1.docs).symm) (fun _ => rfl)
  have hgetNewDoc : getNewDoc (SimilarityScheduler.getContainerForDoc config measure t.rep p.sched).1
      t.bytes (SimilarityScheduler.getContainerForDoc config measure t.rep p.sched).2 = some
        ((SimilarityScheduler.getContainerForDoc config measure t.rep p.sched).2.setAt i
          { e.1 with allocated := e.1.allocated + t.bytes }) := by
    rw [hi, getNewDoc, hat]
    rfl
  unfold Scheduler.fillBuffer Action.docs
  dsimp only
  rw [hgetNewDoc, Option.bind_some]
  cases t.doc with
  | none => exact ⟨_, rfl, hnew⟩
  | some doc =>
    have hlt' : i < ((SimilarityScheduler.getContainerForDoc config measure t.rep p.sched).2.setAt i
        { e.1 with allocated := e.1.allocated + t.bytes }).container.length := by
      unfold SimilarityScheduler.setAt
      rwa [List.length_modify]
    obtain ⟨r, hr, haccounts⟩ := hnew.scheduleDocument config hlt' doc
    dsimp only
    rw [hi, hr]
    exact ⟨_, rfl, haccounts⟩

end Accounts

/-! ### Runs -/

/-- What is asked of a step. -/
def StepRight : Parser D Rep → Action D Rep → Prop
  | p, .text t => PlacedRight config measure t.rep p.sched
  | _, .created => True

def StepMeets : Parser D Rep → Action D Rep → Prop
  | p, .text t => Meets config measure t.rep p.sched
  | _, .created => True

/-- **The documents are partitioned**: each scheduled document is in exactly one of the containers that
were sent in the end, and these are different final ones. -/
structure Partitioned (past : List (Parser D Rep × Action D Rep)) (p : Parser D Rep) : Prop where
  docs : (p.finalize.flatMap (·.docs)).Perm (past.flatMap fun q => q.2.docs)
  once : (p.finalize.map (·.contId)).Nodup
  final : ∀ c ∈ p.finalize, c.final = true

theorem Accounts.partitioned {past : List (Parser D Rep × Action D Rep)} {p : Parser D Rep}
    (h : Accounts (past.flatMap fun q => q.2.docs) p) : Partitioned past p := by
  have hdocs : ∀ es : List (JSONContainer D × Rep),
      (((es.filter fun e => decide (0 < e.1.docs.length)).map fun e => e.1.finalize).flatMap
        (·.docs)).Perm ((es.map Prod.fst).flatMap (·.docs)) := by
    intro es
    induction es with
    | nil => exact .nil
    | cons e es ih =>
      rw [List.filter_cons, List.map_cons, List.flatMap_cons]
      by_cases hpos : 0 < e.1.docs.length
      · rw [if_pos (decide_eq_true hpos), List.map_cons, List.flatMap_cons]
        exact (finalize_docs e.1).append ih
      · rw [if_neg (by simp [hpos]), List.eq_nil_of_length_eq_zero (Nat.eq_zero_of_not_pos hpos)]
        exact ih
  refine ⟨?_, ?_, fun c hc => ?_⟩
  · unfold Parser.finalize SimilarityScheduler.finalize
    rw [List.flatMap_append]
    refine ((hdocs p.sched.container).append_left _).trans ?_
    rw [← List.flatMap_append]
    exact h.all.docs
  · refine h.all.ids.sublist ?_
    unfold Parser.finalize SimilarityScheduler.finalize Parser.containers
    rw [List.map_append, List.map_append, List.map_map, List.map_map]
    exact (List.Sublist.refl _).append ((List.filter_sublist).map _)
  · rcases List.mem_append.mp hc with hc | hc
    · exact h.sent c hc
    · obtain ⟨e, -, rfl⟩ := List.mem_map.mp hc
      rfl

/-- **Run**: the invariant after steps that are right. -/
theorem accounts_of_run {past : List (Parser D Rep × Action D Rep)} {p : Parser D Rep}
    (h : Run Init (Step config measure) past p)
    (hright : ∀ q ∈ past, StepRight config measure q.1 q.2) :
    Accounts (past.flatMap fun q => q.2.docs) p := by
  induction h with
  | start h =>
    obtain ⟨hcontainer, hsent⟩ := h
    refine ⟨⟨?_, ?_, ?_⟩, ?_, ?_⟩ <;> simp [Parser.containers, hcontainer, hsent]
  | @step past s t a h hs ih =>
    obtain ⟨hlast, hpast⟩ := List.forall_mem_cons.mp hright
    have haccounts := ih hpast
    rw [List.flatMap_cons]
    cases a with
    | text text =>
      obtain ⟨r, hr, hnew⟩ := haccounts.fillBuffer hlast
      obtain rfl := hs r hr
      exact hnew
    | created =>
      obtain rfl := hs
      refine ⟨⟨haccounts.all.docs, haccounts.all.ids, fun c hc => ?_⟩, haccounts.sent, haccounts.opened⟩
      exact lt_trans (haccounts.all.fresh c hc) (Nat.lt_succ_self _)

/-- **Every document is placed right, and the documents are partitioned**, exactly if at each text
something is similar where the threshold is 0, and the index of the most similar container is an
`int`. -/
theorem placed_and_sent_iff {past : List (Parser D Rep × Action D Rep)} {p : Parser D Rep}
    (h : Run Init (Step config measure) past p) :
    ((∀ q ∈ past, StepRight config measure q.1 q.2) ∧ Partitioned past p) ↔
      ∀ q ∈ past, StepMeets config measure q.1 q.2 := by
  have hstep : ∀ (q : Parser D Rep) (a : Action D Rep),
      StepRight config measure q a ↔ StepMeets config measure q a := fun q a => by
    cases a with
    | text t => exact placedRight_iff
    | created => exact Iff.rfl
  constructor
  · rintro ⟨hright, -⟩ q hq
    exact (hstep q.1 q.2).mp (hright q hq)
  · intro hmeets
    have hright : ∀ q ∈ past, StepRight config measure q.1 q.2 := fun q hq =>
      (hstep q.1 q.2).mpr (hmeets q hq)
    exact ⟨hright, (accounts_of_run config measure h hright).partitioned⟩

end Functions

/-! ### `PathJaccard` -/

/-- `std::set_intersection` -/
def setIntersection {α : Type} [LT α] [DecidableLT α] : List α → List α → List α
  | a :: as, b :: bs =>
    if a < b then setIntersection as (b :: bs)
    else if b < a then setIntersection (a :: as) bs
    else a :: setIntersection as bs
  | _, _ => []

/-- **`PathJaccard::measure`** of two lists of paths. -/
def pathJaccard (lhs rhs : List Str) : ℚ :=
  if lhs.length = 0 ∧ rhs.length = 0 then 1
  else if lhs.length = 0 ∨ rhs.length = 0 then 0
  else ((setIntersection lhs rhs).length : ℚ) /
    (lhs.length + rhs.length - (setIntersection lhs rhs).length : ℕ)

instance : Origin ℕ := ⟨fun a b => decide (a < b)⟩

/-- The document `n`, with one path. -/
def oneText (path : String) (n : ℕ) : Text ℕ (List Str) := ⟨[ascii path], 16, some n⟩

def started : Parser ℕ (List Str) := ⟨⟨[], 0, 0⟩, []⟩

/-- The parser after a text, if no container is accessed that does not exist. -/
def next (config : Config ℚ) (t : Text ℕ (List Str)) (p : Parser ℕ (List Str)) : Parser ℕ (List Str) :=
  (fillBuffer config pathJaccard t p).getD p

theorem step_next (config : Config ℚ) (t : Text ℕ (List Str)) (p : Parser ℕ (List Str)) :
    Step config pathJaccard (.text t) p (next config t p) := fun r hr => by
  unfold next
  rw [hr]
  rfl

/-- The texts `{"a": ..}` and `{"b": ..}`. -/
def twoTexts (config : Config ℚ) : List (Parser ℕ (List Str) × Action ℕ (List Str)) :=
  [(next config (oneText "/a" 0) started, .text (oneText "/b" 1)), (started, .text (oneText "/a" 0))]

theorem run_twoTexts (config : Config ℚ) : Run Init (Step config pathJaccard) (twoTexts config)
    (next config (oneText "/b" 1) (next config (oneText "/a" 0) started)) :=
  .step (.step (.start ⟨rfl, rfl⟩) (step_next config _ _)) (step_next config _ _)

/-- The default of `sim.min_similarity`. -/
theorem placed_and_sent_default :
    ((∀ q ∈ twoTexts ⟨0, 3 / 5⟩, StepRight ⟨0, 3 / 5⟩ pathJaccard q.1 q.2) ∧
        Partitioned (twoTexts ⟨0, 3 / 5⟩)
          (next ⟨0, 3 / 5⟩ (oneText "/b" 1) (next ⟨0, 3 / 5⟩ (oneText "/a" 0) started))) ↔
      ∀ q ∈ twoTexts ⟨0, 3 / 5⟩, StepMeets ⟨0, 3 / 5⟩ pathJaccard q.1 q.2 :=
  placed_and_sent_iff ⟨0, 3 / 5⟩ pathJaccard (run_twoTexts ⟨0, 3 / 5⟩)

/-- **With the threshold 0** a document without a similar one gets the index -1. -/
theorem not_placed_zero : ∃ (past : List (Parser ℕ (List Str) × Action ℕ (List Str)))
    (p : Parser ℕ (List Str)), Run Init (Step ⟨0, 0⟩ pathJaccard) past p ∧
      ¬ ∀ q ∈ past, StepRight ⟨0, 0⟩ pathJaccard q.1 q.2 := by
  refine ⟨_, _, run_twoTexts ⟨0, 0⟩, fun h => ?_⟩
  obtain ⟨hsimilar, -⟩ := placedRight_iff.mp (h _ List.mem_cons_self)
  have hcontainer : (next ⟨0, 0⟩ (oneText "/a" 0) started).sched.container =
      [(⟨0, JSON_CONTAINER_DEFAULT_SIZE, 16, [0], false⟩, [ascii "/a"])] := rfl
  rw [hcontainer] at hsimilar
  obtain ⟨c, hc, hpos⟩ := hsimilar (List.cons_ne_nil _ _) (le_refl _)
  rw [List.mem_singleton.mp hc] at hpos
  have hzero : pathJaccard (oneText "/b" 1).rep [ascii "/a"] = 0 := by
    have hnone : setIntersection (oneText "/b" 1).rep [ascii "/a"] = [] := by
      unfold oneText
      rw [setIntersection, if_neg (by decide), if_pos (by decide), setIntersection]
      simp
    rw [pathJaccard, hnone]
    simp [oneText]
  exact absurd hpos (by rw [hzero]; exact lt_irrefl _)

end Joda.Similarity.Scheduler
