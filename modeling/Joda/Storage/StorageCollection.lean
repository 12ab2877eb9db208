import Joda.Lib.Fuel
import Joda.Values.Value
import Mathlib.Data.Finset.Erase
import Mathlib.Data.Finset.Insert
import Mathlib.Data.List.Count
import Mathlib.Data.List.Perm.Basic
import Mathlib.Logic.Relation

/-! # Dependencies of storages

The dependencies of a storage are searched with a vector of storages still to do. The search holds a
reference to the slot it has popped: the first storage it adds is put into that slot, so the rest of
the iteration looks for the dependencies of the storage just added, and when the vector moves, the
slot is one of freed memory. The dependencies are in a hash set, which is iterated in an order of its
own. What is right in every such order is the search of a storage with one dependency at most, which
has none itself. -/

namespace Joda.Storage.StorageCollection

open Joda.Lib.Fuel Joda.Values.Value

variable {S : Type} [DecidableEq S]

/-! ### The search -/

/-- The vector `todo`, its last element first, and what was popped and found so far. -/
structure Search (S : Type) where
  todo : List S
  capacity : ℕ
  visited : List S
  found : List S
  /-- Whether a slot was read after the vector had moved. -/
  undefined : Bool

namespace Search

/-- `todo.emplace_back`; a full vector moves, and `grow` is its new capacity. -/
def emplaceBack (grow : ℕ → ℕ) (m : Search S) (x : S) : Search S :=
  { m with
    todo := x :: m.todo
    capacity := if m.capacity ≤ m.todo.length then grow m.capacity else m.capacity
    found := m.found ++ [x] }

/-- What is in the slot of `s` when `x` has been added; nothing that may be read when the vector has
moved. -/
def slotAfter (slot : ℕ) (m : Search S) (s x : S) : Option S :=
  if m.capacity ≤ m.todo.length then none else if m.todo.length = slot then some x else some s

/-- The loop over the dependencies, with what is in the slot. -/
def iterate (grow : ℕ → ℕ) (slot : ℕ) : List (S × S) → Option S → Search S → Search S
  | [], _, m => m
  | _ :: _, none, m => { m with undefined := true }
  | dependency :: dependencies, some s, m =>
    if dependency.1 = s then
      iterate grow slot dependencies (m.slotAfter slot s dependency.2)
        (m.emplaceBack grow dependency.2)
    else iterate grow slot dependencies (some s) m

/-- One iteration of `while (!todo.empty())`. -/
def step (grow : ℕ → ℕ) (dependencies : List (S × S)) (m : Search S) : Search S :=
  match m.todo with
  | [] => m
  | s :: todo =>
    iterate grow todo.length dependencies (some s) { m with todo := todo, visited := m.visited ++ [s] }

/-- `todo = {store}` -/
def start (store : S) : Search S := ⟨[store], 1, [], [], false⟩

end Search

/-- The search, `none` where it has not ended yet or where it is undefined. -/
def search (grow : ℕ → ℕ) (dependencies : List (S × S)) (n : ℕ) (store : S) : Option (Search S) :=
  (loop (fun m : Search S => !m.todo.isEmpty && !m.undefined)
    (fun _ m => some (m.step grow dependencies)) n (Search.start store)).bind fun m =>
      if m.undefined then none else some m

/-- The sizes of the storages. -/
structure Sizes (S : Type) where
  estimatedSize : S → ℕ
  parsedSize : S → ℕ
  estimatedCapacity : S → ℕ
  /-- `estimatedSize` after `freeAllMemory`. -/
  freedSize : S → ℕ

section Functions

variable (grow : ℕ → ℕ) (dependencies : List (S × S)) (sizes : Sizes S)

/-- **`getDependencies`**; the null pointer has none. -/
def getDependencies (n : ℕ) : Option S → Option (List S)
  | none => some []
  | some store => (search grow dependencies n store).map fun m => store :: m.found

/-- The sizes of the storages that are popped. -/
def hierarchySize (size : S → ℕ) (n : ℕ) : Option S → Option ℕ
  | none => some 0
  | some store => (search grow dependencies n store).map fun m => (m.visited.map size).sum

def estimateHierarchySize (n : ℕ) (store : Option S) : Option ℕ :=
  hierarchySize grow dependencies sizes.estimatedSize n store

def parsedHierarchySize (n : ℕ) (store : Option S) : Option ℕ :=
  hierarchySize grow dependencies sizes.parsedSize n store

end Functions

/-- `addDependency` -/
def addDependency (dependencies : Finset (S × S)) (store dependson : S) : Finset (S × S) :=
  insert (store, dependson) dependencies

/-- The dependencies after some calls. -/
def added (calls : List (S × S)) : Finset (S × S) :=
  calls.foldl (fun dependencies c => addDependency dependencies c.1 c.2) ∅

/-! ### Eviction -/

inductive EvictionStrategies where
  | NO_EVICTION | LARGEST | LRU | FIFO | DEPENDENCIES | EXPLORER
  deriving DecidableEq, Repr

/-- The configuration and what a strategy makes of the candidates. -/
structure Config (S : Type) where
  evictionStrategy : EvictionStrategies
  maxmemory : ℕ
  order : EvictionStrategies → List (S × ℕ) → List (S × ℕ)

/-- The candidates have memory and are not excepted. -/
def chooseStoragesToRemove (config : Config S) (storages : List S) (sizes : Sizes S) (except : List S) :
    List (S × ℕ) :=
  config.order config.evictionStrategy
    ((storages.filter fun s => s ∉ except ∧ 0 < sizes.estimatedCapacity s).map
      fun s => (s, sizes.estimatedSize s))

section Eviction

variable {F : Type} [Double F]

/-- The storages freed until more than `toFree` is freed. -/
def freeStorages (sizes : Sizes S) (toFree : F) : List (S × ℕ) → ℤ → List S
  | [], _ => []
  | storage :: stores, freed =>
    if Double.less toFree (Double.ofInt freed) then []
    else storage.1 :: freeStorages sizes toFree stores
      ((freed + (storage.2 - sizes.freedSize storage.1)) % 2 ^ 64)

/-- **`ensureSpace`**: the storages it evicts. -/
def ensureSpace (F : Type) [Double F] (grow : ℕ → ℕ) (dependencies : List (S × S)) (n : ℕ)
    (config : Config S) (storages : List S) (sizes : Sizes S) (estimatedSize : ℕ)
    (withoutDependency : Option S) : Option (List S) :=
  if config.evictionStrategy = .NO_EVICTION then some []
  else do
    let estimatedCurrentlyStored : ℤ := ((storages.map sizes.estimatedSize).sum : ℕ)
    let estimatedHierarchy ← estimateHierarchySize grow dependencies sizes n withoutDependency
    let estimatedParsedHierarchy ← parsedHierarchySize grow dependencies sizes n withoutDependency
    let estimatedStorageSize1 : ℤ :=
      (estimatedCurrentlyStored + ((estimatedParsedHierarchy : ℤ) - estimatedHierarchy)) % 2 ^ 64
    let toFree : F := Double.sub (Double.ofInt 0) (Double.sub (Double.sub
      (Double.ofInt config.maxmemory) (Double.ofInt estimatedStorageSize1)) (Double.ofInt estimatedSize))
    if Double.less (Double.ofInt 0) toFree then
      let except ← getDependencies grow dependencies n withoutDependency
      some (freeStorages sizes toFree (chooseStoragesToRemove config storages sizes except) 0)
    else some []

end Eviction

/-! ### Followed storages -/

/-- The dependencies of the dependencies. -/
def Reaches (dependencies : Finset (S × S)) : S → S → Prop :=
  Relation.ReflTransGen fun a b => (a, b) ∈ dependencies

/-- An order in which the hash set may be iterated. -/
def Iterates (order : List (S × S)) (dependencies : Finset (S × S)) : Prop :=
  order.Nodup ∧ ∀ d, d ∈ order ↔ d ∈ dependencies

/-- A strategy only puts candidates into an order. -/
def Orders (config : Config S) : Prop :=
  ∀ strategy candidates, ∀ c ∈ config.order strategy candidates, c ∈ candidates

/-- The storages that are reached, each once. -/
def ReachedOnce (dependencies : Finset (S × S)) (store : S) (reached : List S) : Prop :=
  reached.Nodup ∧ ∀ x, x ∈ reached ↔ Reaches dependencies store x

/-- **The dependencies of a storage are followed completely**, in whatever order they are iterated. -/
structure Followed (F : Type) [Double F] (grow : ℕ → ℕ) (dependencies : Finset (S × S)) (store : S) :
    Prop where
  found : ∀ order, Iterates order dependencies → ∃ except,
    Returns (fun n => getDependencies grow order n (some store)) except ∧
      ∀ x, x ∈ except ↔ Reaches dependencies store x
  summed : ∀ order, Iterates order dependencies → ∃ reached, ReachedOnce dependencies store reached ∧
    ∀ sizes : Sizes S,
      Returns (fun n => estimateHierarchySize grow order sizes n (some store))
          (reached.map sizes.estimatedSize).sum ∧
        Returns (fun n => parsedHierarchySize grow order sizes n (some store))
          (reached.map sizes.parsedSize).sum
  kept : ∀ order, Iterates order dependencies → ∀ config : Config S, Orders config →
    ∀ n storages sizes estimatedSize evicted,
      ensureSpace F grow order n config storages sizes estimatedSize (some store) = some evicted →
        ∀ x ∈ evicted, ¬ Reaches dependencies store x

/-- **The condition**: the storage has one dependency at most, and that one has none. -/
def Flat (calls : List (S × S)) (store : S) : Prop :=
  (∀ b b', (store, b) ∈ calls → (store, b') ∈ calls → b = b') ∧
    ∀ b c, (store, b) ∈ calls → (b, c) ∉ calls

/-! ### What one iteration adds -/

/-- The dependencies of a storage in the order they are iterated in. -/
def dependsOn (order : List (S × S)) (s : S) : List S := (order.filter fun d => d.1 = s).map Prod.snd

/-- **What is added for a storage**: its first dependency, and then the dependencies of that one. -/
def pushes : List (S × S) → S → List S
  | [], _ => []
  | d :: order, s => if d.1 = s then d.2 :: dependsOn order d.2 else pushes order s

theorem mem_added {calls : List (S × S)} {d : S × S} : d ∈ added calls ↔ d ∈ calls := by
  have hfold : ∀ (calls : List (S × S)) (start : Finset (S × S)),
      d ∈ calls.foldl (fun dependencies c => addDependency dependencies c.1 c.2) start ↔
        d ∈ start ∨ d ∈ calls := by
    intro calls
    induction calls with
    | nil => simp
    | cons c calls ih =>
      intro start
      rw [List.foldl_cons, ih, addDependency, Finset.mem_insert, List.mem_cons]
      tauto
  exact (hfold calls ∅).trans (by simp)

theorem mem_dependsOn {order : List (S × S)} {s x : S} : x ∈ dependsOn order s ↔ (s, x) ∈ order := by
  unfold dependsOn
  constructor
  · intro h
    obtain ⟨d, hd, rfl⟩ := List.mem_map.mp h
    obtain ⟨hmem, hs⟩ := List.mem_filter.mp hd
    rwa [← of_decide_eq_true hs]
  · exact fun h => List.mem_map.mpr ⟨(s, x), List.mem_filter.mpr ⟨h, by simp⟩, rfl⟩

/-- Once the slot holds another storage, its dependencies are added, or freed memory is read. -/
theorem iterate_overwritten (grow : ℕ → ℕ) {slot : ℕ} (b : S) :
    ∀ (order : List (S × S)) (cur : Option S) (m : Search S), slot < m.todo.length →
      (cur = some b ∨ cur = none) →
      (Search.iterate grow slot order cur m).undefined = true ∨
        (Search.iterate grow slot order cur m).todo = (dependsOn order b).reverse ++ m.todo ∧
        (Search.iterate grow slot order cur m).found = m.found ++ dependsOn order b ∧
        (Search.iterate grow slot order cur m).visited = m.visited
  | [], cur, m, _, _ => Or.inr ⟨rfl, (List.append_nil _).symm, rfl⟩
  | d :: order, none, m, _, _ => Or.inl rfl
  | d :: order, some s, m, hslot, hcur => by
    obtain rfl : s = b := by simpa using hcur
    rw [Search.iterate]
    by_cases hd : d.1 = s
    · have hcur' : m.slotAfter slot s d.2 = some s ∨ m.slotAfter slot s d.2 = none := by
        unfold Search.slotAfter
        split_ifs with hfull hlen
        · exact Or.inr rfl
        · omega
        · exact Or.inl rfl
      rw [if_pos hd]
      rcases iterate_overwritten grow s order (m.slotAfter slot s d.2) (m.emplaceBack grow d.2)
        (Nat.lt_succ_of_lt hslot) hcur' with hundef | ⟨htodo, hfound, hvisited⟩
      · exact Or.inl hundef
      · have hdep : dependsOn (d :: order) s = d.2 :: dependsOn order s := by simp [dependsOn, hd]
        refine Or.inr ⟨?_, ?_, hvisited⟩
        · rw [htodo, hdep, List.reverse_cons, List.append_assoc]
          rfl
        · rw [hfound, hdep]
          exact List.append_assoc _ _ _
    · rw [if_neg hd]
      have hdep : dependsOn (d :: order) s = dependsOn order s := by simp [dependsOn, hd]
      rw [hdep]
      exact iterate_overwritten grow s order (some s) m hslot (Or.inl rfl)

/-- **One iteration** adds `pushes`, or freed memory is read. -/
theorem iterate_pushes (grow : ℕ → ℕ) (s : S) : ∀ (order : List (S × S)) (m : Search S),
    (Search.iterate grow m.todo.length order (some s) m).undefined = true ∨
      (Search.iterate grow m.todo.length order (some s) m).todo = (pushes order s).reverse ++ m.todo ∧
      (Search.iterate grow m.todo.length order (some s) m).found = m.found ++ pushes order s ∧
      (Search.iterate grow m.todo.length order (some s) m).visited = m.visited
  | [], m => Or.inr ⟨rfl, (List.append_nil _).symm, rfl⟩
  | d :: order, m => by
    rw [Search.iterate, pushes]
    by_cases hd : d.1 = s
    · have hcur : m.slotAfter m.todo.length s d.2 = some d.2 ∨
          m.slotAfter m.todo.length s d.2 = none := by
        unfold Search.slotAfter
        split_ifs with hfull hlen
        · exact Or.inr rfl
        · exact Or.inl rfl
        · exact absurd rfl hlen
      rw [if_pos hd, if_pos hd]
      rcases iterate_overwritten grow d.2 order (m.slotAfter m.todo.length s d.2)
        (m.emplaceBack grow d.2) (Nat.lt_succ_self _) hcur with hundef | ⟨htodo, hfound, hvisited⟩
      · exact Or.inl hundef
      · refine Or.inr ⟨?_, ?_, hvisited⟩
        · rw [htodo, List.reverse_cons, List.append_assoc]
          rfl
        · rw [hfound]
          exact List.append_assoc _ _ _
    · rw [if_neg hd, if_neg hd]
      exact iterate_pushes grow s order m

/-- **The invariant of the search**: what was popped or is still to do is the storage and what was
added for those popped, and has every property that is handed on to what is added. -/
structure Counts (order : List (S × S)) (store : S) (m : Search S) : Prop where
  all : (m.visited ++ m.todo).Perm (store :: m.found)
  found : m.found.Perm (m.visited.flatMap (pushes order))
  closed : ∀ Q : S → Prop, Q store → (∀ y, Q y → ∀ x ∈ pushes order y, Q x) →
    ∀ x ∈ m.visited ++ m.todo, Q x

/-- **Step**, unless freed memory is read. -/
theorem counts_step (grow : ℕ → ℕ) {order : List (S × S)} {store : S} {m : Search S}
    (h : Counts order store m) :
    (m.step grow order).undefined = true ∨ Counts order store (m.step grow order) := by
  unfold Search.step
  split
  · exact Or.inr h
  · rename_i s todo htodo
    obtain ⟨hall, hfound, hclosed⟩ := h
    rw [htodo] at hall hclosed
    rcases iterate_pushes grow s order { m with todo := todo, visited := m.visited ++ [s] } with
      hundef | ⟨h1, h2, h3⟩
    · exact Or.inl hundef
    · have hswap : (m.visited ++ [s] ++ ((pushes order s).reverse ++ todo)).Perm
          (m.visited ++ s :: todo ++ pushes order s) := by
        rw [List.append_assoc, List.append_assoc, List.singleton_append, List.cons_append]
        exact (((List.reverse_perm _).append_right _).trans List.perm_append_comm).cons s
          |>.append_left _
      refine Or.inr ⟨?_, ?_, fun Q hQ hpushes x hx => ?_⟩
      · rw [h1, h2, h3]
        exact hswap.trans (hall.append_right _)
      · rw [h2, h3, List.flatMap_append, List.flatMap_singleton]
        exact hfound.append_right _
      · rw [h1, h3, hswap.mem_iff] at hx
        have hold := hclosed Q hQ hpushes
        rcases List.mem_append.mp hx with hx | hx
        · exact hold x hx
        · exact hpushes s (hold s (by simp)) x hx

/-- **A search that ends** has popped the storage and what was added for each storage popped. -/
theorem search_visited (grow : ℕ → ℕ) {order : List (S × S)} {store : S} {n : ℕ} {m : Search S}
    (h : search grow order n store = some m) :
    Counts order store m ∧ m.todo = [] := by
  obtain ⟨t, ht, hres⟩ := Option.bind_eq_some_iff.mp h
  split_ifs at hres with hundef
  obtain rfl := Option.some.inj hres
  have hstart : Counts order store (Search.start store) := by
    refine ⟨.refl _, .refl _, fun Q hQ _ x hx => ?_⟩
    rw [List.mem_singleton.mp hx]
    exact hQ
  obtain ⟨hcounts, hcond⟩ := loop_some (fun m => m.undefined = true ∨ Counts order store m)
    (fun _ m m' hm hc hb => by
      obtain rfl := Option.some.inj hb
      have hdef : m.undefined = false := by simpa using (Bool.and_eq_true_iff.mp hc).2
      rcases hm with hm | hm
      · rw [hdef] at hm
        cases hm
      · exact counts_step grow hm) (Or.inr hstart) ht
  have hdef : t.undefined = false := by simpa using hundef
  refine ⟨hcounts.resolve_left (by rw [hdef]; simp), ?_⟩
  simpa [hdef] using hcond

/-- The storages popped, in an equation. -/
theorem Counts.visited {order : List (S × S)} {store : S} {m : Search S} (h : Counts order store m)
    (htodo : m.todo = []) : m.visited.Perm (store :: m.visited.flatMap (pushes order)) := by
  have hall := h.all
  rw [htodo, List.append_nil] at hall
  exact hall.trans (h.found.cons store)

/-! ### What an order can do -/

omit [DecidableEq S] in
theorem iterates_toList (dependencies : Finset (S × S)) : Iterates dependencies.toList dependencies :=
  ⟨dependencies.nodup_toList, fun _ => Finset.mem_toList⟩

/-- Any dependency may come first. -/
theorem Iterates.cons {dependencies : Finset (S × S)} {d : S × S} {order : List (S × S)}
    (hd : d ∈ dependencies) (h : Iterates order (dependencies.erase d)) :
    Iterates (d :: order) dependencies := by
  refine ⟨List.nodup_cons.mpr ⟨fun hmem => ?_, h.1⟩, fun e => ?_⟩
  · exact Finset.notMem_erase d dependencies ((h.2 d).mp hmem)
  · rw [List.mem_cons, h.2, Finset.mem_erase]
    by_cases he : e = d
    · simp [he, hd]
    · simp [he]

theorem sum_indicator (x : S) : ∀ l : List S, (l.map fun y => if y = x then 1 else 0).sum = l.count x
  | [] => rfl
  | y :: l => by
    rw [List.map_cons, List.sum_cons, sum_indicator x l, List.count_cons]
    by_cases h : y = x
    · simp [h, Nat.add_comm]
    · simp [h]

/-- The storages popped, as far as the sums tell. -/
theorem Followed.count {F : Type} [Double F] {grow : ℕ → ℕ} {dependencies : Finset (S × S)} {store : S}
    (h : Followed F grow dependencies store) {order : List (S × S)} (hi : Iterates order dependencies)
    (x : S) : ∃ m : Search S, Counts order store m ∧ m.todo = [] ∧ m.visited.count x ≤ 1 ∧
      (Reaches dependencies store x → x ∈ m.visited) := by
  obtain ⟨reached, ⟨hnodup, hreached⟩, hsizes⟩ := h.summed order hi
  obtain ⟨⟨N, hN⟩, -⟩ := hsizes ⟨fun y => if y = x then 1 else 0, fun _ => 0, fun _ => 0, fun _ => 0⟩
  obtain ⟨m, hm, hsum⟩ := Option.map_eq_some_iff.mp (hN N le_rfl)
  simp only [sum_indicator] at hsum
  obtain ⟨hcounts, htodo⟩ := search_visited grow hm
  refine ⟨m, hcounts, htodo, ?_, fun hx => ?_⟩
  · rw [hsum]
    exact List.nodup_iff_count_le_one.mp hnodup x
  · rw [← List.count_pos_iff, hsum, List.count_pos_iff]
    exact (hreached x).mpr hx

/-- **A chain of two** is followed twice, or never to its end, in some order. -/
theorem Followed.noChain {F : Type} [Double F] {grow : ℕ → ℕ} {dependencies : Finset (S × S)}
    {store : S} (h : Followed F grow dependencies store) {b c : S} (hb : (store, b) ∈ dependencies)
    (hc : (b, c) ∈ dependencies) : False := by
  by_cases hself : store = b
  · subst hself
    obtain ⟨m, hcounts, htodo, hcount, -⟩ :=
      h.count (.cons hb (iterates_toList (dependencies.erase (store, store)))) store
    have hperm := hcounts.visited htodo
    have hmem : store ∈ m.visited := hperm.mem_iff.mpr List.mem_cons_self
    rw [hperm.count_eq, List.count_cons_self] at hcount
    have hagain : store ∈ m.visited.flatMap
        (pushes ((store, store) :: (dependencies.erase (store, store)).toList)) :=
      List.mem_flatMap.mpr ⟨store, hmem, by simp [pushes]⟩
    have := List.count_pos_iff.mpr hagain
    omega
  · have hne : (b, c) ≠ (store, b) := fun he => hself (Prod.ext_iff.mp he).1.symm
    have hi : Iterates ((store, b) :: (b, c) :: ((dependencies.erase (store, b)).erase (b, c)).toList)
        dependencies :=
      .cons hb (.cons (Finset.mem_erase.mpr ⟨hne, hc⟩) (iterates_toList _))
    obtain ⟨m, hcounts, htodo, hcount, -⟩ := h.count hi c
    set order := (store, b) :: (b, c) :: ((dependencies.erase (store, b)).erase (b, c)).toList
    have hpushStore : ∃ rest, pushes order store = b :: c :: rest := by
      refine ⟨dependsOn ((dependencies.erase (store, b)).erase (b, c)).toList b, ?_⟩
      simp [order, pushes, dependsOn]
    have hpushB : ∃ rest, pushes order b = c :: rest := by
      refine ⟨dependsOn ((dependencies.erase (store, b)).erase (b, c)).toList c, ?_⟩
      simp [order, pushes, hself]
    obtain ⟨rest, hrest⟩ := hpushStore
    obtain ⟨rest', hrest'⟩ := hpushB
    have hperm := hcounts.visited htodo
    have hstore : store ∈ m.visited := hperm.mem_iff.mpr List.mem_cons_self
    have hbmem : b ∈ m.visited := by
      refine hperm.mem_iff.mpr (List.mem_cons_of_mem _ (List.mem_flatMap.mpr ⟨store, hstore, ?_⟩))
      rw [hrest]
      exact List.mem_cons_self
    -- the storage and its dependency are popped both, and the chain's end is added for either
    have hsplit : m.visited.Perm (store :: b :: (m.visited.erase store).erase b) :=
      (List.perm_cons_erase hstore).trans
        ((List.perm_cons_erase ((List.mem_erase_of_ne (Ne.symm hself)).mpr hbmem)).cons store)
    have hflat := (hsplit.flatMap_right (pushes order)).count_eq c
    rw [List.flatMap_cons, List.flatMap_cons, hrest, hrest', List.count_append, List.count_append,
      List.count_cons, List.count_cons_self, List.count_cons_self] at hflat
    rw [hperm.count_eq, List.count_cons, hflat] at hcount
    omega

/-! ### One dependency without dependencies -/

theorem pushes_cases : ∀ (order : List (S × S)) (s : S),
    (pushes order s = [] ∧ ∀ d ∈ order, d.1 ≠ s) ∨
      ∃ b rest, (s, b) ∈ order ∧ rest ⊆ order ∧ pushes order s = b :: dependsOn rest b
  | [], _ => Or.inl ⟨rfl, by simp⟩
  | d :: order, s => by
    by_cases hd : d.1 = s
    · refine Or.inr ⟨d.2, order, ?_, List.subset_cons_self _ _, by rw [pushes, if_pos hd]⟩
      rw [← hd]
      exact List.mem_cons_self
    · rw [pushes, if_neg hd]
      rcases pushes_cases order s with ⟨hnil, hno⟩ | ⟨b, rest, hb, hsub, hpush⟩
      · exact Or.inl ⟨hnil, List.forall_mem_cons.mpr ⟨hd, hno⟩⟩
      · exact Or.inr ⟨b, rest, List.mem_cons_of_mem _ hb, List.subset_cons_of_subset _ hsub, hpush⟩

/-- Where the dependencies have none, only the first one is added. -/
theorem pushes_noChain {order : List (S × S)} {s : S} (h : ∀ b c, (s, b) ∈ order → (b, c) ∉ order) :
    (pushes order s = [] ∧ ∀ d ∈ order, d.1 ≠ s) ∨
      ∃ b, (s, b) ∈ order ∧ pushes order s = [b] ∧ pushes order b = [] := by
  rcases pushes_cases order s with hnil | ⟨b, rest, hb, hsub, hpush⟩
  · exact Or.inl hnil
  · refine Or.inr ⟨b, hb, ?_, ?_⟩
    · have hnone : dependsOn rest b = [] := by
        refine List.eq_nil_iff_forall_not_mem.mpr fun c hc => ?_
        exact h b c hb (hsub (mem_dependsOn.mp hc))
      rw [hpush, hnone]
    · rcases pushes_cases order b with ⟨hnil, -⟩ | ⟨c, -, hc, -, -⟩
      · exact hnil
      · exact absurd hc (h b c hb)

/-- **Two dependencies**: the second one is missed. -/
theorem Followed.single {F : Type} [Double F] {grow : ℕ → ℕ} {dependencies : Finset (S × S)}
    {store : S} (h : Followed F grow dependencies store) {b b' : S} (hb : (store, b) ∈ dependencies)
    (hb' : (store, b') ∈ dependencies) : b = b' := by
  have hi := iterates_toList dependencies
  have hchain : ∀ b c, (store, b) ∈ dependencies.toList → (b, c) ∉ dependencies.toList :=
    fun b c hb hc => h.noChain ((hi.2 _).mp hb) ((hi.2 _).mp hc)
  have hfirst : ∃ first, ∀ x, (store, x) ∈ dependencies → x = first := by
    rcases pushes_noChain hchain with ⟨-, hno⟩ | ⟨first, -, hpush, hpush'⟩
    · exact absurd rfl (hno _ ((hi.2 _).mpr hb))
    · refine ⟨first, fun x hx => ?_⟩
      obtain ⟨m, hcounts, htodo, -, hreach⟩ := h.count hi x
      have hmem := hreach (Relation.ReflTransGen.single hx)
      have hclosed := hcounts.closed (fun y => y = store ∨ y = first) (Or.inl rfl) ?_ x
        (List.mem_append_left _ hmem)
      · rcases hclosed with rfl | hx'
        · exact absurd hx (fun hself => h.noChain hself hself)
        · exact hx'
      · rintro y (rfl | rfl) z hz
        · rw [hpush] at hz
          exact Or.inr (List.mem_singleton.mp hz)
        · rw [hpush'] at hz
          exact absurd hz List.not_mem_nil
  obtain ⟨first, hfirst⟩ := hfirst
  rw [hfirst b hb, hfirst b' hb']

/-- **Necessity.** -/
theorem Followed.flat {F : Type} [Double F] {grow : ℕ → ℕ} {calls : List (S × S)} {store : S}
    (h : Followed F grow (added calls) store) : Flat calls store :=
  ⟨fun _ _ hb hb' => h.single (mem_added.mpr hb) (mem_added.mpr hb'),
    fun _ _ hb hc => h.noChain (mem_added.mpr hb) (mem_added.mpr hc)⟩

theorem Flat.reaches_iff {calls : List (S × S)} {store : S} (h : Flat calls store) {x : S} :
    Reaches (added calls) store x ↔ x = store ∨ (store, x) ∈ calls := by
  constructor
  · intro hx
    induction hx with
    | refl => exact Or.inl rfl
    | tail _ hstep ih =>
      rcases ih with rfl | hb
      · exact Or.inr (mem_added.mp hstep)
      · exact absurd (mem_added.mp hstep) (h.2 _ _ hb)
  · rintro (rfl | hx)
    · exact .refl
    · exact .single (mem_added.mpr hx)

theorem Flat.mem_pushes {calls order : List (S × S)} {store : S} (h : Flat calls store)
    (hi : Iterates order (added calls)) {x : S} : x ∈ pushes order store ↔ (store, x) ∈ calls := by
  have hmem : ∀ d, d ∈ order ↔ d ∈ calls := fun d => (hi.2 d).trans mem_added
  have hchain : ∀ b c, (store, b) ∈ order → (b, c) ∉ order := fun b c hb hc =>
    h.2 b c ((hmem _).mp hb) ((hmem _).mp hc)
  rcases pushes_noChain hchain with ⟨hnil, hno⟩ | ⟨b, hb, hpush, -⟩
  · rw [hnil]
    exact ⟨fun hx => absurd hx List.not_mem_nil, fun hx => absurd rfl (hno _ ((hmem _).mpr hx))⟩
  · rw [hpush, List.mem_singleton]
    constructor
    · rintro rfl
      exact (hmem _).mp hb
    · exact fun hx => h.1 x b hx ((hmem _).mp hb)

/-- A search that ends has found what is reached. -/
theorem Flat.search_mem {grow : ℕ → ℕ} {calls order : List (S × S)} {store : S} (h : Flat calls store)
    (hi : Iterates order (added calls)) {n : ℕ} {m : Search S}
    (hm : search grow order n store = some m) {x : S} (hx : Reaches (added calls) store x) :
    x ∈ store :: m.found := by
  obtain ⟨hcounts, htodo⟩ := search_visited grow hm
  have hperm := hcounts.visited htodo
  have hstore : store ∈ m.visited := hperm.mem_iff.mpr List.mem_cons_self
  rcases h.reaches_iff.mp hx with rfl | hx
  · exact List.mem_cons_self
  · refine List.mem_cons_of_mem _ (hcounts.found.mem_iff.mpr (List.mem_flatMap.mpr ⟨store, hstore, ?_⟩))
    exact (h.mem_pushes hi).mpr hx

/-- Nothing is added for a storage without dependencies. -/
theorem iterate_none (grow : ℕ → ℕ) (slot : ℕ) (s : S) : ∀ (order : List (S × S)) (m : Search S),
    (∀ d ∈ order, d.1 ≠ s) → Search.iterate grow slot order (some s) m = m
  | [], _, _ => rfl
  | d :: order, m, h => by
    obtain ⟨hd, hrest⟩ := List.forall_mem_cons.mp h
    rw [Search.iterate, if_neg hd]
    exact iterate_none grow slot s order m hrest

/-- The first popped slot holds the one storage that is added. -/
theorem iterate_single (grow : ℕ → ℕ) {s b : S} : ∀ {order : List (S × S)} {m : Search S},
    m.todo = [] → m.capacity = 1 → (∀ d ∈ order, d.1 = s → d.2 = b) → (s, b) ∈ order →
      (∀ d ∈ order, d.1 ≠ b) →
      Search.iterate grow 0 order (some s) m = { m with todo := [b], found := m.found ++ [b] }
  | d :: order, m, htodo, hcap, hone, hmem, hno => by
    obtain ⟨hd, hone⟩ := List.forall_mem_cons.mp hone
    obtain ⟨-, hno⟩ := List.forall_mem_cons.mp hno
    rw [Search.iterate]
    by_cases hs : d.1 = s
    · have hslot : m.slotAfter 0 s d.2 = some b := by
        simp [Search.slotAfter, htodo, hcap, hd hs]
      rw [if_pos hs, hslot, iterate_none grow 0 b order _ hno, hd hs]
      simp [Search.emplaceBack, htodo, hcap]
    · rw [if_neg hs]
      refine iterate_single grow htodo hcap hone ((List.mem_cons.mp hmem).resolve_left ?_) hno
      exact fun he => hs (Prod.ext_iff.mp he).1.symm

/-- **The search ends.** -/
theorem Flat.search_returns (grow : ℕ → ℕ) {calls order : List (S × S)} {store : S}
    (h : Flat calls store) (hi : Iterates order (added calls)) :
    ∃ m : Search S, Returns (fun n => search grow order n store) m ∧
      m.visited = store :: m.found ∧ m.found = pushes order store := by
  have hmem : ∀ d, d ∈ order ↔ d ∈ calls := fun d => (hi.2 d).trans mem_added
  have hchain : ∀ b c, (store, b) ∈ order → (b, c) ∉ order := fun b c hb hc =>
    h.2 b c ((hmem _).mp hb) ((hmem _).mp hc)
  have hbind : ∀ m : Search S, m.undefined = false →
      Returns (fun n => loop (fun m : Search S => !m.todo.isEmpty && !m.undefined)
        (fun _ m => some (m.step grow order)) n (Search.start store)) m →
      Returns (fun n => search grow order n store) m := by
    intro m hdef hm
    refine hm.bind (g := fun _ m => if m.undefined then none else some m) ?_
    simp only [hdef]
    exact .pure m
  rcases pushes_noChain hchain with ⟨hnil, hno⟩ | ⟨b, hb, hpush, hpush'⟩
  · have hstep : (Search.start store).step grow order = ⟨[], 1, [store], [], false⟩ :=
      iterate_none grow 0 store order _ hno
    refine ⟨⟨[], 1, [store], [], false⟩, hbind _ rfl ?_, rfl, hnil.symm⟩
    refine loop_returns_of_body rfl (.pure _) ?_
    rw [hstep]
    exact loop_returns_of_not rfl
  · have hone : ∀ d ∈ order, d.1 = store → d.2 = b := by
      rintro ⟨s, x⟩ hd rfl
      exact h.1 x b ((hmem _).mp hd) ((hmem _).mp hb)
    have hno : ∀ d ∈ order, d.1 ≠ b := by
      rintro ⟨s, x⟩ hd rfl
      exact hchain s x hb hd
    have hstep : (Search.start store).step grow order = ⟨[b], 1, [store], [b], false⟩ :=
      iterate_single grow rfl rfl hone hb hno
    have hstep' : (⟨[b], 1, [store], [b], false⟩ : Search S).step grow order =
        ⟨[], 1, [store, b], [b], false⟩ := iterate_none grow 0 b order _ hno
    refine ⟨⟨[], 1, [store, b], [b], false⟩, hbind _ rfl ?_, rfl, hpush.symm⟩
    refine loop_returns_of_body rfl (.pure _) ?_
    rw [hstep]
    refine loop_returns_of_body rfl (.pure _) ?_
    rw [hstep']
    exact loop_returns_of_not rfl

omit [DecidableEq S] in
theorem mem_freeStorages {F : Type} [Double F] {sizes : Sizes S} {toFree : F} :
    ∀ {stores : List (S × ℕ)} {freed : ℤ} {x : S}, x ∈ freeStorages sizes toFree stores freed →
      ∃ size, (x, size) ∈ stores
  | storage :: stores, freed, x, h => by
    rw [freeStorages] at h
    split_ifs at h
    · exact absurd h List.not_mem_nil
    · rcases List.mem_cons.mp h with rfl | h
      · exact ⟨storage.2, List.mem_cons_self⟩
      · obtain ⟨size, hsize⟩ := mem_freeStorages h
        exact ⟨size, List.mem_cons_of_mem _ hsize⟩

/-- What is evicted is not excepted. -/
theorem evicted_notMem {F : Type} [Double F] {grow : ℕ → ℕ} {order : List (S × S)} {n : ℕ}
    {config : Config S} (horder : Orders config) {storages : List S} {sizes : Sizes S}
    {estimatedSize : ℕ} {store : S} {evicted : List S}
    (h : ensureSpace F grow order n config storages sizes estimatedSize (some store) = some evicted)
    {x : S} (hx : x ∈ evicted) :
    ∃ m, search grow order n store = some m ∧ x ∉ store :: m.found := by
  unfold ensureSpace at h
  split_ifs at h with hno
  · obtain rfl := Option.some.inj h
    exact absurd hx List.not_mem_nil
  · obtain ⟨estimated, -, h⟩ := Option.bind_eq_some_iff.mp h
    obtain ⟨parsed, -, h⟩ := Option.bind_eq_some_iff.mp h
    dsimp only at h
    split_ifs at h with hfree
    · obtain ⟨except, hexcept, h⟩ := Option.bind_eq_some_iff.mp h
      obtain ⟨m, hm, rfl⟩ := Option.map_eq_some_iff.mp hexcept
      obtain rfl := Option.some.inj h
      obtain ⟨size, hsize⟩ := mem_freeStorages hx
      have hcand := horder _ _ _ hsize
      obtain ⟨y, hy, he⟩ := List.mem_map.mp hcand
      obtain ⟨rfl, -⟩ := Prod.ext_iff.mp he
      exact ⟨m, hm, (of_decide_eq_true (List.mem_filter.mp hy).2).1⟩
    · obtain rfl := Option.some.inj h
      exact absurd hx List.not_mem_nil

/-- **Sufficiency.** -/
theorem Flat.followed (F : Type) [Double F] (grow : ℕ → ℕ) {calls : List (S × S)} {store : S}
    (h : Flat calls store) : Followed F grow (added calls) store := by
  refine ⟨fun order hi => ?_, fun order hi => ?_, fun order hi config horder n storages sizes
    estimatedSize evicted hevicted x hx hreach => ?_⟩
  · obtain ⟨m, hm, -, hfound⟩ := h.search_returns grow hi
    refine ⟨store :: m.found, hm.map _, fun x => ?_⟩
    rw [h.reaches_iff, List.mem_cons, hfound, h.mem_pushes hi]
  · obtain ⟨m, hm, hvisited, hfound⟩ := h.search_returns grow hi
    refine ⟨m.visited, ⟨?_, fun x => ?_⟩, fun sizes => ⟨hm.map _, hm.map _⟩⟩
    · rw [hvisited, hfound, List.nodup_cons]
      refine ⟨fun hself => ?_, ?_⟩
      · have hself := (h.mem_pushes hi).mp hself
        exact h.2 store store hself hself
      · rcases pushes_cases order store with ⟨hnil, -⟩ | ⟨b, rest, hb, hsub, hpush⟩
        · rw [hnil]
          exact List.nodup_nil
        · have hnone : dependsOn rest b = [] := by
            refine List.eq_nil_iff_forall_not_mem.mpr fun c hc => ?_
            exact h.2 b c (mem_added.mp ((hi.2 _).mp hb))
              (mem_added.mp ((hi.2 _).mp (hsub (mem_dependsOn.mp hc))))
          rw [hpush, hnone]
          exact List.nodup_singleton b
    · rw [hvisited, hfound, h.reaches_iff, List.mem_cons, h.mem_pushes hi]
  · obtain ⟨m, hm, hno⟩ := evicted_notMem horder hevicted hx
    exact hno (h.search_mem hi hm hreach)

/-- **The dependencies of a storage are followed completely**, in every order they may be iterated in,
exactly if the storage has one dependency at most and that one has none. -/
theorem followed_iff_flat (F : Type) [Double F] (grow : ℕ → ℕ) (calls : List (S × S)) (store : S) :
    Followed F grow (added calls) store ↔ Flat calls store :=
  ⟨fun h => h.flat, fun h => h.followed F grow⟩

/-- Of two dependencies one is missed. -/
theorem not_followed_two : ¬ ∀ (calls : List (ℕ × ℕ)) (store : ℕ),
    Followed Float (fun capacity => 2 * capacity) (added calls) store := by
  intro h
  have hsingle : (1 : ℕ) = 2 := (h [(0, 1), (0, 2)] 0).single
    (mem_added.mpr (by simp)) (mem_added.mpr (by simp))
  omega

end Joda.Storage.StorageCollection
