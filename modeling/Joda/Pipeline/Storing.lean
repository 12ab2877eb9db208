import Joda.Pipeline.Workers
import Mathlib.Data.List.ReduceOption

/-! # A query that reads what another one stores

`StorageReceiver` puts what comes through the queue into a named storage, and `StorageSender` sends all
that is in the storage to the next query. `QueryCombinationRule` replaces the two by a `StorageBuffer`,
which sends the containers of the storage once, then stores what comes and passes it on. The copy is made
in `fillBuffer`, which is only called for an input: where none comes, the buffer sends nothing. -/

namespace Joda.Pipeline.Storing

open Joda.Lib.Runs Joda.Lib.Network Joda.Pipeline.Executor Joda.Pipeline.Workers
open Joda.Pipeline.Emissions (outputs after emissions)

variable {C : Type}

/-! ### The storage -/

structure JSONStorage (C : Type) where
  container : List C

/-- A pointer to a container, which may be null. -/
def JSONStorage.insertDocuments (s : JSONStorage C) : Option C → JSONStorage C
  | none => s
  | some cont => ⟨s.container ++ [cont]⟩

/-- **`getOrAddStorage`** for one name, by what is registered under it. -/
def getOrAddStorage (registered : Option (JSONStorage C)) : JSONStorage C := registered.getD ⟨[]⟩

/-! ### The tasks -/

/-- **`StorageReceiverExec`**, with the storage that is registered. A null pointer is not stored, but the
storage is added for it. -/
def storageReceiver : Sink (Option (JSONStorage C)) (Option C) where
  emptyBuffer registered buff := some ((getOrAddStorage registered).insertDocuments buff)
  finalize registered := registered

structure StorageSenderExec (C : Type) where
  registered : Option (JSONStorage C)
  isfinished : Bool

/-- **`StorageSenderExec::fillBuffer`** sends all containers and leaves the output buffer empty. -/
def storageSender : Source (StorageSenderExec C) (Option C) where
  finished s := s.isfinished
  fillBuffer s :=
    (⟨some (getOrAddStorage s.registered), true⟩, (getOrAddStorage s.registered).container.map some, none)

structure StorageBufferExec (C : Type) where
  registered : Option (JSONStorage C)
  copied : Bool

/-- **`StorageBufferExec`**. -/
def storageBuffer : Calc (StorageBufferExec C) (Option C) (Option C) where
  fillBuffer s cont :=
    let storage := getOrAddStorage s.registered
    let sent := if s.copied then [] else storage.container.map some
    ⟨⟨some (storage.insertDocuments cont), true⟩, none, sent, cont.map some⟩
  finalize _ := ([], none)

/-- The tasks of the pipeline; all three are synchronous. -/
def receiverWorker (registered : Option (JSONStorage C)) : Worker (Option C) Unit :=
  iWorker Unit storageReceiver registered

def senderWorker (registered : Option (JSONStorage C)) : Worker Unit (Option C) :=
  oWorker Unit storageSender .synchronous ⟨registered, false⟩

def bufferWorker (capacity : ℕ) (registered : Option (JSONStorage C)) : Worker (Option C) (Option C) :=
  ioWorker ⟨storageBuffer, .synchronous, capacity⟩ ⟨registered, false⟩

/-! ### What each of them does -/

/-- What is stored after some inputs. -/
def stored (registered : Option (JSONStorage C)) (xs : List (Option C)) : List C :=
  (getOrAddStorage registered).container ++ xs.reduceOption

theorem insertDocuments_container (s : JSONStorage C) (cont : Option C) :
    (s.insertDocuments cont).container = s.container ++ cont.toList := by
  rcases cont with _ | cont
  · exact (List.append_nil _).symm
  · rfl

theorem stored_cons (registered : Option (JSONStorage C)) (cont : Option C) (xs : List (Option C)) :
    stored (some ((getOrAddStorage registered).insertDocuments cont)) xs =
      stored registered (cont :: xs) := by
  change ((getOrAddStorage registered).insertDocuments cont).container ++ _ = _
  rw [insertDocuments_container, List.append_assoc]
  rcases cont with _ | cont <;> rfl

/-- **The receiver** stores what it is given. -/
theorem foldl_storageReceiver : ∀ (xs : List (Option C)) (registered : Option (JSONStorage C)),
    (getOrAddStorage (xs.foldl storageReceiver.emptyBuffer registered)).container = stored registered xs
  | [], registered => (List.append_nil _).symm
  | cont :: xs, registered => by
    rw [List.foldl_cons, foldl_storageReceiver xs, ← stored_cons]
    rfl

/-- **The sender** sends what is stored, once. -/
theorem reached_storageSender {registered : Option (JSONStorage C)} {sent : List (Option C)}
    {s : StorageSenderExec C} (h : Reached storageSender ⟨registered, false⟩ sent s) :
    s = ⟨registered, false⟩ ∧ sent = [] ∨
      s = ⟨some (getOrAddStorage registered), true⟩ ∧ sent = (stored registered []).map some := by
  induction h with
  | start => exact Or.inl ⟨rfl, rfl⟩
  | fill _ hs ih =>
    rcases ih with ⟨rfl, rfl⟩ | ⟨rfl, -⟩
    · refine Or.inr ⟨rfl, ?_⟩
      change [] ++ (((getOrAddStorage registered).container.map some) ++ []) = _
      rw [List.nil_append, List.append_nil, stored, List.reduceOption_nil, List.append_nil]
    · cases hs

theorem takes_storageBuffer : Takes (storageBuffer (C := C)) where
  takes _ _ := rfl
  ends _ := Nat.zero_le 1

theorem map_some_reduceOption_cons (cont : Option C) (xs : List (Option C)) :
    (cont.map some).toList ++ xs.reduceOption.map some = ((cont :: xs).reduceOption).map some := by
  rcases cont with _ | cont <;> rfl

/-- **The buffer**: once the storage was copied, the inputs are passed on. -/
theorem outputs_copied : ∀ (xs : List (Option C)) (registered : Option (JSONStorage C)),
    outputs storageBuffer ⟨registered, true⟩ xs = xs.reduceOption.map some
  | [], _ => rfl
  | cont :: xs, registered => by
    rw [← map_some_reduceOption_cons, ← outputs_copied xs]
    rfl

theorem after_storageBuffer : ∀ (xs : List (Option C)) (s : StorageBufferExec C),
    (getOrAddStorage (after storageBuffer s xs).registered).container = stored s.registered xs
  | [], _ => (List.append_nil _).symm
  | cont :: xs, s => by
    rw [after, after_storageBuffer xs, ← stored_cons]
    rfl

theorem emissions_cons (cont : Option C) (xs : List (Option C)) (registered : Option (JSONStorage C)) :
    emissions storageBuffer ⟨registered, false⟩ (cont :: xs) =
      (stored registered (cont :: xs)).map some := by
  have hcopied : outputs storageBuffer ⟨registered, false⟩ (cont :: xs) =
      ((getOrAddStorage registered).container.map some ++ (cont.map some).toList) ++
        xs.reduceOption.map some := by
    rw [← outputs_copied xs (some ((getOrAddStorage registered).insertDocuments cont))]
    rfl
  have hend : emissions storageBuffer ⟨registered, false⟩ (cont :: xs) =
      outputs storageBuffer ⟨registered, false⟩ (cont :: xs) :=
    (List.append_nil _).trans (List.append_nil _)
  rw [hend, hcopied, List.append_assoc, map_some_reduceOption_cons, stored, List.map_append]

/-! ### Two queries, or one -/

section Combined

variable {capacity : ℕ} {registered : Option (JSONStorage C)}

/-- A buffer that has left. -/
theorem bufferWorker_gives : (bufferWorker capacity registered).Gives fun xs ys t =>
    ys = emissions storageBuffer ⟨registered, false⟩ xs ∧
      (getOrAddStorage t.state.registered).container = stored registered xs := by
  intro past t hleaves
  obtain ⟨hpushes, hstate⟩ := (ioWorker_gives takes_storageBuffer).2 past t hleaves
  exact ⟨hpushes, hstate ▸ after_storageBuffer _ _⟩

/-- A sender that has left. -/
theorem senderWorker_gives : (senderWorker registered).Gives fun _ ys t =>
    ys = (stored registered []).map some ∧ t.state.registered = some (getOrAddStorage registered) := by
  intro past t hleaves
  obtain ⟨-, hreached, hfinished⟩ := oWorker_gives past t hleaves
  rcases reached_storageSender hreached with ⟨hstate, -⟩ | ⟨hstate, hsent⟩
  · rw [hstate] at hfinished
    cases hfinished
  · exact ⟨hsent, by rw [hstate]⟩

/-- A receiver that has left. -/
theorem receiverWorker_gives : (receiverWorker registered).Gives fun xs _ t =>
    (getOrAddStorage t.state).container = stored registered xs := by
  intro past t hleaves
  obtain ⟨-, hstate⟩ := iWorker_gives.2 past t hleaves
  exact hstate ▸ foldl_storageReceiver _ _

/-- **The combined query**: a buffer stores what the receiver stores, and passes on what the sender then
sends, if and only if an input came or nothing was stored before. -/
theorem buffer_agrees_iff {past past' t t'} (hbuffer : (bufferWorker capacity registered).Leaves past t)
    (hreceiver : (receiverWorker registered).Leaves past' t') (hsame : pops past' = pops past)
    {past'' : List ((senderWorker t'.state).State × Act Unit (Option C))}
    {t'' : (senderWorker t'.state).State}
    (hsender : (senderWorker t'.state).Leaves past'' t'') :
    (getOrAddStorage t.state.registered).container = (getOrAddStorage t''.state.registered).container ∧
      (pushes past = pushes past'' ↔
        pops past ≠ [] ∨ (getOrAddStorage registered).container = []) := by
  obtain ⟨hpushes, hstate⟩ := bufferWorker_gives past t hbuffer
  obtain ⟨hsent, hsender⟩ := senderWorker_gives past'' t'' hsender
  have hreceived := receiverWorker_gives past' t' hreceiver
  rw [hsame] at hreceived
  have hstored : stored t'.state [] = stored registered (pops past) := by
    rw [← hreceived, stored, List.reduceOption_nil, List.append_nil]
  refine ⟨?_, ?_⟩
  · rw [hstate, hsender, ← hreceived]
    rfl
  · rw [hpushes, hsent, hstored]
    rcases pops past with - | ⟨cont, xs⟩
    · have hnil : stored registered ([] : List (Option C)) = (getOrAddStorage registered).container :=
        List.append_nil _
      rw [hnil]
      change [] = _ ↔ _
      rw [eq_comm, List.map_eq_nil_iff]
      exact ⟨Or.inr, fun h => h.resolve_left fun hne => hne rfl⟩
    · rw [emissions_cons]
      exact ⟨fun _ => Or.inl (List.cons_ne_nil _ _), fun _ => rfl⟩

/-- A storage with one container, and another one that comes through the queue. -/
def bufferedOne : Option (List ((bufferWorker 1 (some ⟨[1]⟩)).State × Act (Option ℕ) (Option ℕ)) ×
    (bufferWorker 1 (some ⟨[1]⟩)).State) :=
  (ioDriver ⟨storageBuffer, .synchronous, 1⟩ ⟨some ⟨[1]⟩, false⟩).drive
    (List.replicate 4 ([some 2], false) ++ List.replicate 10 ([], true))
    ⟨⟨some ⟨[1]⟩, false⟩, none, none, .left none, [], 0, [], none, [], [], [], []⟩

def receivedOne : Option (List ((receiverWorker (some ⟨[1]⟩)).State × Act (Option ℕ) Unit) ×
    (receiverWorker (some ⟨[1]⟩)).State) :=
  (iDriver Unit storageReceiver (some ⟨[1]⟩)).drive
    (List.replicate 3 ([some 2], false) ++ [([], true)]) ⟨some ⟨[1]⟩, .left none⟩

def sentTwo : Option (List ((senderWorker (some ⟨[1, 2]⟩)).State × Act Unit (Option ℕ)) ×
    (senderWorker (some ⟨[1, 2]⟩)).State) :=
  (oDriver Unit storageSender .synchronous ⟨some ⟨[1, 2]⟩, false⟩).drive
    (List.replicate 10 ([], true)) ⟨⟨some ⟨[1, 2]⟩, false⟩, none, .left none⟩

theorem buffer_agrees_iff_two : pushes (bufferedOne.get rfl).1 = pushes (sentTwo.get rfl).1 :=
  (buffer_agrees_iff
    (Driver.leaves ⟨⟨rfl, rfl, rfl, rfl, rfl, rfl, rfl, rfl⟩, rfl⟩ (@Option.some_get _ bufferedOne rfl).symm
      (.leave rfl))
    (Driver.leaves rfl (@Option.some_get _ receivedOne rfl).symm (.leave rfl)) rfl
    (Driver.leaves rfl (@Option.some_get _ sentTwo rfl).symm (.leave rfl))).2.mpr
      (.inl (List.cons_ne_nil (some 2) []))

end Combined

end Joda.Pipeline.Storing
