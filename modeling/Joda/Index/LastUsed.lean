import Joda.Lib.Chain
import Joda.Lib.Runs
import Joda.Text
import Mathlib.Data.List.Induction

/-! # The list of the last used elements

`ManagedIndexData` is an element of a doubly linked list that `MemoryManager` holds at both ends.
`updateLastUsed` takes the element out of its place and puts it at the end, but it never resets the
pointer to the next element: whatever was followed by another element, or is the only one, then lies
on a cycle. -/

namespace Joda.Index.LastUsed

open Joda.Lib.Chain Joda.Lib.Runs

variable {ι : Type} [DecidableEq ι]

/-! ### The code -/

/-- The elements with their pointers, and the ends in the `MemoryManager`. -/
structure Managed (ι : Type) where
  memorySize : ι → ℕ
  previous : ι → Option ι
  next : ι → Option ι
  recentlyUsedElement : Option ι
  oldestUsedElement : Option ι

namespace Managed

def updateSize (m : Managed ι) (e : ι) (additionalSize : ℕ) : Managed ι :=
  { m with memorySize := Function.update m.memorySize e ((m.memorySize e + additionalSize) % 2 ^ 64) }

/-- The second half of `updateLastUsed`. -/
def setLast (m : Managed ι) (e : ι) : Managed ι :=
  match m.recentlyUsedElement with
  | some recent =>
    { m with
      previous := Function.update m.previous e (some recent)
      next := Function.update m.next recent (some e)
      recentlyUsedElement := some e }
  | none => { m with oldestUsedElement := some e, recentlyUsedElement := some e }

/-- **`ManagedIndexData::updateLastUsed`** -/
def updateLastUsed (m : Managed ι) (e : ι) (additionalSize : ℕ) : Managed ι :=
  let m := m.updateSize e additionalSize
  match m.previous e, m.next e with
  -- already the end of the chain
  | some _, none => m
  -- in the middle of the chain
  | some p, some n =>
    { m with
      next := Function.update m.next p (some n)
      previous := Function.update m.previous n (some p) }.setLast e
  -- the start of the chain
  | none, some n =>
    { m with previous := Function.update m.previous n none, oldestUsedElement := some n }.setLast e
  | none, none => m.setLast e

end Managed

/-! ### The order of last use -/

/-- The used elements, the one used longest ago first. -/
def lastUsed (uses : List ι) : List ι := uses.foldl (fun l e => l.erase e ++ [e]) []

theorem lastUsed_concat (uses : List ι) (e : ι) :
    lastUsed (uses ++ [e]) = (lastUsed uses).erase e ++ [e] := by
  simp [lastUsed]

theorem mem_lastUsed (uses : List ι) (e : ι) : e ∈ lastUsed uses ↔ e ∈ uses := by
  induction uses using List.reverseRecOn with
  | nil => simp [lastUsed]
  | append_singleton uses f ih =>
    rw [lastUsed_concat, List.mem_append, List.mem_append, ← ih, List.mem_singleton]
    by_cases he : e = f
    · simp [he]
    · rw [List.mem_erase_of_ne he]

theorem getLast?_lastUsed (uses : List ι) : (lastUsed uses).getLast? = uses.getLast? := by
  induction uses using List.reverseRecOn with
  | nil => rfl
  | append_singleton uses f ih => rw [lastUsed_concat, List.getLast?_concat, List.getLast?_concat]

/-! ### Runs -/

/-- The elements with the uses so far. -/
abbrev State (ι : Type) := Managed ι × List ι

/-- An empty `MemoryManager`, and new elements. -/
def Init (s : State ι) : Prop :=
  (∀ e, s.1.previous e = none ∧ s.1.next e = none) ∧ s.1.recentlyUsedElement = none ∧
    s.1.oldestUsedElement = none ∧ s.2 = []

def Step (call : ι × ℕ) (s t : State ι) : Prop :=
  t = (s.1.updateLastUsed call.1 call.2, s.2 ++ [call.1])

/-- **The list is a list**: from the oldest element to the most recent one and back. -/
structure IsList (m : Managed ι) (l : List ι) : Prop where
  nodup : l.Nodup
  forth : Walk m.next m.oldestUsedElement l
  back : Walk m.previous m.recentlyUsedElement l.reverse
  recent : m.recentlyUsedElement = l.getLast?
  ends : ∀ e, m.recentlyUsedElement = some e → m.next e = none
  inverse : ∀ a b, m.next a = some b ↔ m.previous b = some a

def Holds (s : State ι) : Prop := IsList s.1 (lastUsed s.2)

/-- **The condition on a call**: the element is new, or it was used last and is not the only one. -/
def Meets (s : State ι) (call : ι × ℕ) : Prop :=
  call.1 ∉ s.2 ∨ s.2.getLast? = some call.1 ∧ ∃ e ∈ s.2, e ≠ call.1

/-- The invariant: the list is linked, and what was not used points nowhere. -/
structure Inv (s : State ι) : Prop where
  linked : Linked s.1.previous s.1.next s.1.oldestUsedElement s.1.recentlyUsedElement (lastUsed s.2)
  unused : ∀ e, e ∉ s.2 → s.1.previous e = none ∧ s.1.next e = none

theorem Inv.init {s : State ι} (h : Init s) : Inv s := by
  obtain ⟨h1, h2, h3, h4⟩ := h
  have hl : lastUsed s.2 = [] := by rw [h4]; rfl
  refine ⟨?_, fun e _ => h1 e⟩
  rw [hl, h2, h3]
  exact ⟨List.nodup_nil, rfl, rfl, trivial⟩

/-- An element that points on is in the list, and so is what it points to. -/
theorem Inv.used {s : State ι} (h : Inv s) {e : ι}
    (he : s.1.previous e ≠ none ∨ s.1.next e ≠ none) : e ∈ lastUsed s.2 := by
  rw [mem_lastUsed]
  by_contra hn
  obtain ⟨h1, h2⟩ := h.unused e hn
  rcases he with he | he
  · exact he h1
  · exact he h2

theorem Inv.holds {s : State ι} (h : Inv s) : Holds s := by
  refine ⟨h.linked.nodup, h.linked.walk, h.linked.walkBack, h.linked.last,
    fun e he => h.linked.next_last he, fun a b => ?_⟩
  constructor
  · intro hn
    have ha : a ∈ lastUsed s.2 := h.used (Or.inr (by rw [hn]; simp))
    have hb : b ∈ lastUsed s.2 := by
      obtain ⟨u, v, hl⟩ := List.append_of_mem ha
      have hlinked := h.linked
      rw [hl] at hlinked ⊢
      have hv := hlinked.neighbours.2
      rw [hn] at hv
      exact List.mem_append_right _ (List.mem_cons_of_mem _ (List.mem_of_mem_head? hv.symm))
    exact (h.linked.inverse ha hb).mp hn
  · intro hp
    have hb : b ∈ lastUsed s.2 := h.used (Or.inl (by rw [hp]; simp))
    have ha : a ∈ lastUsed s.2 := by
      obtain ⟨u, v, hl⟩ := List.append_of_mem hb
      have hlinked := h.linked
      rw [hl] at hlinked ⊢
      have hu := hlinked.neighbours.1
      rw [hp] at hu
      exact List.mem_append_left _ (List.mem_of_getLast? hu.symm)
    exact (h.linked.inverse ha hb).mpr hp

/-! ### One call -/

/-- A new element is put at the end. -/
theorem Inv.new {s : State ι} (h : Inv s) {e : ι} (he : e ∉ s.2) (additionalSize : ℕ) :
    Inv (s.1.updateLastUsed e additionalSize, s.2 ++ [e]) := by
  obtain ⟨m, uses⟩ := s
  obtain ⟨hp, hn⟩ := h.unused e he
  have hmem : e ∉ lastUsed uses := fun hm => he ((mem_lastUsed uses e).mp hm)
  have hupdate : m.updateLastUsed e additionalSize = (m.updateSize e additionalSize).setLast e := by
    unfold Managed.updateLastUsed
    have hp' : (m.updateSize e additionalSize).previous e = none := hp
    have hn' : (m.updateSize e additionalSize).next e = none := hn
    simp only [hp', hn']
  have hpush := h.linked.push hmem hn
  have hlast : lastUsed (uses ++ [e]) = lastUsed uses ++ [e] := by
    rw [lastUsed_concat, List.erase_of_not_mem hmem]
  have hrecent := h.linked.last
  have hfirst := h.linked.first
  dsimp only at hp hn hpush hrecent hfirst
  rw [hupdate]
  unfold Managed.setLast
  cases hr : (m.updateSize e additionalSize).recentlyUsedElement with
  | none =>
    have hr : m.recentlyUsedElement = none := hr
    rw [hr] at hpush hrecent
    have hnil : lastUsed uses = [] := List.getLast?_eq_none_iff.mp hrecent.symm
    rw [hnil] at hfirst
    rw [hfirst] at hpush
    have hsame : Function.update m.previous e none = m.previous := by
      rw [← hp]
      exact Function.update_eq_self e m.previous
    rw [hsame] at hpush
    refine ⟨?_, fun f hf => h.unused f fun hmf => hf (List.mem_append_left _ hmf)⟩
    rw [hlast]
    exact hpush
  | some r =>
    have hr : m.recentlyUsedElement = some r := hr
    rw [hr] at hpush hrecent
    have hrl : r ∈ lastUsed uses := List.mem_of_getLast? hrecent.symm
    have hne : ∃ a, m.oldestUsedElement = some a := by
      rw [hfirst]
      cases hl : lastUsed uses with
      | nil => rw [hl] at hrl; cases hrl
      | cons a l => exact ⟨a, rfl⟩
    obtain ⟨a, ha⟩ := hne
    refine ⟨?_, fun f hf => ?_⟩
    · rw [hlast]
      have hfirst' : m.oldestUsedElement.or (some e) = m.oldestUsedElement := by rw [ha]; rfl
      rw [hfirst'] at hpush
      exact hpush
    · have hfe : f ≠ e := fun hfe => hf (by rw [hfe]; simp)
      have hfr : f ≠ r := fun hfr =>
        hf (List.mem_append_left _ ((mem_lastUsed uses f).mp (hfr ▸ hrl)))
      obtain ⟨g1, g2⟩ := h.unused f fun hmf => hf (List.mem_append_left _ hmf)
      exact ⟨(Function.update_of_ne hfe _ _).trans g1, (Function.update_of_ne hfr _ _).trans g2⟩

/-- The element used last stays where it is, if there is one before it. -/
theorem Inv.again {s : State ι} (h : Inv s) {e f : ι} (hlast : s.2.getLast? = some e) (hf : f ∈ s.2)
    (hne : f ≠ e) (additionalSize : ℕ) :
    Inv (s.1.updateLastUsed e additionalSize, s.2 ++ [e]) := by
  obtain ⟨m, uses⟩ := s
  rw [← getLast?_lastUsed] at hlast
  obtain ⟨u, hu⟩ := List.getLast?_eq_some_iff.mp hlast
  have hlinked := h.linked
  have hfu : f ∈ u := by
    have hmem := (mem_lastUsed uses f).mpr hf
    rw [hu] at hmem
    exact (List.mem_append.mp hmem).resolve_right fun hfe => hne (List.mem_singleton.mp hfe)
  rw [hu] at hlinked
  obtain ⟨hp, hn⟩ := hlinked.neighbours
  obtain ⟨w, r, rfl⟩ : ∃ w r, u = w ++ [r] := by
    rcases List.eq_nil_or_concat u with rfl | ⟨w, r, hw⟩
    · cases hfu
    · exact ⟨w, r, by rw [hw, List.concat_eq_append]⟩
  rw [List.getLast?_concat] at hp
  have hupdate : m.updateLastUsed e additionalSize = m.updateSize e additionalSize := by
    unfold Managed.updateLastUsed
    have hp' : (m.updateSize e additionalSize).previous e = some r := hp
    have hn' : (m.updateSize e additionalSize).next e = none := hn
    simp only [hp', hn']
  have hsame : lastUsed (uses ++ [e]) = lastUsed uses := by
    have hnot : e ∉ w ++ [r] := by
      have hnodup := hlinked.nodup
      rw [List.nodup_append] at hnodup
      exact fun hm => hnodup.2.2 e hm e (List.mem_singleton_self e) rfl
    rw [lastUsed_concat, hu, List.erase_append_right _ hnot]
    simp
  rw [hupdate]
  refine ⟨?_, fun g hg => h.unused g fun hm => hg (List.mem_append_left _ hm)⟩
  rw [hsame]
  exact h.linked

theorem Inv.keeps (call : ι × ℕ) (s t : State ι) (h : Inv s) (hm : Meets s call)
    (hs : Step call s t) : Inv t := by
  obtain rfl : t = _ := hs
  rcases hm with he | ⟨hlast, f, hf, hne⟩
  · exact h.new he call.2
  · exact h.again hlast hf hne call.2

/-- Everything else leaves the new end of the list pointing on. -/
theorem Inv.breaks (call : ι × ℕ) (s t : State ι) (h : Inv s) (hm : ¬ Meets s call)
    (hs : Step call s t) : ¬ Holds t := by
  obtain ⟨e, additionalSize⟩ := call
  obtain ⟨m, uses⟩ := s
  obtain rfl : t = _ := hs
  unfold Meets at hm
  push Not at hm
  obtain ⟨hmem, hnotlast⟩ := hm
  have hl : e ∈ lastUsed uses := (mem_lastUsed uses e).mpr hmem
  obtain ⟨u, v, hsplit⟩ := List.append_of_mem hl
  have hlinked := h.linked
  rw [hsplit] at hlinked
  obtain ⟨hp, hn⟩ := hlinked.neighbours
  dsimp only at hlinked hp hn
  intro hholds
  have hends := hholds.ends e
  dsimp only at hends
  cases v with
  | nil =>
    -- the only element
    have hlast : (lastUsed uses).getLast? = some e := by rw [hsplit, List.getLast?_concat]
    have honly := hnotlast (by rw [← getLast?_lastUsed]; exact hlast)
    have hu : u = [] := by
      by_contra hu
      obtain ⟨f, hf⟩ := List.exists_mem_of_ne_nil u hu
      have hfl : f ∈ lastUsed uses := by
        rw [hsplit]
        exact List.mem_append_left _ hf
      have hfe : f = e := honly f ((mem_lastUsed uses f).mp hfl)
      have hnodup := hlinked.nodup
      rw [List.nodup_append] at hnodup
      exact hnodup.2.2 f hf e (List.mem_singleton_self e) hfe
    rw [hu] at hp
    have hp' : (m.updateSize e additionalSize).previous e = none := hp
    have hn' : (m.updateSize e additionalSize).next e = none := hn
    have hr : (m.updateSize e additionalSize).recentlyUsedElement = some e := by
      show m.recentlyUsedElement = some e
      rw [hlinked.last, List.getLast?_concat]
    have hupdate : (m.updateLastUsed e additionalSize).recentlyUsedElement = some e ∧
        (m.updateLastUsed e additionalSize).next e = some e := by
      unfold Managed.updateLastUsed
      simp only [hp', hn', Managed.setLast, hr, Function.update_self, and_self]
    rw [hends hupdate.1] at hupdate
    simp at hupdate
  | cons n v =>
    -- an element with one after it
    have hnext : (m.updateSize e additionalSize).next e = some n := hn
    obtain ⟨r, hr⟩ : ∃ r, (n :: v).getLast? = some r := by
      cases hgl : (n :: v).getLast? with
      | none => simp at hgl
      | some r => exact ⟨r, rfl⟩
    have hrecent : m.recentlyUsedElement = some r := by
      rw [hlinked.last, List.getLast?_append, List.getLast?_cons_cons, hr]
      rfl
    have hnodup := hlinked.nodup
    rw [List.nodup_append] at hnodup
    have hre : e ≠ r := fun hre =>
      (List.nodup_cons.mp hnodup.2.1).1 (hre ▸ List.mem_of_getLast? hr)
    have hupdate : (m.updateLastUsed e additionalSize).recentlyUsedElement = some e ∧
        (m.updateLastUsed e additionalSize).next e = some n := by
      have hrecent' : (m.updateSize e additionalSize).recentlyUsedElement = some r := hrecent
      unfold Managed.updateLastUsed
      cases hpe : (m.updateSize e additionalSize).previous e with
      | none =>
        simp only [hpe, hnext, Managed.setLast, hrecent']
        exact ⟨trivial, (Function.update_of_ne hre _ _).trans hnext⟩
      | some q =>
        have hqe : e ≠ q := by
          have hq : u.getLast? = some q := hp.symm.trans hpe
          rintro rfl
          exact hnodup.2.2 e (List.mem_of_getLast? hq) e List.mem_cons_self rfl
        simp only [hpe, hnext, Managed.setLast, hrecent']
        exact ⟨trivial, (Function.update_of_ne hre _ _).trans
          ((Function.update_of_ne hqe _ _).trans hnext)⟩
    rw [hends hupdate.1] at hupdate
    simp at hupdate

/-- **The list is a list in all states of a run exactly if every call meets the condition.** -/
theorem isList_iff {past : List (State ι × (ι × ℕ))} {s : State ι} (h : Run Init Step past s) :
    (Holds s ∧ ∀ p ∈ past, Holds p.1) ↔ ∀ p ∈ past, Meets p.1 p.2 :=
  h.holds_iff Inv (fun _ => Inv.init) Inv.keeps (fun _ => Inv.holds) Inv.breaks

/-- New elements and an empty list. -/
def fresh : State ℕ := (⟨fun _ => 0, fun _ => none, fun _ => none, none, none⟩, [])

theorem fresh_init : Init fresh := ⟨fun _ => ⟨rfl, rfl⟩, rfl, rfl, rfl⟩

/-- Three elements are used, then the last one again. -/
def threeUsed : Option (List (State ℕ × (ℕ × ℕ)) × State ℕ) :=
  follow (fun s call => some (s.1.updateLastUsed call.1 call.2, s.2 ++ [call.1]))
    [(1, 8), (2, 8), (3, 8), (3, 4)] [] fresh

theorem isSome_threeUsed : threeUsed.isSome = true := rfl

theorem run_threeUsed :
    Run Init Step (threeUsed.get isSome_threeUsed).1 (threeUsed.get isSome_threeUsed).2 :=
  (Run.start fresh_init).follow (fun _ _ _ h => (Option.some.inj h).symm)
    (@Option.some_get _ threeUsed isSome_threeUsed).symm

theorem meets_threeUsed : ∀ p ∈ (threeUsed.get isSome_threeUsed).1, Meets p.1 p.2 := by
  refine List.forall_mem_cons.mpr ⟨Or.inr ⟨rfl, 1, by decide, by decide⟩, ?_⟩
  repeat refine List.forall_mem_cons.mpr ⟨Or.inl (by decide), ?_⟩
  exact fun p hp => by cases hp

theorem isList_iff_threeUsed : Holds (threeUsed.get isSome_threeUsed).2 ∧
    lastUsed (threeUsed.get isSome_threeUsed).2.2 = [1, 2, 3] :=
  ⟨((isList_iff run_threeUsed).mpr meets_threeUsed).1, rfl⟩

/-- The only element, used again, is followed by itself. -/
theorem not_isList_twice : ¬ ∀ (past : List (State ℕ × (ℕ × ℕ))) (s : State ℕ),
    Run Init Step past s → Holds s := by
  intro h
  have hrun : Run Init Step [((fresh.1.updateLastUsed 1 8, [1]), (1, 8)), (fresh, (1, 8))]
      ((fresh.1.updateLastUsed 1 8).updateLastUsed 1 8, [1, 1]) :=
    .step (.step (.start fresh_init) rfl) rfl
  have hnext := (h _ _ hrun).ends 1 rfl
  exact absurd hnext (by decide)

end Joda.Index.LastUsed
