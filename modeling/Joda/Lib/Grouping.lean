import Joda.Lib.Table
import Mathlib.Data.List.Perm.Basic
import Mathlib.Data.List.Nodup

/-! # Groupings

A grouping of a list by a key has one group for each key that occurs, with the elements that have it,
in their order. The order of the groups is left open. -/

namespace Joda.Lib.Grouping

open Joda.Lib.Table

variable {α κ κ' : Type*} [DecidableEq κ] [DecidableEq κ']

/-- **A grouping of `l` by `key`.** -/
structure IsGrouping (key : α → κ) (l : List α) (gs : List (κ × List α)) : Prop where
  nodup : (gs.map Prod.fst).Nodup
  complete : ∀ a ∈ l, key a ∈ gs.map Prod.fst
  nonempty : ∀ g ∈ gs, g.2 ≠ []
  group : ∀ g ∈ gs, g.2 = l.filter (key · = g.1)

variable {key : α → κ} {l : List α} {gs : List (κ × List α)}

/-- The groups after the first one group the elements that are not in it. -/
theorem IsGrouping.tail {g : κ × List α} (h : IsGrouping key l (g :: gs)) :
    IsGrouping key (l.filter (¬ key · = g.1)) gs := by
  have hne : ∀ g' ∈ gs, g'.1 ≠ g.1 := fun g' hg' heq =>
    (List.nodup_cons.mp h.nodup).1 (heq ▸ List.mem_map_of_mem hg')
  refine ⟨(List.nodup_cons.mp h.nodup).2, fun a ha => ?_,
    fun g' hg' => h.nonempty g' (List.mem_cons_of_mem _ hg'), fun g' hg' => ?_⟩
  · obtain ⟨hal, hag⟩ := List.mem_filter.mp ha
    rcases List.mem_cons.mp (h.complete a hal) with heq | hmem
    · simp [heq] at hag
    · exact hmem
  · rw [h.group g' (List.mem_cons_of_mem _ hg'), List.filter_filter]
    refine List.filter_congr fun a _ => ?_
    have := hne g' hg'
    by_cases hk : key a = g'.1
    · simp [hk, this]
    · simp [hk]

/-- **Every element is in exactly one group, once.** -/
theorem IsGrouping.perm (h : IsGrouping key l gs) : (gs.flatMap Prod.snd).Perm l := by
  induction gs generalizing l with
  | nil =>
    have hl : l = [] := List.eq_nil_iff_forall_not_mem.mpr fun a ha =>
      List.not_mem_nil (h.complete a ha)
    rw [hl]
    exact List.Perm.refl _
  | cons g gs ih =>
    have hg : g.2 = l.filter (key · = g.1) := h.group g List.mem_cons_self
    have hrest := ih h.tail
    rw [List.flatMap_cons, hg]
    refine (hrest.append_left _).trans ?_
    have := List.filter_append_perm (fun a => decide (key a = g.1)) l
    simpa only [decide_not] using this

/-- Each group has the key of one of the elements. -/
theorem IsGrouping.exists_mem (h : IsGrouping key l gs) {g : κ × List α} (hg : g ∈ gs) :
    ∃ a ∈ l, key a = g.1 := by
  obtain ⟨a, ha⟩ := List.exists_mem_of_ne_nil _ (h.nonempty g hg)
  rw [h.group g hg] at ha
  obtain ⟨hal, hak⟩ := List.mem_filter.mp ha
  exact ⟨a, hal, of_decide_eq_true hak⟩

/-- **A finer key**, where the elements of a group agree on it. -/
theorem IsGrouping.refine (h : IsGrouping key l gs) (key' : α → κ') (rename : κ × List α → κ')
    (hkey : ∀ g ∈ gs, ∀ a ∈ l, key' a = rename g ↔ key a = g.1) :
    IsGrouping key' l (gs.map fun g => (rename g, g.2)) := by
  refine ⟨?_, fun a ha => ?_, fun g' hg' => ?_, fun g' hg' => ?_⟩
  · rw [List.map_map]
    have hnd := h.nodup
    rw [List.nodup_iff_pairwise_ne, List.pairwise_map] at hnd ⊢
    refine hnd.imp_of_mem fun {g g'} hg hg' hne heq => hne ?_
    obtain ⟨a, hal, hak⟩ := h.exists_mem hg
    have hr := (hkey g hg a hal).mpr hak
    rw [← hak]
    exact (hkey g' hg' a hal).mp (hr.trans heq)
  · obtain ⟨g, hg, hga⟩ := List.mem_map.mp (h.complete a ha)
    rw [(hkey g hg a ha).mpr hga.symm, List.map_map]
    exact List.mem_map_of_mem (f := fun g => rename g) hg
  · obtain ⟨g, hg, rfl⟩ := List.mem_map.mp hg'
    exact h.nonempty g hg
  · obtain ⟨g, hg, rfl⟩ := List.mem_map.mp hg'
    rw [h.group g hg]
    refine List.filter_congr fun a ha => ?_
    exact decide_eq_decide.mpr (hkey g hg a ha).symm

theorem isGrouping_nil (key : α → κ) : IsGrouping key [] [] :=
  ⟨.nil, by simp, by simp, by simp⟩

/-- **One more element**: it is added to its group, or begins one. -/
theorem IsGrouping.snoc (h : IsGrouping key l gs) (a : α) : IsGrouping key (l ++ [a])
    (atKey Prod.fst (key a) (key a, [a]) (fun g => (g.1, g.2 ++ [a])) gs) := by
  by_cases hmem : key a ∈ gs.map Prod.fst
  · rw [atKey_of_mem h.nodup hmem]
    have hkeys : (gs.map fun g => if g.1 = key a then (g.1, g.2 ++ [a]) else g).map Prod.fst =
        gs.map Prod.fst := by
      rw [List.map_map]
      refine List.map_congr_left fun g _ => ?_
      simp only [Function.comp_apply]
      split_ifs <;> rfl
    refine ⟨by rw [hkeys]; exact h.nodup, fun b hb => ?_, fun g' hg' => ?_, fun g' hg' => ?_⟩
    · rw [hkeys]
      rcases List.mem_append.mp hb with hb | hb
      · exact h.complete b hb
      · rw [List.mem_singleton.mp hb]
        exact hmem
    · obtain ⟨g, hg, rfl⟩ := List.mem_map.mp hg'
      split_ifs
      · simp
      · exact h.nonempty g hg
    · obtain ⟨g, hg, rfl⟩ := List.mem_map.mp hg'
      by_cases hk : g.1 = key a
      · rw [if_pos hk, List.filter_append, List.filter_singleton, ← h.group g hg]
        simp [hk]
      · rw [if_neg hk, List.filter_append, List.filter_singleton, ← h.group g hg]
        simp [Ne.symm hk]
  · rw [atKey_of_not_mem hmem]
    have hnone : l.filter (key · = key a) = [] := List.filter_eq_nil_iff.mpr fun b hb => by
      have hne : key b ≠ key a := fun heq => hmem (heq ▸ h.complete b hb)
      simp [hne]
    refine ⟨?_, fun b hb => ?_, fun g hg => ?_, fun g hg => ?_⟩
    · rw [List.map_append, List.map_singleton]
      refine List.nodup_append.mpr ⟨h.nodup, List.nodup_singleton _, fun x hx y hy heq => hmem ?_⟩
      have hkey : key a = x := (heq.trans (List.mem_singleton.mp hy)).symm
      rwa [hkey]
    · rw [List.map_append, List.map_singleton]
      rcases List.mem_append.mp hb with hb | hb
      · exact List.mem_append_left _ (h.complete b hb)
      · rw [List.mem_singleton.mp hb]
        exact List.mem_append_right _ (List.mem_singleton_self _)
    · rcases List.mem_append.mp hg with hg | hg
      · exact h.nonempty g hg
      · rw [List.mem_singleton.mp hg]
        simp
    · rcases List.mem_append.mp hg with hg | hg
      · have hne : key a ≠ g.1 := fun heq => hmem (heq ▸ List.mem_map_of_mem hg)
        rw [List.filter_append, List.filter_singleton, ← h.group g hg]
        simp [hne]
      · rw [List.mem_singleton.mp hg, List.filter_append, hnone]
        simp

end Joda.Lib.Grouping
