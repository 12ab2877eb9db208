import Joda.Lib.Cut
import Joda.Lib.Fuel
import Joda.Values.Value
import Mathlib.Data.List.TakeWhile

/-! # SPLIT

`BinarySPLITCalculationFunction::calculate` looks for the delimiter from the end of the occurrence
before, so it goes on for ever where the delimiter is empty. Otherwise it returns the pieces between
the leftmost occurrences. The parameters are read through `GetString`, up to their first zero byte. -/

namespace Joda.Values.SplitString

open Joda.Lib.Cut Joda.Lib.Fuel Joda.Values.Value

/-! ### The function -/

/-- `lhs.find(rhs, pos)`, `none` for `npos`. -/
def find (lhs rhs : Str) (pos : ℕ) : Option ℕ :=
  (List.range' pos (lhs.length + 1 - pos)).find? fun i => rhs.isPrefixOf (lhs.drop i)

/-- `s.substr(pos, n)` -/
def substr (s : Str) (pos n : ℕ) : Str := (s.drop pos).take n

/-- The loop, `none` when the fuel runs out. -/
def split (lhs rhs : Str) : ℕ → ℕ → List Str → Option (List Str)
  | 0, _, _ => none
  | fuel + 1, last, arr =>
    match find lhs rhs last with
    | some next => split lhs rhs fuel (next + rhs.length) (arr ++ [substr lhs last (next - last)])
    | none => some (arr ++ [lhs.drop last])

/-- **`BinarySPLITCalculationFunction::calculate`** -/
def calculate (lhs rhs : Str) (fuel : ℕ) : Option (List Str) := split lhs rhs fuel 0 []

variable {F : Type}

/-- `getParamString` -/
def getParamString : Option (RJValue F) → Option Str
  | some (.string s) => some (cString s)
  | _ => none

/-- `BinaryStringProvider::getAtomValue` of `SPLIT`, from the values of its parameters. -/
def getAtomValue (lhs rhs : Option (RJValue F)) (fuel : ℕ) : Option (RJValue F) :=
  match getParamString lhs, getParamString rhs with
  | some lhsStr, some rhsStr =>
    (calculate lhsStr rhsStr fuel).map fun arr => .array (arr.map .string)
  | _, _ => some .null

/-! ### The search -/

theorem find_some {lhs rhs : Str} {pos i : ℕ} (h : find lhs rhs pos = some i) :
    pos ≤ i ∧ i ≤ lhs.length ∧ rhs <+: lhs.drop i ∧ ∀ j, pos ≤ j → j < i → ¬ rhs <+: lhs.drop j := by
  unfold find at h
  rw [List.find?_range'_eq_some] at h
  obtain ⟨hpre, hmem, hbefore⟩ := h
  obtain ⟨k, hk, rfl⟩ := List.mem_range'.mp hmem
  refine ⟨by omega, by omega, List.isPrefixOf_iff_prefix.mp hpre, fun j hj hlt hp => ?_⟩
  have := hbefore j hj hlt
  rw [List.isPrefixOf_iff_prefix.mpr hp] at this
  simp at this

theorem find_none {lhs rhs : Str} {pos : ℕ} (h : find lhs rhs pos = none) (hpos : pos ≤ lhs.length) :
    ¬ rhs <:+: lhs.drop pos := by
  unfold find at h
  rw [List.find?_range'_eq_none] at h
  rintro ⟨a, b, he⟩
  have hlen := congrArg List.length he
  simp only [List.length_append, List.length_drop] at hlen
  have hno := h (pos + a.length) (by omega) (by omega)
  have hpre : rhs <+: lhs.drop (pos + a.length) := by
    rw [← List.drop_drop, ← he]
    simp
  rw [List.isPrefixOf_iff_prefix.mpr hpre] at hno
  simp at hno

/-! ### Without an empty delimiter -/

/-- One round of the loop takes the first piece of what is left. -/
theorem first_of_find {lhs rhs : Str} {pos i : ℕ} (h : find lhs rhs pos = some i) :
    lhs.drop pos = substr lhs pos (i - pos) ++ rhs ++ lhs.drop (i + rhs.length) ∧
      First rhs (substr lhs pos (i - pos)) := by
  obtain ⟨hle, hlen, hpre, hbefore⟩ := find_some h
  obtain ⟨t, ht⟩ := hpre
  have hdrop : lhs.drop (i + rhs.length) = t := by
    rw [← List.drop_drop, ← ht]
    simp
  have hcut : lhs.drop pos = substr lhs pos (i - pos) ++ (rhs ++ t) := by
    have hi : lhs.drop i = (lhs.drop pos).drop (i - pos) := by
      rw [List.drop_drop]
      congr 1
      omega
    rw [ht, hi]
    exact (List.take_append_drop _ _).symm
  refine ⟨by rw [hdrop, hcut, List.append_assoc], first_of_drop (t := t) fun j hj => ?_⟩
  have hjlt : j < i - pos := lt_of_lt_of_le hj (List.length_take_le _ _)
  rw [← hcut, List.drop_drop]
  exact hbefore (pos + j) (by omega) (by omega)

theorem split_returns {lhs rhs : Str} (hrhs : rhs ≠ []) : ∀ (m last : ℕ) (arr : List Str),
    last ≤ lhs.length → lhs.length - last ≤ m →
    ∃ l, Pieces rhs (lhs.drop last) l ∧ Returns (fun n => split lhs rhs n last arr) (arr ++ l) := by
  intro m
  induction m with
  | zero =>
    intro last arr hlast hm
    have hnil : lhs.drop last = [] := List.drop_eq_nil_of_le (by omega)
    have hnone : find lhs rhs last = none := by
      cases hf : find lhs rhs last with
      | none => rfl
      | some i =>
        obtain ⟨h1, h2, h3, -⟩ := find_some hf
        rw [List.drop_eq_nil_of_le (by omega)] at h3
        exact absurd (List.prefix_nil.mp h3) hrhs
    refine ⟨[lhs.drop last], .last (find_none hnone hlast), ?_⟩
    exact Returns.of_succ (g := fun _ => some (arr ++ [lhs.drop last]))
      (fun n => by rw [split, hnone]) (Returns.pure _)
  | succ m ih =>
    intro last arr hlast hm
    cases hf : find lhs rhs last with
    | none =>
      refine ⟨[lhs.drop last], .last (find_none hf hlast), ?_⟩
      exact Returns.of_succ (g := fun _ => some (arr ++ [lhs.drop last]))
        (fun n => by rw [split, hf]) (Returns.pure _)
    | some i =>
      obtain ⟨h1, h2, h3, -⟩ := find_some hf
      obtain ⟨hcut, hfirst⟩ := first_of_find hf
      have hlen := h3.length_le
      rw [List.length_drop] at hlen
      have hpos : 0 < rhs.length := List.length_pos_iff.mpr hrhs
      obtain ⟨l, hl, hret⟩ := ih (i + rhs.length) (arr ++ [substr lhs last (i - last)])
        (by omega) (by omega)
      refine ⟨substr lhs last (i - last) :: l, ?_, ?_⟩
      · rw [hcut]
        exact .cut hfirst hl
      · rw [List.append_assoc] at hret
        exact Returns.of_succ (fun n => by rw [split, hf]) hret

/-- **The loop returns the pieces.** -/
theorem calculate_returns (lhs : Str) {rhs : Str} (hrhs : rhs ≠ []) :
    ∃ l, Pieces rhs lhs l ∧ Returns (calculate lhs rhs) l := by
  obtain ⟨l, hl, hret⟩ : ∃ l, Pieces rhs (lhs.drop 0) l ∧
      Returns (fun n => split lhs rhs n 0 []) ([] ++ l) :=
    split_returns hrhs lhs.length 0 [] (Nat.zero_le _) (Nat.sub_le _ _)
  exact ⟨l, by simpa using hl, hret⟩

/-! ### With an empty delimiter -/

theorem find_nil {lhs : Str} {pos : ℕ} (h : pos ≤ lhs.length) : find lhs [] pos = some pos := by
  unfold find
  rw [List.find?_range'_eq_some]
  refine ⟨rfl, List.mem_range'.mpr ⟨0, by omega, by omega⟩, fun j hj hlt => ?_⟩
  omega

theorem split_nil {lhs : Str} : ∀ (n : ℕ) {last : ℕ} (arr : List Str), last ≤ lhs.length →
    split lhs [] n last arr = none
  | 0, _, _, _ => rfl
  | n + 1, last, arr, h => by
    rw [split, find_nil h]
    exact split_nil n _ h

/-- **The loop does not end.** -/
theorem calculate_nil (lhs : Str) (n : ℕ) : calculate lhs [] n = none :=
  split_nil n [] (Nat.zero_le _)

/-! ### What is returned -/

/-- **What the pieces should be.** -/
structure Splits (s d : Str) (arr : List Str) : Prop where
  join : d.intercalate arr = s
  apart : ∀ x ∈ arr, ¬ d <:+: x
  length : arr.length = occurrences d 0 s + 1

variable (F) in
/-- `SPLIT` returns an array of strings, for a delimiter that is not empty the right ones. -/
def SplitsWell (s d : Str) : Prop :=
  ∃ arr, Returns (getAtomValue (some (.string s)) (some (.string d)))
    (.array (arr.map .string) : RJValue F) ∧ (d ≠ [] → Splits s d arr)

/-- **The condition**: the delimiter is not empty up to its first zero byte, and the zero bytes do not
matter: there are none, or nothing is cut, or only the delimiter at the end is. -/
def ReadsWell (s d : Str) : Prop :=
  cString d ≠ [] ∧
    (cString s = s ∧ (cString d = d ∨ ¬ cString d <:+: s) ∨
      ∃ p, s = p ++ d ∧ cString s = p ++ cString d ∧ First (cString d) p)

theorem splits_of_pieces {s d : Str} {l : List Str} (h : Pieces d s l) (hd : d ≠ []) :
    Splits s d l := ⟨h.join, h.not_infix hd, h.length_eq hd⟩

theorem splits_iff {s d : Str} {l : List Str} (hd : cString d ≠ [])
    (h : Pieces (cString d) (cString s) l) : Splits s d l ↔ ReadsWell s d := by
  have hne : d ≠ [] := by
    rintro rfl
    exact hd rfl
  constructor
  · intro hs
    refine ⟨hd, ?_⟩
    rcases cString_cases d with hc | ⟨w, hw⟩
    · rw [hc] at h
      exact Or.inl ⟨h.join.symm.trans hs.join, Or.inl hc⟩
    · have hjoin := hs.join
      obtain ⟨v, hv⟩ : ∃ v, cString s = v := ⟨_, rfl⟩
      rw [hv] at h
      cases h with
      | last hno =>
        have he : v = s := by simpa [List.intercalate] using hjoin
        exact Or.inl ⟨hv.trans he, Or.inr (he ▸ hno)⟩
      | @cut p t l hp ht =>
        -- the zero byte of the delimiter ends the C string of `s`
        rw [intercalate_cons _ _ ht.ne_nil] at hjoin
        have hzero : (0 : UInt8) ∉ p ++ cString d := fun hc => by
          refine zero_not_mem_cString s ?_
          rw [hv]
          exact List.mem_append_left t hc
        have hs' : s = (p ++ cString d) ++ 0 :: (w ++ d.intercalate l) := by
          rw [← hjoin]
          nth_rewrite 1 [hw]
          simp
        have hcs : cString s = p ++ cString d := by
          rw [hs', cString_append hzero]
          simp [cString]
        have ht0 : t = [] := by
          rw [hcs] at hv
          have hlen := congrArg List.length hv
          simp only [List.length_append] at hlen
          exact List.length_eq_zero_iff.mp (by omega)
        rw [ht0] at ht
        rw [ht.nil_eq hd] at hjoin
        exact Or.inr ⟨p, by simpa [List.intercalate] using hjoin.symm, hcs, hp⟩
  · rintro ⟨-, ⟨hs, hor⟩ | ⟨p, hs, hcs, hp⟩⟩
    · rw [hs] at h
      rcases hor with hc | hno
      · rw [hc] at h
        exact splits_of_pieces h hne
      · obtain rfl : l = [s] := h.unique (.last hno)
        have hno' : ¬ d <:+: s := fun hin => hno ((cString_initial d).isInfix.trans hin)
        exact splits_of_pieces (.last hno') hne
    · have hnil : ∀ {e : Str}, e ≠ [] → Pieces e [] [[]] := fun he =>
        .last fun hin => he (List.infix_nil.mp hin)
      have hcut : Pieces (cString d) (cString s) [p, []] := by
        rw [hcs]
        simpa using Pieces.cut hp (hnil hd)
      obtain rfl : l = [p, []] := h.unique hcut
      have hcut' : Pieces d s [p, []] := by
        rw [hs]
        simpa using Pieces.cut (hp.mono (cString_initial d)) (hnil hne)
      exact splits_of_pieces hcut' hne

theorem array_strings_injective {l l' : List Str}
    (h : (.array (l.map .string) : RJValue F) = .array (l'.map .string)) : l = l' := by
  rw [RJValue.array.injEq] at h
  exact List.map_injective_iff.mpr (fun a b hab => RJValue.string.inj hab) h

/-- **SPLIT is right exactly for such texts.** -/
theorem splitsWell_iff (s d : Str) : SplitsWell F s d ↔ ReadsWell s d := by
  have hval : getAtomValue (some (.string s)) (some (.string d)) = fun fuel =>
      (calculate (cString s) (cString d) fuel).map fun arr =>
        (.array (arr.map .string) : RJValue F) := rfl
  by_cases hd : cString d = []
  · refine iff_of_false ?_ fun h => h.1 hd
    rintro ⟨arr, hret, -⟩
    refine not_returns_of_none (fun n => ?_) _ hret
    rw [hval, hd]
    simp only [calculate_nil, Option.map_none]
  · obtain ⟨l, hl, hret⟩ := calculate_returns (cString s) hd
    have hret' : Returns (getAtomValue (some (.string s)) (some (.string d)))
        (.array (l.map .string) : RJValue F) := by
      rw [hval]
      exact hret.map _
    have hne : d ≠ [] := by
      rintro rfl
      exact hd rfl
    rw [← splits_iff hd hl]
    constructor
    · rintro ⟨arr, harr, hs⟩
      rw [array_strings_injective (hret'.unique harr)]
      exact hs hne
    · exact fun hs => ⟨l, hret', fun _ => hs⟩

/-- `SPLIT('a', '')` never ends. -/
theorem not_splitsWell_empty : ¬ ∀ s d : Str, SplitsWell Float s d := by
  intro h
  obtain ⟨arr, hret, -⟩ := h (ascii "a") []
  exact not_returns_of_none (fun n => by
    show (calculate (cString (ascii "a")) [] n).map _ = none
    rw [calculate_nil, Option.map_none]) _ hret

end Joda.Values.SplitString
