import Joda.QueryParsing.Literals

/-! # Texts of literals

Where the rules of the literals match: characters, the digits of numbers with their signs, keywords and
quoted strings. An integer is read back from its text. -/

namespace Joda.QueryParsing.LiteralTexts

open Joda.Lib.Peg Joda.Values.Value Joda.Values.Provider Joda.QueryParsing.Literals
open Joda.Values.Pointer (isDigit digits toNat_digit isDigit_ascii digits_toString)

/-! ### Characters -/

theorem one_ok {cs : String} {c : UInt8} {s : Str} (h : c ∈ ascii cs) :
    one cs (c :: s) = .ok c s := sat_ok (by simpa using h)

theorem one_fail {cs : String} {s : Str} (h : ∀ c, s.head? = some c → c ∉ ascii cs) :
    one cs s = .fail := sat_fail fun c hc => by simpa using h c hc

theorem of_one {cs : String} {c : UInt8} {s r : Str} (h : one cs s = .ok c r) :
    s = c :: r ∧ c ∈ ascii cs := by
  obtain ⟨hs, hc⟩ := of_sat h
  exact ⟨hs, by simpa using hc⟩

theorem seq_one_fail {α : Type} {cs : String} {q : Rule UInt8 α} {s : Str}
    (h : ∀ c, s.head? = some c → c ∉ ascii cs) : seq (one cs) q s = .fail := seq_fail (one_fail h)

/-! ### Numbers -/

/-- What comes after a value in a text. -/
def Ends (r : Str) : Prop := ∀ c, r.head? = some c → c = 32 ∨ c = 41 ∨ c = 44

theorem Ends.not_digit {r : Str} (h : Ends r) (c : UInt8) (hc : r.head? = some c) :
    isDigit c = false := by
  rcases h c hc with rfl | rfl | rfl <;> decide

def IsSign (sg : Str) : Prop := sg = [] ∨ sg = [43] ∨ sg = [45]

def IsDigits (ds : Str) : Prop := ds ≠ [] ∧ ∀ c ∈ ds, isDigit c = true

theorem not_sign_of_digit {c : UInt8} (h : isDigit c = true) : c ≠ 43 ∧ c ≠ 45 := by
  constructor <;> rintro rfl <;> exact absurd h (by decide)

theorem sign_ok {sg ds r : Str} (hsg : IsSign sg) (hds : IsDigits ds) :
    ∃ o, sign (sg ++ (ds ++ r)) = .ok o (ds ++ r) := by
  rcases hsg with rfl | rfl | rfl
  · refine ⟨none, opt_none (one_fail fun c hc => ?_)⟩
    obtain ⟨hne, hds⟩ := hds
    cases ds with
    | nil => exact absurd rfl hne
    | cons d ds =>
      obtain rfl : d = c := Option.some.inj hc
      have := not_sign_of_digit (hds d List.mem_cons_self)
      simpa [ascii] using this
  · exact ⟨some 43, opt_some (one_ok (by decide))⟩
  · exact ⟨some 45, opt_some (one_ok (by decide))⟩

theorem signed_ok {sg ds r : Str} (hsg : IsSign sg) (hds : IsDigits ds)
    (hr : ∀ c, r.head? = some c → isDigit c = false) :
    ∃ x, seq sign (plus digit) (sg ++ (ds ++ r)) = .ok x r := by
  obtain ⟨o, ho⟩ := sign_ok (r := r) hsg hds
  exact ⟨(o, ds), seq_ok ho (plus_run hds.1 hds.2 hr)⟩

theorem intText_ok {sg ds r : Str} (hsg : IsSign sg) (hds : IsDigits ds)
    (hr : ∀ c, r.head? = some c → isDigit c = false) : intText (sg ++ (ds ++ r)) = .ok () r := by
  obtain ⟨x, hx⟩ := signed_ok hsg hds hr
  exact act_ok _ hx

theorem floatText_fail {sg ds r : Str} (hsg : IsSign sg) (hds : IsDigits ds) (hr : Ends r) :
    floatText (sg ++ (ds ++ r)) = .fail := by
  obtain ⟨x, hx⟩ := signed_ok hsg hds hr.not_digit
  refine act_fail _ (seq_fail_right hx (seq_one_fail fun c hc => ?_))
  rcases hr c hc with rfl | rfl | rfl <;> decide

theorem ascii_append (s t : String) : ascii (s ++ t) = ascii s ++ ascii t := by simp [ascii]

theorem isDigits_toString (n : ℕ) : IsDigits (ascii (ToString.toString n)) := by
  have he : (ToString.toString n).toList = Nat.toDigits 10 n := by
    rw [Nat.toString_eq_repr, Nat.toList_repr]
  unfold ascii
  rw [he]
  refine ⟨by simp [Nat.toDigits_ne_nil], fun c hc => ?_⟩
  obtain ⟨d, hd, rfl⟩ := List.mem_map.mp hc
  exact isDigit_ascii (Nat.isDigit_of_mem_toDigits (by omega) (by omega) hd)

theorem readInt_digits {ds : Str} (h : IsDigits ds) : readInt ds = digits ds := by
  obtain ⟨hne, h⟩ := h
  cases ds with
  | nil => exact absurd rfl hne
  | cons c ds =>
    have hc := not_sign_of_digit (h c List.mem_cons_self)
    unfold readInt
    split
    · rename_i heq
      exact absurd (List.cons.inj heq).1 hc.2
    · rename_i heq
      exact absurd (List.cons.inj heq).1 hc.1
    · rfl

/-- The text of an integer. -/
theorem int_text (z : ℤ) : ∃ sg ds, ascii (ToString.toString z) = sg ++ ds ∧ IsSign sg ∧
    IsDigits ds ∧ readInt (ascii (ToString.toString z)) = z := by
  cases z with
  | ofNat n =>
    have hn : ToString.toString (Int.ofNat n) = ToString.toString n := rfl
    rw [hn]
    refine ⟨[], _, rfl, Or.inl rfl, isDigits_toString n, ?_⟩
    rw [readInt_digits (isDigits_toString n), digits_toString]
    rfl
  | negSucc n =>
    have hn : ToString.toString (Int.negSucc n) = "-" ++ ToString.toString (n + 1) := rfl
    rw [hn, ascii_append]
    refine ⟨ascii "-", _, rfl, Or.inr (Or.inr (by decide)), isDigits_toString (n + 1), ?_⟩
    have hm : ascii "-" = [45] := by decide
    rw [hm, List.singleton_append, readInt, digits_toString]
    omega

/-! ### Keywords and strings -/

theorem keyword_fail_head {word s : Str} (h : ∀ c, s.head? = some c → word.head? ≠ some c)
    (hne : word ≠ []) : keyword word s = .fail := by
  refine thenLeft_fail (string_fail ?_)
  cases word with
  | nil => exact absurd rfl hne
  | cons d word =>
    cases s with
    | nil => rfl
    | cons c s =>
      have := h c rfl
      have hdc : d ≠ c := fun he => this (by rw [he]; rfl)
      simp [List.isPrefixOf, hdc]

theorem stringAtom_fail {D F : Type} {s : Str} (h : ∀ c, s.head? = some c → c ≠ 34) :
    (stringAtom s : Result UInt8 (IValueProvider D F)) = .fail :=
  act_fail _ (matched_fail (ifMust_fail (one_fail fun c hc => by simpa [ascii] using h c hc)))

end Joda.QueryParsing.LiteralTexts
