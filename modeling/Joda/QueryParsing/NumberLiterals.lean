import Joda.QueryParsing.LiteralTexts
import Joda.Values.Doubles

/-! # Integer literals denote themselves

An integer literal is read by `std::stol`, then `std::stoul`, then `std::stod`. The second one takes a
minus sign and wraps around, so a literal below the `int64_t` numbers becomes a positive constant as
long as its digits fit in 64 bits (`stoul_wraps`); all other literals denote themselves. -/

namespace Joda.QueryParsing.NumberLiterals

open Joda.Lib.Peg Joda.Lib.Rounding Joda.Values.Value Joda.Values.Provider Joda.Values.Doubles
open Joda.QueryParsing.Literals Joda.QueryParsing.LiteralTexts
open Joda.Values.Pointer (isDigit digits)

variable {D F : Type}

/-! ### Literals -/

/-- **An integer literal**: what the rule of the integers reads, where that of the doubles does not
match. -/
structure IntLiteral (text r : Str) : Prop where
  notFloat : floatText (text ++ r) = .fail
  int : intText (text ++ r) = .ok () r

theorem of_sign {s t : Str} {o : Option UInt8} (h : sign s = .ok o t) :
    ∃ sg, IsSign sg ∧ s = sg ++ t := by
  rcases of_opt h with ⟨c, hc, -⟩ | ⟨-, rfl⟩
  · obtain ⟨rfl, hmem⟩ := of_one hc
    have hsigns : ascii "+-" = [43, 45] := by decide
    rw [hsigns] at hmem
    rcases List.mem_cons.mp hmem with rfl | hmem
    · exact ⟨[43], Or.inr (Or.inl rfl), rfl⟩
    · obtain rfl := List.mem_singleton.mp hmem
      exact ⟨[45], Or.inr (Or.inr rfl), rfl⟩
  · exact ⟨[], Or.inl rfl, rfl⟩

theorem of_digits {s r ds : Str} (h : plus digit s = .ok ds r) : IsDigits ds ∧ s = ds ++ r := by
  obtain ⟨c, t, hc, hrest⟩ := of_andThen h
  obtain ⟨rfl, hd⟩ := of_sat hc
  obtain ⟨ds', hstar, rfl⟩ := of_act hrest
  unfold digit at hstar
  rw [star_sat] at hstar
  simp only [Result.ok.injEq] at hstar
  obtain ⟨rfl, rfl⟩ := hstar
  refine ⟨⟨by simp, List.forall_mem_cons.mpr ⟨hd, fun d hmem => ?_⟩⟩, ?_⟩
  · exact List.mem_takeWhile_imp hmem
  · rw [List.cons_append, List.takeWhile_append_dropWhile]

/-- A literal is a sign and digits. -/
theorem IntLiteral.parts {text r : Str} (h : IntLiteral text r) :
    ∃ sg ds, IsSign sg ∧ IsDigits ds ∧ text = sg ++ ds := by
  obtain ⟨⟨o, ds⟩, hseq, -⟩ := of_act h.int
  obtain ⟨t, hsign, hplus⟩ := of_seq hseq
  obtain ⟨sg, hsg, htext⟩ := of_sign hsign
  obtain ⟨hds, rfl⟩ := of_digits hplus
  refine ⟨sg, ds, hsg, hds, ?_⟩
  rw [← List.append_assoc] at htext
  exact List.append_cancel_right htext

/-- A literal begins with a sign or a digit. -/
theorem IntLiteral.head {text r : Str} (h : IntLiteral text r) {c : UInt8}
    (hc : (text ++ r).head? = some c) : c = 43 ∨ c = 45 ∨ isDigit c = true := by
  obtain ⟨sg, ds, hsg, ⟨hne, hds⟩, rfl⟩ := h.parts
  rcases hsg with rfl | rfl | rfl
  · cases ds with
    | nil => exact absurd rfl hne
    | cons d ds =>
      obtain rfl : d = c := Option.some.inj hc
      exact Or.inr (Or.inr (hds d List.mem_cons_self))
  · exact Or.inl (Option.some.inj hc).symm
  · exact Or.inr (Or.inl (Option.some.inj hc).symm)

/-- The text of an integer, where an expression may end. -/
theorem intLiteral_toString (z : ℤ) {r : Str} (hr : Ends r) :
    IntLiteral (ascii (ToString.toString z)) r ∧ readInt (ascii (ToString.toString z)) = z := by
  obtain ⟨sg, ds, htext, hsg, hds, hz⟩ := int_text z
  refine ⟨⟨?_, ?_⟩, hz⟩
  · rw [htext, List.append_assoc]
    exact floatText_fail hsg hds hr
  · rw [htext, List.append_assoc]
    exact intText_ok hsg hds hr.not_digit

section Parse

variable [DoubleText F]

/-- **A literal is read as what `intAtom` makes of it**; where that is nothing, the expression does not
match. -/
theorem varExp_literal {text r : Str} (h : IntLiteral text r) :
    (varExp (text ++ r) : Result UInt8 (IValueProvider D F)) =
      match intAtom text with
      | some a => .ok (.atom a) r
      | none => .fail := by
  have hfloat : (floatNumber (text ++ r) : Result UInt8 (IValueProvider D F)) = .fail :=
    actIf_fail (matched_fail h.notFloat)
  have hint := matched_ok h.int
  cases ha : intAtom (F := F) text with
  | some a => exact sor_left ((sor_right hfloat).trans (actIf_ok hint (by rw [ha]; rfl)))
  | none =>
    have hnumber : (numberAtom (text ++ r) : Result UInt8 (IValueProvider D F)) = .fail := by
      refine (sor_right hfloat).trans ((andThen_ok hint).trans ?_)
      have hrefused : (intAtom text).map (IValueProvider.atom : Atom F → IValueProvider D F) = none := by
        rw [ha]
        rfl
      simp only [hrefused]
    have hother : ∀ c, (text ++ r).head? = some c → c ≠ 34 ∧ c ≠ 39 ∧ c ≠ 116 ∧ c ≠ 102 ∧
        c ≠ 110 ∧ c ≠ 78 := fun c hc => by
      rcases h.head hc with rfl | rfl | hd
      · decide
      · decide
      · refine ⟨?_, ?_, ?_, ?_, ?_, ?_⟩ <;> rintro rfl <;> exact absurd hd (by decide)
    have hkey : ∀ (word : Str) (w : UInt8), word.head? = some w →
        (∀ c, (text ++ r).head? = some c → c ≠ w) → keyword word (text ++ r) = .fail :=
      fun word w hw hne => keyword_fail_head
        (fun c hc heq => hne c hc (Option.some.inj (heq.symm.trans hw)))
        (fun h0 => by rw [h0] at hw; simp at hw)
    have htrue := hkey (ascii "true") 116 (by decide) fun c hc => (hother c hc).2.2.1
    have hfalse := hkey (ascii "false") 102 (by decide) fun c hc => (hother c hc).2.2.2.1
    have hnull := hkey (ascii "null") 110 (by decide) fun c hc => (hother c hc).2.2.2.2.1
    have hNULL := hkey (ascii "NULL") 78 (by decide) fun c hc => (hother c hc).2.2.2.2.2
    unfold varExp
    rw [sor_right hnumber, sor_right (stringAtom_fail fun c hc => (hother c hc).1)]
    unfold boolAtom nullAtom
    rw [sor_right ((sor_right (act_fail _ htrue)).trans (act_fail _ hfalse)),
      sor_right (act_fail _ ((sor_right hnull).trans hNULL))]
    exact act_fail _ (matched_fail (ifMust_fail (one_fail fun c hc => by
      simpa [ascii] using (hother c hc).2.1)))

theorem intAtom_signed {text : Str} (h : -2 ^ 63 ≤ readInt text ∧ readInt text < 2 ^ 63) :
    intAtom text = some (.int64 (readInt text) : Atom F) := by
  unfold intAtom stol
  rw [if_pos h]

theorem intAtom_unsigned {text : Str} (h : ¬ (-2 ^ 63 ≤ readInt text ∧ readInt text < 2 ^ 63))
    (hfits : (readInt text).natAbs < 2 ^ 64) :
    intAtom text = some (.uint64 (readInt text % 2 ^ 64).toNat : Atom F) := by
  unfold intAtom stol stoul
  rw [if_neg h]
  dsimp only
  rw [if_pos hfits]

theorem intAtom_double {text : Str} (h : ¬ (-2 ^ 63 ≤ readInt text ∧ readInt text < 2 ^ 63))
    (hfits : ¬ (readInt text).natAbs < 2 ^ 64) :
    intAtom text = (DoubleText.stod text).map (.double : F → Atom F) := by
  unfold intAtom stol stoul
  rw [if_neg h]
  dsimp only
  rw [if_neg hfits]

/-- Below the `int64_t` numbers the constant is positive. -/
theorem stoul_wraps {text r : Str} (h : IntLiteral text r)
    (hz : -2 ^ 64 < readInt text ∧ readInt text < -2 ^ 63) :
    (varExp (text ++ r) : Result UInt8 (IValueProvider D F)) =
      .ok (.atom (.uint64 (readInt text + 2 ^ 64).toNat)) r := by
  have hmod : readInt text % 2 ^ 64 = readInt text + 2 ^ 64 := by omega
  rw [varExp_literal h, intAtom_unsigned (by omega) (by omega), hmod]

end Parse

/-! ### What the constants are -/

section Constants

variable [Double F]

/-- A constant that is the integer `z`, also in comparisons with other integers. -/
structure IsInteger (a : Atom F) (z : ℤ) : Prop where
  integer : a = .int64 z ∨ ∃ n : ℕ, a = .uint64 n ∧ (n : ℤ) = z
  value : a.getAtomValue = .number (.int z)
  equal : ∀ w : ℤ, -2 ^ 63 ≤ w ∧ w < 2 ^ 64 →
    RJValue.equal (some a.getAtomValue) (some (.number (.int w))) = some (decide (z = w))

/-- A double of the sign of `z`. -/
def SameSign (x : F) (z : ℤ) : Prop :=
  (0 < z → Double.less (Double.ofInt 0) x = true) ∧ (z < 0 → Double.less x (Double.ofInt 0) = true)

variable [Binary64 F]

theorem sameSign_of_value {x : F} {z : ℤ} (h : Binary64.value x = roundTo 53 z) : SameSign x z := by
  have hzero : Binary64.value (Double.ofInt 0 : F) = 0 := by
    rw [Binary64.value_ofInt 0 (by omega) (by omega), Int.cast_zero, roundTo_zero]
  constructor
  · intro hz
    have hpos : (0 : ℚ) < z := by exact_mod_cast hz
    rw [Binary64.less_iff, hzero, h]
    exact lt_of_lt_of_le (by linarith) (half_le_roundTo (by norm_num) hpos)
  · intro hz
    have hneg : (z : ℚ) < 0 := by exact_mod_cast hz
    rw [Binary64.less_iff, hzero, h]
    exact lt_of_le_of_lt (roundTo_le_half (by norm_num) hneg) (by linarith)

theorem isInteger_int64 {z : ℤ} (h : -2 ^ 63 ≤ z ∧ z < 2 ^ 63) : IsInteger (.int64 z : Atom F) z :=
  ⟨Or.inl rfl, rfl, fun _ hw => equal_int (by omega) hw⟩

theorem isInteger_uint64 {n : ℕ} (h : n < 2 ^ 64) : IsInteger (.uint64 n : Atom F) n :=
  ⟨Or.inr ⟨n, rfl, rfl⟩, rfl, fun _ hw => equal_int (by omega) hw⟩

end Constants

/-! ### Literals and their constants -/

section Denotes

variable [DoubleText F] [Double F]

/-- **The literal denotes itself**, given what the rule of the constants makes of it. -/
def Denotes (text r : Str) (result : Result UInt8 (IValueProvider D F)) : Prop :=
  if -2 ^ 63 ≤ readInt text ∧ readInt text < 2 ^ 64 then
    ∃ a : Atom F, result = .ok (.atom a) r ∧ IsInteger a (readInt text)
  else result = .fail ∨ ∃ x : F, result = .ok (.atom (.double x)) r ∧
    DoubleText.stod text = some x ∧ SameSign x (readInt text)

/-- What `std::stod` is taken to do on integer literals: the value is rounded to 53 bits, unless it
throws. -/
def StodRounds (F : Type) [DoubleText F] [Double F] [Binary64 F] : Prop :=
  ∀ (sg ds : Str) (x : F), IsSign sg → IsDigits ds → DoubleText.stod (sg ++ ds) = some x →
    Binary64.value x = roundTo 53 (readInt (sg ++ ds))

theorem not_denotes {text r : Str} (h : IntLiteral text r)
    (hz : -2 ^ 64 < readInt text ∧ readInt text < -2 ^ 63) :
    ¬ Denotes text r (varExp (text ++ r) : Result UInt8 (IValueProvider D F)) := by
  unfold Denotes
  rw [if_neg (by omega), stoul_wraps h hz]
  rintro (hfail | ⟨x, hx, -⟩)
  · cases hfail
  · cases hx

variable [Binary64 F]

theorem denotes (hstod : StodRounds F) {text r : Str} (h : IntLiteral text r)
    (hz : ¬ (-2 ^ 64 < readInt text ∧ readInt text < -2 ^ 63)) :
    Denotes text r (varExp (text ++ r) : Result UInt8 (IValueProvider D F)) := by
  unfold Denotes
  rw [varExp_literal h]
  by_cases hsigned : -2 ^ 63 ≤ readInt text ∧ readInt text < 2 ^ 63
  · rw [if_pos (by omega), intAtom_signed hsigned]
    exact ⟨_, rfl, isInteger_int64 hsigned⟩
  by_cases hfits : (readInt text).natAbs < 2 ^ 64
  · obtain ⟨n, hn⟩ : ∃ n : ℕ, readInt text = n := ⟨(readInt text).toNat, by omega⟩
    have hmod : (readInt text % 2 ^ 64).toNat = n := by omega
    rw [if_pos (by omega), intAtom_unsigned hsigned hfits, hmod, hn]
    exact ⟨_, rfl, isInteger_uint64 (by omega)⟩
  · rw [if_neg (by omega), intAtom_double hsigned hfits]
    cases hx : DoubleText.stod (F := F) text with
    | none => exact Or.inl rfl
    | some x =>
      obtain ⟨sg, ds, hsg, hds, rfl⟩ := h.parts
      exact Or.inr ⟨x, rfl, rfl, sameSign_of_value (hstod sg ds x hsg hds hx)⟩

/-- **Integer literals denote themselves**, except between `-2 ^ 64` and `-2 ^ 63`: exactly if the
conversion to `u_int64_t` does not wrap around. -/
theorem literal_denotes_iff (hstod : StodRounds F) {text r : Str} (h : IntLiteral text r) :
    Denotes text r (varExp (text ++ r) : Result UInt8 (IValueProvider D F)) ↔
      ¬ (-2 ^ 64 < readInt text ∧ readInt text < -2 ^ 63) :=
  ⟨fun hd hz => not_denotes h hz hd, denotes hstod h⟩

end Denotes

/-- `std::stod` on the text of an integer: a value from `2 ^ 1024` on is out of range. -/
instance : DoubleText Rounded where
  stod text :=
    if |roundTo 53 (readInt text)| < 2 ^ 1024 then some ⟨roundTo 53 (readInt text)⟩ else none

theorem stodRounds : StodRounds Rounded := by
  intro sg ds x _ _ h
  simp only [DoubleText.stod, Option.ite_none_right_eq_some, Option.some.injEq] at h
  obtain ⟨-, rfl⟩ := h
  rfl

theorem literal_denotes_iff_huge :
    Denotes (ascii (ToString.toString (-100000000000000000000 : ℤ))) []
      (varExp (ascii (ToString.toString (-100000000000000000000 : ℤ)) ++ []) :
        Result UInt8 (IValueProvider (FlatDocument Rounded) Rounded)) ↔
      ¬ (-2 ^ 64 < readInt (ascii (ToString.toString (-100000000000000000000 : ℤ))) ∧
        readInt (ascii (ToString.toString (-100000000000000000000 : ℤ))) < -2 ^ 63) :=
  literal_denotes_iff stodRounds (intLiteral_toString _ fun _ hc => by cases hc).1

/-- `-9223372036854775809` becomes `9223372036854775807`. -/
theorem not_denotes_below_int64 :
    ¬ Denotes (ascii (ToString.toString (-9223372036854775809 : ℤ))) []
      (varExp (ascii (ToString.toString (-9223372036854775809 : ℤ)) ++ []) :
        Result UInt8 (IValueProvider (FlatDocument Rounded) Rounded)) := by
  obtain ⟨hlit, hz⟩ := intLiteral_toString (-9223372036854775809) (r := []) fun _ hc => by cases hc
  exact not_denotes hlit (by rw [hz]; omega)

end Joda.QueryParsing.NumberLiterals
