import Joda.Values.Provider
import Mathlib.Tactic.Ring
import Mathlib.Tactic.Linarith

/-! # Arithmetic on stored numbers

RapidJSON stores an integer as 64 bits with flags that say as which types they may be read; the flags
depend on the value only, not on the type it was given in. `BinaryNumberProvider` computes with
`uint64_t` if both operands may be read as such, else with `int64_t`, else with doubles. The operations
on `int64_t` are undefined where they overflow. -/

namespace Joda.Values.Arithmetic

open Joda.Values.Value Joda.Values.Provider

variable {F : Type} [Double F]

/-! ### Numbers as they are stored -/

/-- A number with the type it is given in. -/
inductive JsonNumber (F : Type) where
  | int64 (i : Int64)
  | uint64 (u : UInt64)
  | double (x : F)

/-- The integer that is meant. -/
def JsonNumber.intValue : JsonNumber F → Option ℤ
  | int64 i => some i.toInt
  | uint64 u => some u.toNat
  | double _ => none

/-- A numeric `RJValue`: the bits of an integer and its flags, or a double. -/
inductive RJNumber (F : Type) where
  | int (bits : BitVec 64) (int64Flag uint64Flag : Bool)
  | double (x : F)

namespace RJNumber

def ofInt64 (i : Int64) : RJNumber F := .int i.toBitVec true (decide (0 ≤ i.toInt))

def ofUint64 (u : UInt64) : RJNumber F := .int u.toBitVec (decide (u.toNat < 2 ^ 63)) true

def isInt64 : RJNumber F → Bool
  | int _ int64Flag _ => int64Flag
  | double _ => false

def isUint64 : RJNumber F → Bool
  | int _ _ uint64Flag => uint64Flag
  | double _ => false

def getInt64 : RJNumber F → Int64
  | int bits _ _ => .ofBitVec bits
  | double _ => 0

def getUint64 : RJNumber F → UInt64
  | int bits _ _ => .ofBitVec bits
  | double _ => 0

def getDouble : RJNumber F → F
  | int bits true _ => Double.ofInt bits.toInt
  | int bits false _ => Double.ofInt bits.toNat
  | double x => x

/-- The integer that is read, if it is one. -/
def intValue : RJNumber F → Option ℤ
  | int bits true _ => some bits.toInt
  | int bits false true => some bits.toNat
  | int _ false false => none
  | double _ => none

/-- An integer as it is stored. -/
def stored (z : ℤ) : RJNumber F :=
  if 0 ≤ z then ofUint64 (.ofNat z.toNat) else ofInt64 (.ofInt z)

/-- A number of the model of values. -/
def ofNumber : Number F → RJNumber F
  | .int z => stored z
  | .double x => .double x

end RJNumber

def JsonNumber.store : JsonNumber F → RJNumber F
  | int64 i => .ofInt64 i
  | uint64 u => .ofUint64 u
  | double x => .double x

/-! ### The operations -/

/-- What an operation on `int64_t` or `uint64_t` must not run into. -/
inductive Fault where
  | signedOverflow | divisionByZero | overflowingDivision
  deriving DecidableEq, Repr

/-- A sum, difference or product on `int64_t`. -/
def checked (z : ℤ) : Except Fault Int64 :=
  if -2 ^ 63 ≤ z ∧ z < 2 ^ 63 then .ok (.ofInt z) else .error .signedOverflow

def divInt64 (lhs rhs : Int64) : Except Fault Int64 :=
  if rhs = 0 then .error .divisionByZero
  else if lhs = .minValue ∧ rhs = -1 then .error .overflowingDivision
  else .ok (lhs / rhs)

/-- The remainder is undefined where the quotient is. -/
def modInt64 (lhs rhs : Int64) : Except Fault Int64 :=
  if rhs = 0 then .error .divisionByZero
  else if lhs = .minValue ∧ rhs = -1 then .error .overflowingDivision
  else .ok (lhs % rhs)

def divUint64 (lhs rhs : UInt64) : Except Fault UInt64 :=
  if rhs = 0 then .error .divisionByZero else .ok (lhs / rhs)

def modUint64 (lhs rhs : UInt64) : Except Fault UInt64 :=
  if rhs = 0 then .error .divisionByZero else .ok (lhs % rhs)

/-- What a calculation returns: a number, null, or nothing because of a fault. -/
abbrev Calculated (F : Type) := Except Fault (Option (RJNumber F))

def calculateDouble (op : NumberCalc) (lhs rhs : F) : Calculated F :=
  .ok ((op.calculateDouble lhs rhs).map RJNumber.ofNumber)

/-- `calculate` on `u_int64_t`. -/
def calculateUint64 (op : NumberCalc) (lhs rhs : UInt64) : Calculated F :=
  match op with
  | .sum => .ok (some (.ofUint64 (lhs + rhs)))
  | .sub =>
    if lhs < rhs then .ok (some (.ofInt64 (.ofBitVec (lhs - rhs).toBitVec)))
    else .ok (some (.ofUint64 (lhs - rhs)))
  | .div => if rhs = 0 then .ok none else (divUint64 lhs rhs).map fun u => some (.ofUint64 u)
  | .prod => .ok (some (.ofUint64 (lhs * rhs)))
  | .mod => if rhs = 0 then .ok none else (modUint64 lhs rhs).map fun u => some (.ofUint64 u)
  | .pow => calculateDouble .pow (Double.ofInt lhs.toNat) (Double.ofInt rhs.toNat)
  | .atan2 => calculateDouble .atan2 (Double.ofInt lhs.toNat) (Double.ofInt rhs.toNat)

/-- `calculate` on `int64_t`. -/
def calculateInt64 (op : NumberCalc) (lhs rhs : Int64) : Calculated F :=
  match op with
  | .sum => (checked (lhs.toInt + rhs.toInt)).map fun i => some (.ofInt64 i)
  | .sub => (checked (lhs.toInt - rhs.toInt)).map fun i => some (.ofInt64 i)
  | .div => if rhs = 0 then .ok none else (divInt64 lhs rhs).map fun i => some (.ofInt64 i)
  | .prod => (checked (lhs.toInt * rhs.toInt)).map fun i => some (.ofInt64 i)
  | .mod => if rhs = 0 then .ok none else (modInt64 lhs rhs).map fun i => some (.ofInt64 i)
  | .pow => calculateDouble .pow (Double.ofInt lhs.toInt) (Double.ofInt rhs.toInt)
  | .atan2 => calculateDouble .atan2 (Double.ofInt lhs.toInt) (Double.ofInt rhs.toInt)

/-- **`BinaryNumberProvider::getAtomValue`** on two numbers. -/
def calculate (op : NumberCalc) (lhs rhs : RJNumber F) : Calculated F :=
  if lhs.isUint64 && rhs.isUint64 then calculateUint64 op lhs.getUint64 rhs.getUint64
  else if lhs.isInt64 && rhs.isInt64 then calculateInt64 op lhs.getInt64 rhs.getInt64
  else calculateDouble op lhs.getDouble rhs.getDouble

/-- `std::abs` on `int64_t`. -/
def absInt64 (val : Int64) : Except Fault Int64 :=
  if val = .minValue then .error .signedOverflow
  else .ok (if val.toInt < 0 then -val else val)

/-- **`UnaryNumberProvider::getAtomValue`** of `ABS`; `std::abs` on doubles is a parameter. -/
def calculateAbs (fabs : F → F) (val : RJNumber F) : Calculated F :=
  if val.isUint64 then .ok (some (.ofUint64 val.getUint64))
  else if val.isInt64 then (absInt64 val.getInt64).map fun i => some (.ofInt64 i)
  else .ok (some (.double (fabs val.getDouble)))

/-! ### How integers are stored -/

def Signed (z : ℤ) : Prop := -2 ^ 63 ≤ z ∧ z < 2 ^ 63

def Unsigned (z : ℤ) : Prop := 0 ≤ z ∧ z < 2 ^ 64

def Representable (z : ℤ) : Prop := Signed z ∨ Unsigned z

instance : DecidablePred Signed := fun z => by unfold Signed; infer_instance

instance : DecidablePred Unsigned := fun z => by unfold Unsigned; infer_instance

instance : DecidablePred Representable := fun z => by unfold Representable; infer_instance

omit [Double F] in
/-- **The type an integer is given in does not matter.** -/
theorem store_eq {j : JsonNumber F} {z : ℤ} (h : j.intValue = some z) : j.store = .stored z := by
  cases j with
  | int64 i =>
    cases h
    show RJNumber.ofInt64 i = RJNumber.stored i.toInt
    unfold RJNumber.stored
    by_cases hi : 0 ≤ i.toInt
    · have hlt := i.toInt_lt
      have hn : (UInt64.ofNat i.toInt.toNat).toNat = i.toInt.toNat :=
        UInt64.toNat_ofNat_of_lt' (by show i.toInt.toNat < 2 ^ 64; omega)
      have hb : (UInt64.ofNat i.toInt.toNat).toBitVec = i.toBitVec := by
        apply BitVec.eq_of_toNat_eq
        rw [UInt64.toNat_toBitVec, hn]
        have hz : i.toInt = i.toBitVec.toInt := rfl
        have hc := BitVec.toInt_eq_toNat_cond i.toBitVec
        split_ifs at hc <;> omega
      unfold RJNumber.ofInt64 RJNumber.ofUint64
      rw [if_pos hi, hn, hb, decide_eq_true hi, decide_eq_true (by omega)]
    · rw [if_neg hi, Int64.ofInt_toInt]
  | uint64 u =>
    cases h
    show RJNumber.ofUint64 u = RJNumber.stored (u.toNat : ℤ)
    unfold RJNumber.stored
    rw [if_pos (Int.natCast_nonneg _), Int.toNat_natCast, UInt64.ofNat_toNat]
  | double x => cases h

omit [Double F] in
theorem representable_of_intValue {j : JsonNumber F} {z : ℤ} (h : j.intValue = some z) :
    Representable z := by
  cases j with
  | int64 i =>
    cases h
    exact Or.inl ⟨i.le_toInt, i.toInt_lt⟩
  | uint64 u =>
    cases h
    have := u.toNat_lt
    exact Or.inr ⟨by omega, by omega⟩
  | double x => cases h

section Stored

variable {z : ℤ}

omit [Double F]

theorem toNat_ofNat {z : ℤ} (h : Unsigned z) : ((UInt64.ofNat z.toNat).toNat : ℤ) = z := by
  obtain ⟨h0, h1⟩ := h
  rw [UInt64.toNat_ofNat_of_lt' (by show z.toNat < 2 ^ 64; omega)]
  omega

theorem toInt_ofInt {z : ℤ} (h : Signed z) : (Int64.ofInt z).toInt = z :=
  Int64.toInt_ofInt_of_le h.1 h.2

theorem stored_isUint64 (h : Representable z) :
    (.stored z : RJNumber F).isUint64 = decide (Unsigned z) := by
  unfold RJNumber.stored
  unfold Representable Signed Unsigned at h
  by_cases hz : 0 ≤ z
  · rw [if_pos hz, decide_eq_true (show Unsigned z from ⟨hz, by omega⟩)]
    rfl
  · rw [if_neg hz, decide_eq_false (show ¬ Unsigned z from fun h' => hz h'.1)]
    show decide (0 ≤ (Int64.ofInt z).toInt) = false
    rw [toInt_ofInt ⟨by omega, by omega⟩]
    exact decide_eq_false hz

theorem stored_isInt64 (h : Representable z) :
    (.stored z : RJNumber F).isInt64 = decide (Signed z) := by
  unfold RJNumber.stored
  unfold Representable Signed Unsigned at h
  by_cases hz : 0 ≤ z
  · rw [if_pos hz]
    have hn := toNat_ofNat (z := z) ⟨hz, by omega⟩
    refine decide_eq_decide.mpr ?_
    unfold Signed
    omega
  · rw [if_neg hz, decide_eq_true (show Signed z from ⟨by omega, by omega⟩)]
    rfl

theorem stored_getUint64 (h : Unsigned z) :
    (.stored z : RJNumber F).getUint64 = UInt64.ofNat z.toNat := by
  unfold RJNumber.stored
  rw [if_pos h.1]
  rfl

theorem stored_getInt64 (h : Signed z) : (.stored z : RJNumber F).getInt64 = Int64.ofInt z := by
  unfold RJNumber.stored
  by_cases hz : 0 ≤ z
  · obtain ⟨h0, h1⟩ := h
    have hn := toNat_ofNat (z := z) ⟨hz, by omega⟩
    rw [if_pos hz]
    apply Int64.toInt_inj.mp
    rw [toInt_ofInt ⟨h0, h1⟩]
    show ((UInt64.ofNat z.toNat).toBitVec).toInt = z
    rw [BitVec.toInt_eq_toNat_cond, UInt64.toNat_toBitVec]
    split_ifs <;> omega
  · rw [if_neg hz]
    rfl

theorem intValue_ofInt64 (i : Int64) : (RJNumber.ofInt64 i : RJNumber F).intValue = some i.toInt := rfl

theorem intValue_ofUint64 (u : UInt64) :
    (RJNumber.ofUint64 u : RJNumber F).intValue = some (u.toNat : ℤ) := by
  unfold RJNumber.ofUint64 RJNumber.intValue
  by_cases hu : u.toNat < 2 ^ 63
  · rw [decide_eq_true hu]
    show some u.toBitVec.toInt = _
    rw [BitVec.toInt_eq_toNat_cond, UInt64.toNat_toBitVec]
    rw [if_pos (by omega)]
  · rw [decide_eq_false hu]
    rfl

end Stored

/-! ### What the calculations return -/

/-- The mathematical result, if it is an integer; the remainder has the sign of the first operand.
`POW` and `ATAN2` are calculated on doubles. -/
def exactResult (op : NumberCalc) (a b : ℤ) : Option ℤ :=
  match op with
  | .sum => some (a + b)
  | .sub => some (a - b)
  | .div => if b ≠ 0 ∧ b ∣ a then some (a / b) else none
  | .prod => some (a * b)
  | .mod => if b ≠ 0 then some (a.tmod b) else none
  | .pow => none
  | .atan2 => none

theorem of_exactResult_div {a b z : ℤ} (h : exactResult .div a b = some z) :
    b ≠ 0 ∧ b ∣ a ∧ a / b = z := by
  have h' : (if b ≠ 0 ∧ b ∣ a then some (a / b) else none) = some z := h
  split_ifs at h' with hd
  exact ⟨hd.1, hd.2, Option.some.inj h'⟩

theorem of_exactResult_mod {a b z : ℤ} (h : exactResult .mod a b = some z) :
    b ≠ 0 ∧ a.tmod b = z := by
  have h' : (if b ≠ 0 then some (a.tmod b) else none) = some z := h
  split_ifs at h' with hd
  exact ⟨hd, Option.some.inj h'⟩

/-- The calculation returns the integer. -/
def Returns (c : Calculated F) (z : ℤ) : Prop := ∃ n, c = .ok (some n) ∧ n.intValue = some z

omit [Double F] in
theorem returns_ofInt64 {i : Int64} {z : ℤ} (h : i.toInt = z) :
    Returns (.ok (some (.ofInt64 i)) : Calculated F) z :=
  ⟨_, rfl, by rw [intValue_ofInt64, h]⟩

omit [Double F] in
theorem returns_ofUint64 {u : UInt64} {z : ℤ} (h : (u.toNat : ℤ) = z) :
    Returns (.ok (some (.ofUint64 u)) : Calculated F) z :=
  ⟨_, rfl, by rw [intValue_ofUint64, h]⟩

theorem calculateUint64_ok (op : NumberCalc) (lhs rhs : UInt64) :
    ∃ r, (calculateUint64 op lhs rhs : Calculated F) = .ok r := by
  cases op <;> simp only [calculateUint64, calculateDouble]
  case div | mod =>
    by_cases h : rhs = 0
    · exact ⟨_, if_pos h⟩
    · rw [if_neg h]
      simp only [divUint64, modUint64, if_neg h, Except.map]
      exact ⟨_, rfl⟩
  case sub => split_ifs <;> exact ⟨_, rfl⟩
  all_goals exact ⟨_, rfl⟩

theorem calculateUint64_returns {op : NumberCalc} {a b z : ℤ} (ha : Unsigned a) (hb : Unsigned b)
    (h : exactResult op a b = some z) (hz : Representable z) :
    Returns (calculateUint64 op (.ofNat a.toNat) (.ofNat b.toNat) : Calculated F) z := by
  have ha' := toNat_ofNat ha
  have hb' := toNat_ofNat hb
  obtain ⟨ha0, ha1⟩ := ha
  obtain ⟨hb0, hb1⟩ := hb
  generalize UInt64.ofNat a.toNat = x at ha'
  generalize UInt64.ofNat b.toNat = y at hb'
  have hzero : y = 0 ↔ b = 0 := by
    rw [← UInt64.toNat_inj, UInt64.toNat_zero]
    omega
  subst ha'
  subst hb'
  unfold Representable Signed Unsigned at hz
  cases op with
  | sum =>
    cases h
    refine returns_ofUint64 ?_
    rw [UInt64.toNat_add]
    omega
  | sub =>
    cases h
    unfold calculateUint64
    by_cases hlt : x < y
    · simp only [if_pos hlt]
      refine returns_ofInt64 ?_
      have hlt' := UInt64.lt_iff_toNat_lt.mp hlt
      show (x - y).toBitVec.toInt = _
      rw [BitVec.toInt_eq_toNat_cond, UInt64.toNat_toBitVec, UInt64.toNat_sub]
      split_ifs <;> omega
    · simp only [if_neg hlt]
      refine returns_ofUint64 ?_
      have hle := UInt64.not_lt.mp hlt
      rw [UInt64.toNat_sub_of_le _ _ hle]
      have := UInt64.le_iff_toNat_le.mp hle
      omega
  | div =>
    obtain ⟨h0, -, rfl⟩ := of_exactResult_div h
    have hy : ¬ y = 0 := fun h' => h0 (hzero.mp h')
    simp only [calculateUint64, divUint64, if_neg hy, Except.map]
    refine returns_ofUint64 ?_
    rw [UInt64.toNat_div, Int.natCast_ediv]
  | prod =>
    cases h
    refine returns_ofUint64 ?_
    have h0 : (0 : ℤ) ≤ x.toNat * y.toNat := by positivity
    rw [UInt64.toNat_mul, Int.natCast_emod, Int.natCast_mul]
    exact Int.emod_eq_of_lt h0 (by omega)
  | mod =>
    obtain ⟨h0, rfl⟩ := of_exactResult_mod h
    have hy : ¬ y = 0 := fun h' => h0 (hzero.mp h')
    simp only [calculateUint64, modUint64, if_neg hy, Except.map]
    refine returns_ofUint64 ?_
    rw [UInt64.toNat_mod, Int.natCast_emod, Int.tmod_eq_emod_of_nonneg ha0]
  | pow => cases h
  | atan2 => cases h

/-- The operation on `int64_t` does not overflow. -/
def SignedFits (op : NumberCalc) (a b : ℤ) : Prop :=
  match op with
  | .sum => Signed (a + b)
  | .sub => Signed (a - b)
  | .prod => Signed (a * b)
  | .div => ¬ (a = -2 ^ 63 ∧ b = -1)
  | .mod => ¬ (a = -2 ^ 63 ∧ b = -1)
  | .pow => True
  | .atan2 => True

instance (op : NumberCalc) (a b : ℤ) : Decidable (SignedFits op a b) := by
  cases op <;> unfold SignedFits <;> infer_instance

theorem checked_ok {z : ℤ} (h : Signed z) : checked z = .ok (.ofInt z) := if_pos h

theorem checked_error {z : ℤ} (h : ¬ Signed z) : checked z = .error .signedOverflow := if_neg h

/-- The zero, the least number and minus one are what they are as integers. -/
theorem eq_zero_iff (i : Int64) : i = 0 ↔ i.toInt = 0 := by rw [← Int64.toInt_inj]; rfl

theorem overflowing_iff (i j : Int64) :
    (i = .minValue ∧ j = -1) ↔ (i.toInt = -2 ^ 63 ∧ j.toInt = -1) := by
  rw [← Int64.toInt_inj, ← Int64.toInt_inj]; rfl

theorem calculateInt64_error {op : NumberCalc} {a b : ℤ} (ha : Signed a) (hb : Signed b)
    (h : ¬ SignedFits op a b) :
    ∃ f, (calculateInt64 op (.ofInt a) (.ofInt b) : Calculated F) = .error f := by
  have ha' := toInt_ofInt ha
  have hb' := toInt_ofInt hb
  cases op with
  | sum => exact ⟨_, by simp only [calculateInt64, ha', hb', checked_error h, Except.map]; rfl⟩
  | sub => exact ⟨_, by simp only [calculateInt64, ha', hb', checked_error h, Except.map]; rfl⟩
  | prod => exact ⟨_, by simp only [calculateInt64, ha', hb', checked_error h, Except.map]; rfl⟩
  | div | mod =>
    have ho := not_not.mp h
    have hc : Int64.ofInt a = .minValue ∧ Int64.ofInt b = -1 :=
      (overflowing_iff _ _).mpr (by rw [ha', hb']; exact ho)
    have h0 : ¬ Int64.ofInt b = 0 := fun h' => by
      have := (eq_zero_iff _).mp h'
      omega
    exact ⟨_, by
      simp only [calculateInt64, divInt64, modInt64, if_neg h0, if_pos hc, Except.map]; rfl⟩
  | pow => exact absurd trivial h
  | atan2 => exact absurd trivial h

theorem calculateInt64_ok {op : NumberCalc} {a b : ℤ} (ha : Signed a) (hb : Signed b)
    (h : SignedFits op a b) :
    ∃ r, (calculateInt64 op (.ofInt a) (.ofInt b) : Calculated F) = .ok r ∧
      ∀ z, exactResult op a b = some z → Returns (.ok r : Calculated F) z := by
  have ha' := toInt_ofInt ha
  have hb' := toInt_ofInt hb
  cases op with
  | sum | sub | prod =>
    refine ⟨_, by simp only [calculateInt64, ha', hb', checked_ok h, Except.map]; rfl, ?_⟩
    rintro z ⟨⟩
    exact returns_ofInt64 (toInt_ofInt h)
  | div =>
    have hc : ¬ (Int64.ofInt a = .minValue ∧ Int64.ofInt b = -1) := fun h' =>
      h (by rw [← ha', ← hb']; exact (overflowing_iff _ _).mp h')
    by_cases h0 : Int64.ofInt b = 0
    · refine ⟨none, by simp only [calculateInt64, if_pos h0], fun z hz => ?_⟩
      exact absurd (hb'.symm.trans ((eq_zero_iff _).mp h0)) (of_exactResult_div hz).1
    · refine ⟨_, by simp only [calculateInt64, divInt64, if_neg h0, if_neg hc, Except.map]; rfl, ?_⟩
      intro z hz
      obtain ⟨-, hd, rfl⟩ := of_exactResult_div hz
      refine returns_ofInt64 ?_
      rw [← Int.tdiv_eq_ediv_of_dvd hd]
      rcases Decidable.not_and_iff_not_or_not.mp hc with hm | hm
      · rw [Int64.toInt_div_of_ne_left _ _ hm, ha', hb']
      · rw [Int64.toInt_div_of_ne_right _ _ hm, ha', hb']
  | mod =>
    have hc : ¬ (Int64.ofInt a = .minValue ∧ Int64.ofInt b = -1) := fun h' =>
      h (by rw [← ha', ← hb']; exact (overflowing_iff _ _).mp h')
    by_cases h0 : Int64.ofInt b = 0
    · refine ⟨none, by simp only [calculateInt64, if_pos h0], fun z hz => ?_⟩
      exact absurd (hb'.symm.trans ((eq_zero_iff _).mp h0)) (of_exactResult_mod hz).1
    · refine ⟨_, by simp only [calculateInt64, modInt64, if_neg h0, if_neg hc, Except.map]; rfl, ?_⟩
      intro z hz
      obtain ⟨-, rfl⟩ := of_exactResult_mod hz
      exact returns_ofInt64 (by rw [Int64.toInt_mod, ha', hb'])
  | pow => exact ⟨_, rfl, fun z hz => by cases hz⟩
  | atan2 => exact ⟨_, rfl, fun z hz => by cases hz⟩

/-- A calculation on doubles returns no integer. -/
theorem calculateDouble_not_returns (op : NumberCalc) (x y : F) (z : ℤ) :
    ¬ Returns (calculateDouble op x y) z := by
  rintro ⟨n, hn, hz⟩
  have h := Except.ok.inj hn
  have key : ∀ m, op.calculateDouble x y = some m → ∃ d, m = .double d := by
    intro m hm
    cases op <;> simp only [NumberCalc.calculateDouble, NumberCalc.finite] at hm
    case div | mod | pow => split_ifs at hm; exact ⟨_, (Option.some.inj hm).symm⟩
    all_goals exact ⟨_, (Option.some.inj hm).symm⟩
  obtain ⟨m, hm, rfl⟩ := Option.map_eq_some_iff.mp h
  obtain ⟨d, rfl⟩ := key m hm
  cases hz

/-- How the operands choose the type. -/
theorem calculate_stored (op : NumberCalc) {a b : ℤ} (ha : Representable a) (hb : Representable b) :
    (calculate op (.stored a) (.stored b) : Calculated F) =
      if Unsigned a ∧ Unsigned b then calculateUint64 op (.ofNat a.toNat) (.ofNat b.toNat)
      else if Signed a ∧ Signed b then calculateInt64 op (.ofInt a) (.ofInt b)
      else calculateDouble op (RJNumber.stored a).getDouble (RJNumber.stored b).getDouble := by
  unfold calculate
  rw [stored_isUint64 ha, stored_isUint64 hb, stored_isInt64 ha, stored_isInt64 hb]
  simp only [Bool.and_eq_true, decide_eq_true_eq]
  by_cases hu : Unsigned a ∧ Unsigned b
  · rw [if_pos hu, if_pos hu, stored_getUint64 hu.1, stored_getUint64 hu.2]
  · rw [if_neg hu, if_neg hu]
    by_cases hs : Signed a ∧ Signed b
    · rw [if_pos hs, if_pos hs, stored_getInt64 hs.1, stored_getInt64 hs.2]
    · rw [if_neg hs, if_neg hs]

/-! ### The value of an expression

Where no operation overflows, the machine types calculate what `NumberCalc.calculate` does, which the
value of an expression is defined by. -/

omit [Double F] in
theorem ofInt64_eq (i : Int64) : (RJNumber.ofInt64 i : RJNumber F) = .stored i.toInt :=
  store_eq (j := .int64 i) rfl

omit [Double F] in
theorem ofUint64_eq (u : UInt64) : (RJNumber.ofUint64 u : RJNumber F) = .stored u.toNat :=
  store_eq (j := .uint64 u) rfl

theorem stored_getDouble {z : ℤ} (h : Representable z) :
    (.stored z : RJNumber F).getDouble = Double.ofInt z := by
  unfold RJNumber.stored
  unfold Representable Signed Unsigned at h
  by_cases hz : 0 ≤ z
  · have hn := toNat_ofNat (z := z) ⟨hz, by omega⟩
    rw [if_pos hz]
    unfold RJNumber.ofUint64
    by_cases hlt : (UInt64.ofNat z.toNat).toNat < 2 ^ 63
    · rw [decide_eq_true hlt]
      show Double.ofInt (UInt64.ofNat z.toNat).toBitVec.toInt = _
      rw [BitVec.toInt_eq_toNat_cond, UInt64.toNat_toBitVec, if_pos (by omega), hn]
    · rw [decide_eq_false hlt]
      show Double.ofInt ((UInt64.ofNat z.toNat).toNat : ℤ) = _
      rw [hn]
  · rw [if_neg hz]
    show Double.ofInt (Int64.ofInt z).toInt = _
    rw [toInt_ofInt ⟨by omega, by omega⟩]

theorem calculateUint64_eq (op : NumberCalc) {a b : ℤ} (ha : Unsigned a) (hb : Unsigned b) :
    (calculateUint64 op (.ofNat a.toNat) (.ofNat b.toNat) : Calculated F) =
      .ok ((op.calculateUint64 a b).map .ofNumber) := by
  have ha' := toNat_ofNat ha
  have hb' := toNat_ofNat hb
  generalize UInt64.ofNat a.toNat = x at ha'
  generalize UInt64.ofNat b.toNat = y at hb'
  have hzero : y = 0 ↔ b = 0 := by
    rw [← UInt64.toNat_inj, UInt64.toNat_zero]
    omega
  have hlt : x < y ↔ a < b := by
    rw [UInt64.lt_iff_toNat_lt]
    omega
  have hx := x.toNat_lt
  have hy := y.toNat_lt
  have hnum : ∀ (u : UInt64) (z : ℤ), (u.toNat : ℤ) = z →
      (.ok (some (.ofUint64 u)) : Calculated F) = .ok (some (.ofNumber (.int z))) := by
    rintro u z rfl
    rw [ofUint64_eq]
    rfl
  cases op with
  | sum =>
    refine hnum _ _ ?_
    rw [UInt64.toNat_add, Int.natCast_emod, Int.natCast_add, ha', hb']
    rfl
  | sub =>
    simp only [calculateUint64, NumberCalc.calculateUint64]
    by_cases h : x < y
    · rw [if_pos h, if_pos (hlt.mp h), ofInt64_eq]
      show (.ok (some (.stored (x - y).toBitVec.toInt)) : Calculated F) = _
      rw [BitVec.toInt_eq_toNat_bmod, UInt64.toNat_toBitVec, UInt64.toNat_sub]
      have : (((2 ^ 64 - y.toNat + x.toNat) % 2 ^ 64 : ℕ) : ℤ).bmod (2 ^ 64) =
          (a - b).bmod (2 ^ 64) := by
        rw [Int.natCast_emod, Int.emod_bmod, ← ha', ← hb']
        have : ((2 ^ 64 - y.toNat + x.toNat : ℕ) : ℤ) = x.toNat - y.toNat + 2 ^ 64 := by omega
        rw [this]
        exact Int.add_bmod_right _ _
      rw [this]
      rfl
    · rw [if_neg h, if_neg fun h' => h (hlt.mpr h')]
      refine hnum _ _ ?_
      have hle := UInt64.le_iff_toNat_le.mp (UInt64.not_lt.mp h)
      rw [UInt64.toNat_sub_of_le _ _ (UInt64.not_lt.mp h)]
      omega
  | div =>
    simp only [calculateUint64, NumberCalc.calculateUint64, divUint64]
    by_cases h : y = 0
    · rw [if_pos h, if_pos (hzero.mp h)]
      rfl
    · rw [if_neg h, if_neg h, if_neg fun h' => h (hzero.mpr h')]
      refine hnum _ _ ?_
      rw [UInt64.toNat_div, Int.natCast_ediv, ha', hb']
  | prod =>
    refine hnum _ _ ?_
    rw [UInt64.toNat_mul, Int.natCast_emod, Int.natCast_mul, ha', hb']
    rfl
  | mod =>
    simp only [calculateUint64, NumberCalc.calculateUint64, modUint64]
    by_cases h : y = 0
    · rw [if_pos h, if_pos (hzero.mp h)]
      rfl
    · rw [if_neg h, if_neg h, if_neg fun h' => h (hzero.mpr h')]
      refine hnum _ _ ?_
      rw [UInt64.toNat_mod, Int.natCast_emod, ha', hb']
  | pow =>
    simp only [calculateUint64, calculateDouble, NumberCalc.calculateUint64, NumberCalc.calculateDouble,
      ha', hb']
  | atan2 =>
    simp only [calculateUint64, calculateDouble, NumberCalc.calculateUint64, NumberCalc.calculateDouble,
      ha', hb']

theorem calculateInt64_eq (op : NumberCalc) {a b : ℤ} (ha : Signed a) (hb : Signed b)
    (h : SignedFits op a b) : (calculateInt64 op (.ofInt a) (.ofInt b) : Calculated F) =
      .ok ((op.calculateInt64 a b).map .ofNumber) := by
  have ha' := toInt_ofInt ha
  have hb' := toInt_ofInt hb
  have hzero : Int64.ofInt b = 0 ↔ b = 0 := by rw [eq_zero_iff, hb']
  have hbmod : ∀ z : ℤ, Signed z → z.bmod (2 ^ 64) = z := by
    rintro z ⟨h1, h2⟩
    exact Int.bmod_eq_of_le (by omega) (by omega)
  have hnum : ∀ (i : Int64) (z : ℤ), i.toInt = z →
      (.ok (some (.ofInt64 i)) : Calculated F) = .ok (some (.ofNumber (.int z))) := by
    rintro i z rfl
    rw [ofInt64_eq]
    rfl
  cases op with
  | sum | sub | prod =>
    simp only [calculateInt64, NumberCalc.calculateInt64, ha', hb', checked_ok h, hbmod _ h]
    exact hnum _ _ (toInt_ofInt h)
  | div =>
    have hc : ¬ (Int64.ofInt a = .minValue ∧ Int64.ofInt b = -1) := fun h' =>
      h (by rw [← ha', ← hb']; exact (overflowing_iff _ _).mp h')
    simp only [calculateInt64, NumberCalc.calculateInt64, divInt64, if_neg hc]
    by_cases h0 : Int64.ofInt b = 0
    · rw [if_pos h0, if_pos (hzero.mp h0)]
      rfl
    · rw [if_neg h0, if_neg h0, if_neg fun h' => h0 (hzero.mpr h')]
      exact hnum _ _ (by rw [Int64.toInt_div, ha', hb'])
  | mod =>
    have hc : ¬ (Int64.ofInt a = .minValue ∧ Int64.ofInt b = -1) := fun h' =>
      h (by rw [← ha', ← hb']; exact (overflowing_iff _ _).mp h')
    simp only [calculateInt64, NumberCalc.calculateInt64, modInt64, if_neg hc]
    by_cases h0 : Int64.ofInt b = 0
    · rw [if_pos h0, if_pos (hzero.mp h0)]
      rfl
    · rw [if_neg h0, if_neg h0, if_neg fun h' => h0 (hzero.mpr h')]
      exact hnum _ _ (by rw [Int64.toInt_mod, ha', hb'])
  | pow =>
    simp only [calculateInt64, calculateDouble, NumberCalc.calculateInt64, NumberCalc.calculateDouble,
      ha', hb']
  | atan2 =>
    simp only [calculateInt64, calculateDouble, NumberCalc.calculateInt64, NumberCalc.calculateDouble,
      ha', hb']

/-- **The value of an expression** is what the machine calculates, unless it runs into a fault. -/
theorem calculate_ofNumber (op : NumberCalc) {a b : ℤ} (ha : Representable a) (hb : Representable b)
    (h : Signed a → Signed b → SignedFits op a b) :
    (calculate op (.stored a) (.stored b) : Calculated F) =
      .ok ((op.calculate (.int a) (.int b)).map .ofNumber) := by
  have hflags : ∀ z, (Number.int z : Number F).isUint64 = decide (Unsigned z) ∧
      (Number.int z : Number F).isInt64 = decide (Signed z) := fun z => ⟨rfl, rfl⟩
  rw [calculate_stored op ha hb]
  unfold NumberCalc.calculate
  simp only [(hflags _).1, (hflags _).2, Bool.and_eq_true, decide_eq_true_eq]
  by_cases hu : Unsigned a ∧ Unsigned b
  · rw [if_pos hu, if_pos hu]
    exact calculateUint64_eq op hu.1 hu.2
  · rw [if_neg hu, if_neg hu]
    by_cases hs : Signed a ∧ Signed b
    · rw [if_pos hs, if_pos hs]
      exact calculateInt64_eq op hs.1 hs.2 (h hs.1 hs.2)
    · rw [if_neg hs, if_neg hs, stored_getDouble ha, stored_getDouble hb]
      rfl

/-! ### Exact arithmetic -/

/-- The same number, whatever type it is given in. -/
def SameNumber (j j' : JsonNumber F) : Prop :=
  j = j' ∨ ∃ z, j.intValue = some z ∧ j'.intValue = some z

omit [Double F] in
theorem SameNumber.store {j j' : JsonNumber F} (h : SameNumber j j') : j'.store = j.store := by
  rcases h with rfl | ⟨z, h, h'⟩
  · rfl
  · rw [store_eq h, store_eq h']

/-- **The operator is right on the operands**: exact where the result is an integer of one of the two
types, without a fault, and the same however the operands are stored. -/
structure Right (op : NumberCalc) (lhs rhs : JsonNumber F) : Prop where
  exact : ∀ a b z, lhs.intValue = some a → rhs.intValue = some b → exactResult op a b = some z →
    Representable z → Returns (calculate op lhs.store rhs.store) z
  noFault : ∀ f, calculate op lhs.store rhs.store ≠ .error f
  sameStored : ∀ lhs' rhs', SameNumber lhs lhs' → SameNumber rhs rhs' →
    calculate op lhs'.store rhs'.store = calculate op lhs.store rhs.store

/-- `ABS` is right on the operand. -/
structure RightAbs (fabs : F → F) (val : JsonNumber F) : Prop where
  exact : ∀ a, val.intValue = some a → Returns (calculateAbs fabs val.store) |a|
  noFault : ∀ f, calculateAbs fabs val.store ≠ .error f
  sameStored : ∀ val', SameNumber val val' → calculateAbs fabs val'.store = calculateAbs fabs val.store

/-- **When an operator is right on integers**: both are unsigned, or both are signed and the operation
does not overflow, or there is no type for both and no result to be exact about. -/
def Meets (op : NumberCalc) (a b : ℤ) : Prop :=
  (Unsigned a ∧ Unsigned b) ∨ (Signed a ∧ Signed b ∧ SignedFits op a b) ∨
    (¬ (Unsigned a ∧ Unsigned b) ∧ ¬ (Signed a ∧ Signed b) ∧
      ∀ z, exactResult op a b = some z → ¬ Representable z)

theorem stored_right_iff {op : NumberCalc} {a b : ℤ} (ha : Representable a) (hb : Representable b) :
    ((∀ z, exactResult op a b = some z → Representable z →
        Returns (calculate op (.stored a) (.stored b) : Calculated F) z) ∧
      ∀ f, (calculate op (.stored a) (.stored b) : Calculated F) ≠ .error f) ↔ Meets op a b := by
  rw [calculate_stored op ha hb]
  by_cases hu : Unsigned a ∧ Unsigned b
  · rw [if_pos hu]
    obtain ⟨r, hr⟩ := calculateUint64_ok (F := F) op (.ofNat a.toNat) (.ofNat b.toNat)
    refine iff_of_true ⟨fun z hz hrep => calculateUint64_returns hu.1 hu.2 hz hrep, ?_⟩ (Or.inl hu)
    intro f hf
    rw [hr] at hf
    cases hf
  · rw [if_neg hu]
    by_cases hs : Signed a ∧ Signed b
    · rw [if_pos hs]
      by_cases hfits : SignedFits op a b
      · obtain ⟨r, hr, hret⟩ := calculateInt64_ok (F := F) hs.1 hs.2 hfits
        rw [hr]
        exact iff_of_true ⟨fun z hz _ => hret z hz, fun f hf => by cases hf⟩
          (Or.inr (Or.inl ⟨hs.1, hs.2, hfits⟩))
      · obtain ⟨f, hf⟩ := calculateInt64_error (F := F) hs.1 hs.2 hfits
        refine iff_of_false (fun h => h.2 f hf) ?_
        rintro (h | ⟨-, -, h⟩ | ⟨-, h, -⟩)
        · exact hu h
        · exact hfits h
        · exact h hs
    · rw [if_neg hs]
      constructor
      · rintro ⟨h, -⟩
        exact Or.inr (Or.inr ⟨hu, hs, fun z hz hrep =>
          calculateDouble_not_returns op _ _ z (h z hz hrep)⟩)
      · rintro (h | ⟨h1, h2, -⟩ | ⟨-, -, h⟩)
        · exact absurd h hu
        · exact absurd ⟨h1, h2⟩ hs
        · exact ⟨fun z hz hrep => absurd hrep (h z hz), fun f hf => by cases hf⟩

/-- With a double, the calculation is one on doubles. -/
theorem calculate_double (op : NumberCalc) {lhs rhs : JsonNumber F}
    (h : lhs.intValue = none ∨ rhs.intValue = none) :
    calculate op lhs.store rhs.store =
      calculateDouble op lhs.store.getDouble rhs.store.getDouble := by
  have hnone : ∀ j : JsonNumber F, j.intValue = none →
      j.store.isUint64 = false ∧ j.store.isInt64 = false := by
    intro j hj
    cases j with
    | double x => exact ⟨rfl, rfl⟩
    | _ => cases hj
  unfold calculate
  rcases h with h | h
  · rw [(hnone _ h).1, (hnone _ h).2, Bool.false_and, Bool.false_and, if_neg (by simp), if_neg (by simp)]
  · rw [(hnone _ h).1, (hnone _ h).2, Bool.and_false, Bool.and_false, if_neg (by simp), if_neg (by simp)]

theorem right_iff (op : NumberCalc) (lhs rhs : JsonNumber F) :
    Right op lhs rhs ↔
      ∀ a b, lhs.intValue = some a → rhs.intValue = some b → Meets op a b := by
  have hsame : ∀ lhs' rhs', SameNumber lhs lhs' → SameNumber rhs rhs' →
      calculate op lhs'.store rhs'.store = calculate op lhs.store rhs.store :=
    fun lhs' rhs' hl hr => by rw [hl.store, hr.store]
  constructor
  · intro h a b ha hb
    refine (stored_right_iff (F := F) (representable_of_intValue ha)
      (representable_of_intValue hb)).mp ?_
    rw [← store_eq ha, ← store_eq hb]
    exact ⟨fun z => h.exact a b z ha hb, h.noFault⟩
  · intro h
    have hdouble : lhs.intValue = none ∨ rhs.intValue = none → Right op lhs rhs := by
      intro hnone
      refine ⟨fun a b z ha hb => ?_, fun f hf => ?_, hsame⟩
      · rw [ha, hb] at hnone
        simp at hnone
      · rw [calculate_double op hnone] at hf
        cases hf
    cases ha : lhs.intValue with
    | none => exact hdouble (Or.inl ha)
    | some a =>
      cases hb : rhs.intValue with
      | none => exact hdouble (Or.inr hb)
      | some b =>
        have hright := (stored_right_iff (F := F) (representable_of_intValue ha)
          (representable_of_intValue hb)).mpr (h a b ha hb)
        rw [← store_eq ha, ← store_eq hb] at hright
        refine ⟨fun a' b' z ha' hb' => ?_, hright.2, hsame⟩
        cases ha.symm.trans ha'
        cases hb.symm.trans hb'
        exact hright.1 z

theorem rightAbs_iff (fabs : F → F) (val : JsonNumber F) :
    RightAbs fabs val ↔ val.intValue ≠ some (-2 ^ 63) := by
  have hsame : ∀ val', SameNumber val val' →
      calculateAbs fabs val'.store = calculateAbs fabs val.store :=
    fun val' h => by rw [h.store]
  cases hv : val.intValue with
  | none =>
    have hd : ∃ x, val = .double x := by
      cases val with
      | double x => exact ⟨x, rfl⟩
      | _ => cases hv
    obtain ⟨x, rfl⟩ := hd
    refine iff_of_true ⟨?_, ?_, hsame⟩ (by simp)
    · intro a ha
      cases ha
    · intro f hf
      cases hf
  | some a =>
    have hrep := representable_of_intValue hv
    have hcase : calculateAbs fabs val.store =
        if Unsigned a then .ok (some (.ofUint64 (.ofNat a.toNat)))
        else (absInt64 (.ofInt a)).map fun i => some (.ofInt64 i) := by
      unfold calculateAbs
      rw [store_eq hv, stored_isUint64 hrep, stored_isInt64 hrep]
      by_cases hu : Unsigned a
      · rw [if_pos (decide_eq_true hu), if_pos hu, stored_getUint64 hu]
      · have hs : Signed a := hrep.resolve_right hu
        rw [if_neg (by simpa using hu), if_neg hu, if_pos (decide_eq_true hs), stored_getInt64 hs]
    by_cases hu : Unsigned a
    · rw [if_pos hu] at hcase
      have hne : a ≠ -2 ^ 63 := by have := hu.1; omega
      refine iff_of_true ⟨?_, ?_, hsame⟩ (by simpa using hne)
      · intro a' ha'
        cases hv.symm.trans ha'
        rw [hcase, abs_of_nonneg hu.1]
        exact returns_ofUint64 (toNat_ofNat hu)
      · intro f hf
        rw [hcase] at hf
        cases hf
    · have hs : Signed a := hrep.resolve_right hu
      have ha' := toInt_ofInt hs
      have hneg : a < 0 := by unfold Signed at hs; unfold Unsigned at hu; omega
      have hmin : Int64.ofInt a = .minValue ↔ a = -2 ^ 63 := by
        rw [← Int64.toInt_inj, ha']; rfl
      rw [if_neg hu] at hcase
      unfold absInt64 at hcase
      by_cases hm : a = -2 ^ 63
      · rw [if_pos (hmin.mpr hm)] at hcase
        exact iff_of_false (fun h => h.noFault _ hcase) (by simp [hm])
      · rw [if_neg (fun h => hm (hmin.mp h)), if_pos (by rw [ha']; exact hneg)] at hcase
        refine iff_of_true ⟨?_, ?_, hsame⟩ (by simpa using hm)
        · intro a' ha''
          cases hv.symm.trans ha''
          rw [hcase, abs_of_neg hneg]
          refine returns_ofInt64 ?_
          obtain ⟨h1, h2⟩ := hs
          rw [Int64.toInt_neg, ha']
          exact Int.bmod_eq_of_le (by omega) (by omega)
        · intro f hf
          rw [hcase] at hf
          cases hf

/-- **Exact arithmetic.** -/
theorem arithmetic_iff (fabs : F → F) :
    (∀ (op : NumberCalc) (lhs rhs : JsonNumber F), Right op lhs rhs ↔
      ∀ a b, lhs.intValue = some a → rhs.intValue = some b → Meets op a b) ∧
    ∀ val : JsonNumber F, RightAbs fabs val ↔ val.intValue ≠ some (-2 ^ 63) :=
  ⟨right_iff, rightAbs_iff fabs⟩

/-- `DIV(-9223372036854775808, -1)` -/
theorem not_right_div : ¬ Right .div (.int64 .minValue : JsonNumber Float) (.int64 (-1)) :=
  fun h => h.noFault .overflowingDivision rfl

end Joda.Values.Arithmetic
