import Mathlib.Tactic.Linarith
import TypeResolution.Number.Text

/-!
The texts of integers. An integer of at most 64 bits is displayed as its decimal numeral, so different
integers in this range have different texts.
-/

namespace TypeResolution.Number

variable {x y : Number}

/-- The value of an integer. -/
def value (x : Number) : Int := if x.isNegative then -x.wholePart else x.wholePart

section units

theorem magnitudeBits_eq (x : Number) :
    x.magnitudeBits = x.exponentField * 2 ^ 52 + x.fractionField := by
  rw [exponentField, fractionField, Nat.shiftRight_eq_div_pow, Nat.one_shiftLeft]
  omega

theorem units_lt_pow (x : Number) : x.units < 2 ^ (52 + x.exponentField) := by
  have hfraction : x.fractionField < 2 ^ 52 := Nat.mod_lt _ (by decide)
  rw [units, significand, scale, Nat.shiftLeft_eq]
  split
  · simp_all
  · have hscale : 52 + x.exponentField = 53 + (x.exponentField - 1) := by omega
    rw [hscale, Nat.pow_add]
    exact Nat.mul_lt_mul_of_pos_right (by rw [Nat.one_shiftLeft]; omega) (Nat.two_pow_pos _)

theorem pow_le_units (hx : 0 < x.exponentField) : 2 ^ (51 + x.exponentField) ≤ x.units := by
  have hscale : 51 + x.exponentField = 52 + (x.exponentField - 1) := by omega
  rw [units, significand, scale, Nat.shiftLeft_eq, if_neg (by omega), hscale, Nat.pow_add]
  exact Nat.mul_le_mul_right _ (by rw [Nat.one_shiftLeft]; omega)

/-- A larger exponent gives a larger magnitude. -/
theorem exponentField_le_of_units (h : x.units = y.units) : x.exponentField ≤ y.exponentField := by
  by_contra hlt
  have hle : 2 ^ (52 + y.exponentField) ≤ 2 ^ (51 + x.exponentField) :=
    Nat.pow_le_pow_right (by decide) (by omega)
  have hx := pow_le_units (x := x) (by omega)
  have hy := y.units_lt_pow
  omega

theorem magnitudeBits_of_units (h : x.units = y.units) : x.magnitudeBits = y.magnitudeBits := by
  have hexponent : x.exponentField = y.exponentField :=
    Nat.le_antisymm (exponentField_le_of_units h) (exponentField_le_of_units h.symm)
  have hfraction : x.fractionField = y.fractionField := by
    simp only [units, significand, scale, hexponent, Nat.shiftLeft_eq] at h
    have h := Nat.eq_of_mul_eq_mul_right (Nat.two_pow_pos _) h
    split at h <;> omega
  rw [magnitudeBits_eq, magnitudeBits_eq, hexponent, hfraction]

end units

theorem eq_shiftRight_mul {n k : Nat} (h : n % (1 <<< k) = 0) : n = (n >>> k) * 2 ^ k := by
  rw [Nat.one_shiftLeft] at h
  rw [Nat.shiftRight_eq_div_pow]
  exact (Nat.div_mul_cancel (Nat.dvd_of_mod_eq_zero h)).symm

/-- An integer is determined by its whole part and its sign. -/
theorem magnitudeBits_of_wholePart (hx : x.isInteger) (hy : y.isInteger)
    (h : x.wholePart = y.wholePart) : x.magnitudeBits = y.magnitudeBits := by
  simp only [isInteger, Bool.and_eq_true, decide_eq_true_eq] at hx hy
  apply magnitudeBits_of_units
  rw [eq_shiftRight_mul hx.2, eq_shiftRight_mul hy.2]
  exact congrArg (· * 2 ^ 1074) h

theorem eq_of_magnitudeBits (hsign : x.isNegative = y.isNegative)
    (h : x.magnitudeBits = y.magnitudeBits) : x = y := by
  have hx := x.bits.toNat_lt
  have hy := y.bits.toNat_lt
  simp only [isNegative, Nat.one_shiftLeft, decide_eq_decide] at hsign
  simp only [magnitudeBits, Nat.one_shiftLeft] at h
  obtain ⟨a⟩ := x
  obtain ⟨b⟩ := y
  congr 1
  apply UInt64.toNat_inj.mp
  dsimp only at hx hy hsign h
  omega

theorem eq_zero_of_wholePart (hx : x.isInteger) (hcanonical : x.canonical = x)
    (h : x.wholePart = 0) : x = zero := by
  have hzero : x.isZero := by
    have hbits : x.magnitudeBits = zero.magnitudeBits :=
      magnitudeBits_of_wholePart hx (by decide +kernel) h
    simpa only [isZero, decide_eq_true_eq] using hbits.trans (by decide)
  rw [← hcanonical, canonical, if_pos hzero]

/-- Different integers have different values. -/
theorem eq_of_value (hx : x.isInteger) (hy : y.isInteger) (hcx : x.canonical = x)
    (hcy : y.canonical = y) (h : x.value = y.value) : x = y := by
  by_cases hzero : x.wholePart = 0
  · have hzero' : y.wholePart = 0 := by
      unfold value at h
      split at h <;> split at h <;> omega
    rw [eq_zero_of_wholePart hx hcx hzero, eq_zero_of_wholePart hy hcy hzero']
  · have hsame : x.isNegative = y.isNegative ∧ x.wholePart = y.wholePart := by
      unfold value at h
      cases hsign : x.isNegative <;> cases hsign' : y.isNegative <;>
        simp only [hsign, hsign', if_true, Bool.false_eq_true, if_false] at h <;>
        first | exact ⟨rfl, by omega⟩ | omega
    exact eq_of_magnitudeBits hsame.1 (magnitudeBits_of_wholePart hx hy hsame.2)

section numerals

theorem repr_inj {m n : Nat} (h : m.repr = n.repr) : m = n := by
  rw [Nat.repr_eq_ofList_toDigits, Nat.repr_eq_ofList_toDigits] at h
  have hdigits : Nat.toDigits 10 m = Nat.toDigits 10 n := by simpa using congrArg String.toList h
  rw [← Nat.ofDigitChars_ten_toDigits (n := m), hdigits, Nat.ofDigitChars_ten_toDigits]

/-- Numerals without a sign start with a digit. -/
theorem repr_ne_neg (m n : Nat) : m.repr ≠ "-" ++ n.repr := by
  intro h
  have hlist := congrArg String.toList h
  rw [Nat.repr_eq_ofList_toDigits, String.toList_ofList, String.toList_append] at hlist
  have hmem : '-' ∈ Nat.toDigits 10 m := by
    rw [hlist]
    simp
  exact absurd (Nat.isDigit_of_mem_toDigits (by decide) (Nat.le_refl 10) hmem) (by decide)

theorem toString_inj {a b : Int} (h : toString a = toString b) : a = b := by
  cases a with
  | ofNat m =>
      cases b with
      | ofNat n => exact congrArg Int.ofNat (repr_inj h)
      | negSucc n => exact absurd h (repr_ne_neg m (n + 1))
  | negSucc m =>
      cases b with
      | ofNat n => exact absurd h.symm (repr_ne_neg n (m + 1))
      | negSucc n =>
          have h : "-" ++ (m + 1).repr = "-" ++ (n + 1).repr := h
          have hsucc := repr_inj ((String.append_right_inj _).mp h)
          rw [Nat.succ.inj hsucc]

end numerals

/-- An integer that has a 64-bit value. -/
structure IsWord (x : Number) : Prop where
  integer : x.isInteger
  low : -2 ^ 63 ≤ x.value
  high : x.value < 2 ^ 63

/-- An integer with a 64-bit value is displayed as its decimal numeral. -/
theorem IsWord.toText (hx : x.IsWord) : x.toText = toString x.value := by
  obtain ⟨hx, hlow, hhigh⟩ := hx
  have hinteger : integerBound = 1000000000000000000000 := rfl
  unfold Number.toText integerText
  unfold value at hlow hhigh ⊢
  cases hsign : x.isNegative with
  | false =>
      simp only [hsign, Bool.false_eq_true, if_false] at hlow hhigh ⊢
      have hmin : min x.wholePart ((1 <<< 63) - 1) = x.wholePart := by
        rw [Nat.one_shiftLeft]
        omega
      have hbound : x.wholePart < integerBound := by omega
      rw [if_pos (by simp [hx, hbound]), hmin]
      cases x.wholePart with
      | zero => rfl
      | succ n => rfl
  | true =>
      simp only [hsign, if_true] at hlow hhigh ⊢
      have hmin : min x.wholePart (1 <<< 63) = x.wholePart := by
        rw [Nat.one_shiftLeft]
        omega
      have hbound : x.wholePart < integerBound := by omega
      rw [if_pos (by simp [hx, hbound]), hmin]
      cases x.wholePart with
      | zero => rfl
      | succ n => rfl

/-- Different integers with 64-bit values have different texts. -/
theorem IsWord.eq_of_toText (hx : x.IsWord) (hy : y.IsWord) (hcx : x.canonical = x)
    (hcy : y.canonical = y) (h : x.toText = y.toText) : x = y := by
  rw [hx.toText, hy.toText] at h
  exact eq_of_value hx.integer hy.integer hcx hcy (toString_inj h)

/-- The text is exact for `2 ^ 62`, and from `2 ^ 63` on it is clamped. -/
example : toText ⟨0x43d0000000000000⟩ = "4611686018427387904" ∧
    toText ⟨0x43e158e460913d00⟩ = toText ⟨0x4415af1d78b58c40⟩ := by
  decide +kernel

end TypeResolution.Number
