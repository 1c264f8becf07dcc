import Mathlib.Algebra.Group.Nat.Defs
import TypeResolution.Json.Reader

/-!
Number tokens. A number is read up to the first character that cannot continue it, so it is read
the same in front of anything that ends it; the digits of an integer read back as that integer,
and an integer that fits a word is a number.
-/

namespace TypeResolution

namespace Number

/-- A coarse bound: the quotient is below a power of two. -/
theorem roundRatio_le {num den k : Nat} (hden : 0 < den) (h : num < den * 2 ^ k) :
    roundRatio num den ≤ (k + 1023) * 2 ^ 52 := by
  generalize hx : num <<< 1074 / den = x
  generalize hs : x.log2 + 1 - 53 = shift
  have hlt : x < 2 ^ (k + 1074) := by
    rw [← hx, Nat.div_lt_iff_lt_mul hden, Nat.shiftLeft_eq, Nat.pow_add, Nat.mul_right_comm]
    exact Nat.mul_lt_mul_of_pos_right (Nat.mul_comm _ _ ▸ h) (Nat.two_pow_pos 1074)
  have hlog : x.log2 < k + 1074 := by
    by_cases hzero : x = 0
    · rw [hzero, Nat.log2_zero]
      omega
    · exact (Nat.log2_lt hzero).mpr hlt
  have hquotient : num <<< 1074 / den <<< shift < 2 ^ 53 := by
    rw [Nat.shiftLeft_eq den, ← Nat.div_div_eq_div_mul, hx,
      Nat.div_lt_iff_lt_mul (Nat.two_pow_pos shift), ← Nat.pow_add]
    exact Nat.lt_of_lt_of_le Nat.lt_log2_self (Nat.pow_le_pow_right (by decide) (by omega))
  have hround : roundRatio num den ≤ shift <<< 52 + 2 ^ 53 := by
    simp only [roundRatio, hx, hs]
    split <;> omega
  have hshift : shift + 2 ≤ k + 1023 := by omega
  calc roundRatio num den ≤ shift <<< 52 + 2 ^ 53 := hround
    _ = (shift + 2) * 2 ^ 52 := by
      rw [Nat.shiftLeft_eq]
      omega
    _ ≤ (k + 1023) * 2 ^ 52 := Nat.mul_le_mul_right _ hshift

theorem units_lt {x : Number} {e : Nat} (h : x.magnitudeBits ≤ e * 2 ^ 52) :
    x.units < 2 ^ (53 + e) := by
  have hfield : x.exponentField ≤ e := by
    rw [exponentField, Nat.shiftRight_eq_div_pow]
    omega
  have hsignificand : x.significand < 2 ^ 53 := by
    have hfraction : x.fractionField < 2 ^ 52 := Nat.mod_lt _ (by decide)
    unfold significand
    split <;> omega
  have hscale : 2 ^ x.scale ≤ 2 ^ e := Nat.pow_le_pow_right (by decide) (by unfold scale; omega)
  rw [units, Nat.shiftLeft_eq, Nat.pow_add]
  exact Nat.mul_lt_mul_of_lt_of_le hsignificand hscale (Nat.two_pow_pos e)

theorem magnitudeBits_ofMagnitudeBits (negative : Bool) (m : Nat) :
    (ofMagnitudeBits negative m).magnitudeBits = min m infinityBits := by
  have hbound : min m infinityBits < 2 ^ 63 := by
    simp only [infinityBits]
    omega
  simp only [ofMagnitudeBits, magnitudeBits, Nat.one_shiftLeft, UInt64.toNat_ofNat']
  split <;> omega

theorem magnitudeBits_ofRatio_le {num den k : Nat} (negative : Bool) (hden : 0 < den)
    (h : num < den * 2 ^ k) : (ofRatio negative num den).magnitudeBits ≤ (k + 1023) * 2 ^ 52 := by
  rw [ofRatio, magnitudeBits_ofMagnitudeBits]
  exact Nat.le_trans (Nat.min_le_left _ _) (roundRatio_le hden h)

theorem isFinite_of_le {x : Number} {e : Nat} (he : e < 2047) (h : x.magnitudeBits ≤ e * 2 ^ 52) :
    x.isFinite := by
  simp only [isFinite, exponentField, Nat.shiftRight_eq_div_pow, decide_eq_true_eq]
  omega

theorem units_ofNat_lt {n k : Nat} (h : n < 2 ^ k) : (ofNat n).units < 2 ^ (53 + (k + 1023)) :=
  units_lt (magnitudeBits_ofRatio_le false Nat.one_pos (by rwa [Nat.one_mul]))

theorem mul_lt_shiftLeft {x y a b s t : Nat} (hx : x < 2 ^ a) (hy : y < 2 ^ b)
    (h : a + b = s + t) : x * y < 1 <<< s * 2 ^ t := by
  rw [Nat.one_shiftLeft, ← Nat.pow_add, ← h, Nat.pow_add]
  exact Nat.mul_lt_mul'' hx hy

theorem isFinite_mulMagnitude {m n j k : Nat} (hm : m < 2 ^ j) (hn : n < 2 ^ k)
    (h : j + k < 1020) : ((ofNat m).mulMagnitude (ofNat n)).isFinite := by
  have hproduct : (ofNat m).units * (ofNat n).units < 1 <<< 2148 * 2 ^ (j + k + 4) :=
    mul_lt_shiftLeft (units_ofNat_lt hm) (units_ofNat_lt hn) (by omega)
  have hpositive : 0 < 1 <<< 2148 := Nat.one_shiftLeft 2148 ▸ Nat.two_pow_pos 2148
  exact isFinite_of_le (by omega) (magnitudeBits_ofRatio_le _ hpositive hproduct)

end Number

namespace Json.Numeral

theorem le_foldl_digits (ds : List Char) (word : Nat) :
    word ≤ ds.foldl (fun n c => 10 * n + digit c) word := by
  induction ds generalizing word with
  | nil => exact Nat.le_refl word
  | cons c ds ih =>
      have hrest := ih (10 * word + digit c)
      simp only [List.foldl_cons]
      omega

theorem takeWhole_eq (ds : List Char) (word : Nat)
    (h : ds.foldl (fun n c => 10 * n + digit c) word ≤ maxWord) :
    takeWhole word 0 ds = (ds.foldl (fun n c => 10 * n + digit c) word, 0) := by
  induction ds generalizing word with
  | nil => rfl
  | cons c ds ih =>
      have hword := le_foldl_digits ds (10 * word + digit c)
      simp only [List.foldl_cons] at h ⊢
      have hfits : 10 * word + digit c ≤ maxWord := Nat.le_trans hword h
      rw [takeWhole, if_pos (by simp [hfits]), ih _ h]

end Json.Numeral

/-- Integers that fit a word are numbers. -/
theorem JsonNumber.number?_integer {n : Nat} (h : n < 2 ^ 64) :
    (JsonNumber.integer false n).number?.isSome := by
  have hdigits : (Nat.toDigits 10 n).foldl (fun n c => 10 * n + Json.Numeral.digit c) 0 = n :=
    Nat.ofDigitChars_ten_toDigits
  have hfits : n ≤ Json.Numeral.maxWord := by
    simp only [Json.Numeral.maxWord]
    omega
  have hwhole : Json.Numeral.takeWhole 0 0 (Nat.toDigits 10 n) = (n, 0) := by
    rw [Json.Numeral.takeWhole_eq _ _ (by rwa [hdigits]), hdigits]
  have hfinite := Number.isFinite_mulMagnitude h (show 1 < 2 ^ 1 by decide) (by decide)
  simp [number?, Json.Numeral.number?, Json.Numeral.magnitude?, hwhole, Json.Numeral.takeFraction,
    Json.Numeral.scaleBy, Json.Numeral.powerOfTen, hfinite]

namespace Json

namespace Reader

/-- Text that does not continue a number. -/
def EndsNumber (rest : List Char) : Prop :=
  ∀ c ∈ rest.head?, c.isDigit = false ∧ c ≠ '.' ∧ c ≠ 'e' ∧ c ≠ 'E'

variable {rest : List Char}

theorem takeWhile_digits_append (h : EndsNumber rest) (cs : List Char) :
    (cs ++ rest).takeWhile Char.isDigit = cs.takeWhile Char.isDigit := by
  induction cs with
  | nil =>
      cases rest with
      | nil => rfl
      | cons c rest => simp [(h c rfl).1]
  | cons c cs ih => simp [List.takeWhile_cons, ih]

theorem dropWhile_digits_append (h : EndsNumber rest) (cs : List Char) :
    (cs ++ rest).dropWhile Char.isDigit = cs.dropWhile Char.isDigit ++ rest := by
  induction cs with
  | nil =>
      cases rest with
      | nil => rfl
      | cons c rest => simp [(h c rfl).1]
  | cons c cs ih =>
      by_cases hc : c.isDigit <;> simp [hc, ih]

theorem head_digit_append (h : EndsNumber rest) (cs : List Char) :
    (cs ++ rest).head?.any Char.isDigit = cs.head?.any Char.isDigit := by
  cases cs with
  | cons c cs => rfl
  | nil =>
      cases rest with
      | nil => rfl
      | cons c rest => simp [(h c rfl).1]

/-- Digits that must be there are read the same in front of what ends a number. -/
theorem digits_append (h : EndsNumber rest) {α : Type} {f : List Char → α} {cs left : List Char}
    {a : α}
    (hcs : (if (cs.takeWhile Char.isDigit).isEmpty then none
      else some (f (cs.takeWhile Char.isDigit), cs.dropWhile Char.isDigit)) = some (a, left)) :
    (if ((cs ++ rest).takeWhile Char.isDigit).isEmpty then none
      else some (f ((cs ++ rest).takeWhile Char.isDigit), (cs ++ rest).dropWhile Char.isDigit)) =
      some (a, left ++ rest) := by
  rw [takeWhile_digits_append h, dropWhile_digits_append h]
  split at hcs
  · cases hcs
  · rename_i hsome
    cases hcs
    rw [if_neg hsome]

theorem whole?_of_ne {c : Char} (hc : c ≠ '0') (cs : List Char) :
    whole? (c :: cs) =
      if ((c :: cs).takeWhile Char.isDigit).isEmpty then none
      else some ((c :: cs).takeWhile Char.isDigit, (c :: cs).dropWhile Char.isDigit) := by
  unfold whole?
  split
  · rename_i heq
    cases heq
    exact (hc rfl).elim
  · rfl

theorem fraction?_of_ne {c : Char} (hc : c ≠ '.') (cs : List Char) :
    fraction? (c :: cs) = some ([], c :: cs) := by
  unfold fraction?
  split
  · rename_i heq
    cases heq
    exact (hc rfl).elim
  · rfl

theorem whole?_append (h : EndsNumber rest) {cs ds left : List Char}
    (hcs : whole? cs = some (ds, left)) : whole? (cs ++ rest) = some (ds, left ++ rest) := by
  cases cs with
  | nil => simp [whole?] at hcs
  | cons c cs =>
      by_cases hc : c = '0'
      · subst hc
        simp only [List.cons_append, whole?, head_digit_append h] at hcs ⊢
        split at hcs
        · cases hcs
        · rename_i hzero
          cases hcs
          rw [if_neg hzero]
      · rw [whole?_of_ne hc] at hcs
        rw [List.cons_append, whole?_of_ne hc]
        exact digits_append h (f := id) hcs

theorem fraction?_append (h : EndsNumber rest) {cs ds left : List Char}
    (hcs : fraction? cs = some (ds, left)) : fraction? (cs ++ rest) = some (ds, left ++ rest) := by
  cases cs with
  | nil =>
      cases hcs
      cases rest with
      | nil => rfl
      | cons c rest => exact fraction?_of_ne (h c rfl).2.1 rest
  | cons c cs =>
      by_cases hc : c = '.'
      · subst hc
        exact digits_append h (f := id) hcs
      · rw [fraction?_of_ne hc] at hcs
        cases hcs
        exact fraction?_of_ne hc (cs ++ rest)

theorem exponent?_append (h : EndsNumber rest) {cs left : List Char}
    {e : Option (Bool × List Char)} (hcs : exponent? cs = some (e, left)) :
    exponent? (cs ++ rest) = some (e, left ++ rest) := by
  cases cs with
  | nil =>
      cases hcs
      cases rest with
      | nil => rfl
      | cons c rest =>
          have hc := h c rfl
          simp [exponent?, hc]
  | cons c cs =>
      simp only [List.cons_append, exponent?] at hcs ⊢
      split at hcs
      · rename_i he
        rw [if_pos he]
        split at hcs
        · exact digits_append h (f := fun ds => some (false, ds)) hcs
        · exact digits_append h (f := fun ds => some (true, ds)) hcs
        · rename_i hplus hminus
          cases cs with
          | nil => simp at hcs
          | cons d cs =>
              split
              · rename_i heq
                cases heq
                exact (hplus cs rfl).elim
              · rename_i heq
                cases heq
                exact (hminus cs rfl).elim
              · exact digits_append h (f := fun ds => some (false, ds)) hcs
      · rename_i he
        cases hcs
        rw [if_neg he]
        rfl

/-- A number after its sign. -/
def unsigned (negative : Bool) (cs : List Char) : Option (JsonNumber × List Char) := do
  let (whole, cs) ← whole? cs
  let (fraction, cs) ← fraction? cs
  let (exponent, cs) ← exponent? cs
  return (Numeral.value ⟨negative, whole, fraction, exponent⟩, cs)

theorem number_of_ne {c : Char} (hc : c ≠ '-') (cs : List Char) :
    number (c :: cs) = unsigned false (c :: cs) := by
  unfold number
  split
  rename_i heq
  split at heq
  · rename_i hminus
    cases hminus
    exact (hc rfl).elim
  · cases heq
    rfl

theorem unsigned_eq_some {negative : Bool} {cs left : List Char} {n : JsonNumber} :
    unsigned negative cs = some (n, left) ↔ ∃ ds after fs further e,
      whole? cs = some (ds, after) ∧ fraction? after = some (fs, further) ∧
      exponent? further = some (e, left) ∧ n = Numeral.value ⟨negative, ds, fs, e⟩ := by
  simp only [unsigned, Option.bind_eq_bind, Option.bind_eq_some_iff, Option.pure_def,
    Option.some.injEq, Prod.mk.injEq, Prod.exists]
  constructor
  · rintro ⟨ds, after, hds, fs, further, hfs, e, left, he, rfl, rfl⟩
    exact ⟨ds, after, fs, further, e, hds, hfs, he, rfl⟩
  · rintro ⟨ds, after, fs, further, e, hds, hfs, he, rfl⟩
    exact ⟨ds, after, hds, fs, further, hfs, e, left, he, rfl, rfl⟩

theorem unsigned_append (h : EndsNumber rest) {negative : Bool} {cs : List Char} {n : JsonNumber}
    (hcs : unsigned negative cs = some (n, [])) :
    unsigned negative (cs ++ rest) = some (n, rest) := by
  obtain ⟨ds, after, fs, further, e, hds, hfs, he, rfl⟩ := unsigned_eq_some.mp hcs
  exact unsigned_eq_some.mpr ⟨ds, after ++ rest, fs, further ++ rest, e, whole?_append h hds,
    fraction?_append h hfs, exponent?_append h he, rfl⟩

/-- A number that is a whole text is read the same in front of what ends it. -/
theorem number_append (h : EndsNumber rest) {cs : List Char} {n : JsonNumber}
    (hcs : number cs = some (n, [])) : number (cs ++ rest) = some (n, rest) := by
  cases cs with
  | nil => cases hcs
  | cons c cs =>
      by_cases hc : c = '-'
      · subst hc
        exact unsigned_append h hcs
      · rw [number_of_ne hc] at hcs
        rw [List.cons_append, number_of_ne hc]
        exact unsigned_append h hcs

/-- What a number starts with. -/
theorem head_of_number {c : Char} {cs : List Char} {r : JsonNumber × List Char}
    (hcs : number (c :: cs) = some r) : c = '-' ∨ c.isDigit := by
  by_cases hminus : c = '-'
  · exact .inl hminus
  · rw [number_of_ne hminus] at hcs
    obtain ⟨ds, after, -, -, -, hds, -⟩ := unsigned_eq_some.mp hcs
    by_cases hzero : c = '0'
    · subst hzero
      exact .inr rfl
    · rw [whole?_of_ne hzero] at hds
      by_cases hdigit : c.isDigit
      · exact .inr hdigit
      · simp [hdigit] at hds

theorem ofDigits_toDigits (n : Nat) : Numeral.ofDigits (Nat.toDigits 10 n) = n :=
  Nat.ofDigitChars_ten_toDigits

theorem exists_toDigits_eq_cons (n : Nat) : ∃ c cs, Nat.toDigits 10 n = c :: cs :=
  List.exists_cons_of_ne_nil Nat.toDigits_ne_nil

/-- Only zero is written with a zero in front. -/
theorem head_toDigits_ne_zero {n : Nat} (hn : 0 < n) : (Nat.toDigits 10 n).head? ≠ some '0' := by
  induction n using Nat.strongRecOn with
  | ind n ih =>
      rw [Nat.toDigits_eq_if (by decide)]
      split
      · rename_i hlt
        have hdigit : ∀ d < 10, 0 < d → [d.digitChar].head? ≠ some '0' := by decide
        exact hdigit n hlt hn
      · have hhead := ih (n / 10) (by omega) (by omega)
        obtain ⟨c, cs, hcs⟩ := exists_toDigits_eq_cons (n / 10)
        rw [hcs] at hhead ⊢
        exact hhead

theorem whole?_toDigits (n : Nat) :
    whole? (Nat.toDigits 10 n) = some (Nat.toDigits 10 n, []) := by
  cases n with
  | zero => rfl
  | succ n =>
      have hhead := head_toDigits_ne_zero (Nat.succ_pos n)
      have hdigits : ∀ c ∈ Nat.toDigits 10 (n + 1), c.isDigit :=
        fun c hc => Nat.isDigit_of_mem_toDigits (by decide) (by decide) hc
      obtain ⟨c, cs, hcs⟩ := exists_toDigits_eq_cons (n + 1)
      rw [hcs] at hhead hdigits ⊢
      have hdrop : (c :: cs ++ []).dropWhile Char.isDigit = [] :=
        List.dropWhile_append_of_pos hdigits
      have htake : (c :: cs ++ []).takeWhile Char.isDigit = c :: cs ++ [] :=
        List.takeWhile_append_of_pos hdigits
      rw [List.append_nil] at hdrop htake
      rw [whole?_of_ne (by simpa using hhead), htake, hdrop]
      rfl

theorem number_toDigits (n : Nat) : number (Nat.toDigits 10 n) = some (.integer false n, []) := by
  obtain ⟨c, cs, hcs⟩ := exists_toDigits_eq_cons n
  have hc : c ≠ '-' := by
    rintro rfl
    have hdigit := Nat.isDigit_of_mem_toDigits (b := 10) (n := n) (c := '-') (by decide) (by decide)
      (by simp [hcs])
    simp at hdigit
  have hwhole := whole?_toDigits n
  have hvalue : Numeral.value ⟨false, Nat.toDigits 10 n, [], none⟩ = .integer false n := by
    simp [Numeral.value, ofDigits_toDigits]
  rw [hcs] at hwhole hvalue ⊢
  rw [number_of_ne hc]
  exact unsigned_eq_some.mpr ⟨c :: cs, [], [], [], none, hwhole, rfl, rfl, hvalue.symm⟩

end Reader

end Json

end TypeResolution
