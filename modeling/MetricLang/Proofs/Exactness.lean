-- SUMMARY: Which printed numbers are read back as the very same number.
import MetricLang.Proofs.NumberText

/-!
# Exact numbers

Fifteen places are enough for a whole number, which needs none, and for any number from
eight on: there two doubles are further apart than a unit of the last place, so that the
number read back can be no other than the one that was printed. Below eight only the
text stays as it is.
-/

namespace MetricLang

namespace Double

-- ---------------------------------------------------------------------------
-- The sign of zero
-- ---------------------------------------------------------------------------

/-- No number prints as zero with a sign: the sign is there only if some digit counts. -/
theorem finiteText_ne_minus_zero (d : Double) : d.finiteText ≠ ['-', '0'] := by
  intro htext
  obtain ⟨c, z, k, hvalue, _, hread⟩ := decimal_finiteText d
  rw [htext] at hread
  have hzero : Decimal.read? ['-', '0'] = some ⟨true, 0, 0⟩ := by decide
  rw [hzero, Option.some.injEq, Decimal.mk.injEq] at hread
  obtain ⟨hnegative, rfl, _⟩ := hread
  rw [Nat.zero_mul] at hvalue
  simp [← hvalue] at hnegative

-- ---------------------------------------------------------------------------
-- Values
-- ---------------------------------------------------------------------------

/-- From eight on, a value is whole, or a multiple of a unit that is larger than the last
    place, and not the least value with that unit. -/
theorem exists_unit_of_le {d : Double} (h : 8 * one ≤ d.units) :
    one ∣ d.units ∨ ∃ e f, one < 2 ^ e * 10 ^ places ∧ 0 < f ∧ d.units = (2 ^ 52 + f) * 2 ^ e := by
  rw [units] at h ⊢
  obtain hm | ⟨e, f, hf, hm⟩ := magnitude_cases d.magnitude
  · rw [unitsOf_subnormal hm] at h
    have hsmall := two_pow_le_one (k := 52) (by decide)
    have hpos := one_pos
    omega
  · rw [hm, unitsOf_normal e hf] at h ⊢
    have he : 1025 ≤ e := by
      by_contra hlt
      have hsmall : (2 ^ 52 + f) * 2 ^ e < 8 * 2 ^ (50 + e) := by
        have hpow : 8 * 2 ^ (50 + e) = 2 ^ 53 * 2 ^ e := by ring
        rw [hpow]
        exact Nat.mul_lt_mul_of_pos_right (by omega) (Nat.two_pow_pos e)
      have hone := two_pow_le_one (k := 50 + e) (by omega)
      omega
    cases f with
    | zero =>
      left
      rw [Nat.add_zero, ← Nat.pow_add]
      exact one_dvd_two_pow (by omega)
    | succ f =>
      refine .inr ⟨e, f + 1, ?_, Nat.succ_pos f, rfl⟩
      calc one ≤ 2 ^ (e + 49) := one_le_two_pow (by omega)
        _ = 2 ^ e * 2 ^ 49 := Nat.pow_add 2 e 49
        _ < 2 ^ e * 10 ^ places := (Nat.mul_lt_mul_left (Nat.two_pow_pos e)).mpr (by decide)

/-- Two multiples of a unit that are less than it apart are one. -/
theorem eq_of_multiples {v w unit : Nat} (hlt : v * unit < w * unit + unit)
    (hlt' : w * unit < v * unit + unit) : v = w := by
  rw [← Nat.succ_mul] at hlt hlt'
  have := Nat.lt_of_mul_lt_mul_right hlt
  have := Nat.lt_of_mul_lt_mul_right hlt'
  omega

/-- What is read back is within a unit of the last place of what was printed. -/
theorem nearestMagnitude_scaled_within (d : Double) :
    unitsOf (nearestMagnitude d.scaled (10 ^ places)) * 10 ^ places ≤ d.units * 10 ^ places + one ∧
      d.units * 10 ^ places ≤ unitsOf (nearestMagnitude d.scaled (10 ^ places)) * 10 ^ places + one := by
  have hclose := distance_nearestMagnitude_scaled d
  have hround := (roundDiv_eq_iff one_pos).mp (scaled_eq d).symm
  simp only [distance] at hclose hround
  generalize unitsOf (nearestMagnitude d.scaled (10 ^ places)) * 10 ^ places = u at hclose
  generalize d.units * 10 ^ places = v at hclose hround
  omega

/-- A whole number is printed as it is. -/
theorem distance_scaled_of_dvd {d : Double} (h : one ∣ d.units) :
    distance (d.units * 10 ^ places) one d.scaled = 0 := by
  obtain ⟨n, hn⟩ := h
  have hexact : distance (d.units * 10 ^ places) one (n * 10 ^ places) = 0 := by
    have hvalue : d.units * 10 ^ places = n * 10 ^ places * one := by rw [hn]; ring
    rw [distance, hvalue]
    simp
  have hle := roundDiv_nearest (a := d.units * 10 ^ places) one_pos (n * 10 ^ places)
  rw [← scaled_eq] at hle
  omega

/-- What is nearest to the digits of a number that is whole, or at least eight, is the
    number. -/
theorem unitsOf_nearestMagnitude_scaled {d : Double} (h : one ∣ d.units ∨ 8 * one ≤ d.units) :
    unitsOf (nearestMagnitude d.scaled (10 ^ places)) = d.units := by
  have hplaces : 0 < 10 ^ places := by decide
  obtain hwhole | ⟨e, f, hunit, hf, hunits⟩ : one ∣ d.units ∨ ∃ e f,
      one < 2 ^ e * 10 ^ places ∧ 0 < f ∧ d.units = (2 ^ 52 + f) * 2 ^ e :=
    h.elim .inl exists_unit_of_le
  · have hclose := distance_nearestMagnitude_scaled d
    have hexact := distance_scaled_of_dvd hwhole
    refine Nat.eq_of_mul_eq_mul_right hplaces ?_
    simp only [distance] at hclose hexact
    omega
  · obtain ⟨hle, hle'⟩ := nearestMagnitude_scaled_within d
    generalize nearestMagnitude d.scaled (10 ^ places) = m at hle hle' ⊢
    have hlt : unitsOf m < d.units + 2 ^ e := by
      refine Nat.lt_of_mul_lt_mul_right (a := 10 ^ places) ?_
      rw [Nat.add_mul]
      omega
    have hlt' : d.units < unitsOf m + 2 ^ e := by
      refine Nat.lt_of_mul_lt_mul_right (a := 10 ^ places) ?_
      rw [Nat.add_mul]
      omega
    -- the number read back is no smaller than the least value with the unit, so it has it too
    have hleast : 2 ^ (52 + e) ≤ unitsOf m := by
      have hmul : (2 ^ 52 + 1) * 2 ^ e ≤ (2 ^ 52 + f) * 2 ^ e := Nat.mul_le_mul_right _ (by omega)
      rw [Nat.pow_add]
      rw [Nat.add_mul, ← hunits] at hmul
      omega
    obtain ⟨v, hv⟩ := exists_eq_mul_of_le_unitsOf hleast
    rw [hunits] at hlt hlt' ⊢
    rw [hv] at hlt hlt' ⊢
    rw [eq_of_multiples hlt hlt']

/-- A number that prints as zero and is whole, or at least eight, is zero. -/
theorem isZero_of_scaled {d : Double} (h : one ∣ d.units ∨ 8 * one ≤ d.units) (hzero : d.scaled = 0) :
    d.isZero := by
  have hunits := unitsOf_nearestMagnitude_scaled h
  rw [hzero] at hunits
  have hnearest : nearestMagnitude 0 (10 ^ places) = 0 := by decide
  rw [hnearest] at hunits
  exact decide_eq_true (unitsOf_injective hunits).symm

/-- A number that is whole, or at least eight, is read back from its text as it was. -/
theorem eq_of_read?_text {d y : Double} (h : d.isFinite) (hread : read? d.text.toList = some y)
    (hexact : one ∣ d.units ∨ 8 * one ≤ d.units) : y == d := by
  have hy := isFinite_of_read? hread
  have hequal : (y == d) = ((y.isZero && d.isZero) || y = d) := by
    show equal y d = _
    simp [equal, isNaN_of_isFinite h, isNaN_of_isFinite hy]
  rw [hequal, Bool.or_eq_true, Bool.and_eq_true, decide_eq_true_eq]
  obtain ⟨hzero, hread'⟩ | ⟨_, d', hread', hnegative, hmagnitude⟩ := read?_text_cases h
  · rw [hread, Option.some.injEq] at hread'
    exact .inl ⟨by rw [hread']; rfl, isZero_of_scaled hexact hzero⟩
  · rw [hread, Option.some.injEq] at hread'
    subst hread'
    have hsame : y.magnitude = d.magnitude := by
      rw [hmagnitude]
      exact unitsOf_injective (unitsOf_nearestMagnitude_scaled hexact)
    obtain ⟨_, _, _⟩ := y
    obtain ⟨_, _, _⟩ := d
    simp_all

/-- The text of a finite double is one number for the lexer, in fixed notation and never
    zero with a sign. It is read back as a number that prints alike, and as the very same
    number if that is whole or at least eight. -/
theorem text_stable {d : Double} (h : d.isFinite) :
    readNumber? d.text.toList = some (d.text.toList, []) ∧ IsFixed d.text.toList ∧ d.text ≠ "-0" ∧
      ∃ y, read? d.text.toList = some y ∧ y.text = d.text ∧
        (one ∣ d.units ∨ 8 * one ≤ d.units → y == d) := by
  obtain ⟨y, hread, htext, _⟩ := exists_read?_text h
  refine ⟨?_, ?_, fun hzero => ?_, y, hread, htext, eq_of_read?_text h hread⟩
  · rw [toList_text h]
    exact d.isNumeral_finiteText.readNumber?
  · rw [toList_text h]
    exact d.isFixed_finiteText
  · have := toList_text h
    rw [hzero] at this
    exact d.finiteText_ne_minus_zero this.symm

/-- For instance a negative number beyond eight that has fifteen places. -/
theorem text_stable_negative :
    let d := ofBits 0xc021800000000001
    d.isFinite ∧ d.text = "-8.750000000000002" ∧ 8 * one ≤ d.units ∧
      readNumber? d.text.toList = some (d.text.toList, []) ∧ IsFixed d.text.toList ∧ d.text ≠ "-0" ∧
      ∃ y, read? d.text.toList = some y ∧ y.text = d.text ∧
        (one ∣ d.units ∨ 8 * one ≤ d.units → y == d) := by
  intro d
  have hfinite : d.isFinite := by decide
  exact ⟨hfinite, by decide +kernel, by decide +kernel, text_stable hfinite⟩

end Double

end MetricLang
