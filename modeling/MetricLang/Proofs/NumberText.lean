-- SUMMARY: Printed numbers are read back as numbers that print alike.
import MetricLang.Proofs.Nearest
import MetricLang.Proofs.Numerals

/-!
# Reading printed numbers

Fifteen places do not tell all doubles apart, so a printed number can be read back as
another one. It is never further from what was printed than the first, and so it
prints in the same way (`Double.exists_read?_text`).
-/

namespace MetricLang

-- ---------------------------------------------------------------------------
-- Digits
-- ---------------------------------------------------------------------------

namespace Double

theorem ofDigitChars_lastDigits (k n m : Nat) :
    Nat.ofDigitChars 10 (lastDigits k n) m = m * 10 ^ k + n % 10 ^ k := by
  induction k generalizing n with
  | zero => simp [lastDigits, Nat.mod_one]
  | succ k ih =>
    have hmod : n % 10 ^ (k + 1) = n % 10 + 10 * (n / 10 % 10 ^ k) := by
      rw [Nat.pow_succ', Nat.mod_mul]
    rw [lastDigits, Nat.ofDigitChars_append, ih,
      Nat.ofDigitChars_cons_digitChar_of_lt_ten (Nat.mod_lt n (by decide)), Nat.ofDigitChars_nil, hmod]
    ring

/-- Only zeros are dropped. -/
theorem exists_eq_trimZeros_append (cs : List Char) :
    ∃ z, cs = trimZeros cs ++ List.replicate z '0' := by
  have hcs := congrArg List.reverse (List.takeWhile_append_dropWhile (p := (· = '0')) (l := cs.reverse))
  rw [List.reverse_append, List.reverse_reverse] at hcs
  have hzeros : cs.reverse.takeWhile (· = '0') =
      List.replicate (cs.reverse.takeWhile (· = '0')).length '0' :=
    List.eq_replicate_iff.mpr ⟨rfl, fun c hc => by simpa using List.mem_takeWhile_imp hc⟩
  refine ⟨(cs.reverse.takeWhile (· = '0')).length, ?_⟩
  conv_lhs => rw [← hcs, hzeros, List.reverse_replicate]
  rfl

/-- The digits that print stand for the scaled number, but for zeros left out. -/
theorem exists_placesText (n : Nat) : ∃ cs z, (∀ c ∈ cs, c.isDigit) ∧ cs.length + z = places ∧
    placesText n = (if cs = [] then [] else '.' :: cs) ∧
    Nat.ofDigitChars 10 (Nat.toDigits 10 (n / 10 ^ places) ++ cs) 0 * 10 ^ z = n := by
  obtain ⟨z, hz⟩ := exists_eq_trimZeros_append (lastDigits places n)
  refine ⟨trimZeros (lastDigits places n), z,
    isDigit_of_mem_trimZeros fun c hc => isDigit_of_mem_lastDigits hc, ?_, ?_, ?_⟩
  · have := congrArg List.length hz
    rw [List.length_append, List.length_replicate, length_lastDigits] at this
    exact this.symm
  · rw [placesText]
    cases trimZeros (lastDigits places n) <;> rfl
  · have hdigits := ofDigitChars_lastDigits places n (n / 10 ^ places)
    rw [hz, Nat.ofDigitChars_append, Nat.ofDigitChars_replicate_zero, Nat.mul_comm (n / _),
      Nat.div_add_mod] at hdigits
    rw [Nat.ofDigitChars_append, Nat.ofDigitChars_ten_toDigits, Nat.mul_comm]
    exact hdigits

end Double

-- ---------------------------------------------------------------------------
-- Numerals
-- ---------------------------------------------------------------------------

theorem Decimal.read?_numeral {sign whole places : List Char} (hsign : sign = [] ∨ sign = ['-'])
    (hne : whole ≠ []) (hwhole : ∀ c ∈ whole, c.isDigit) (hplaces : ∀ c ∈ places, c.isDigit) :
    read? (sign ++ whole ++ if places = [] then [] else '.' :: places) =
      some ⟨sign = ['-'], Nat.ofDigitChars 10 (whole ++ places) 0, -(places.length : Int)⟩ := by
  have htake : takeSign (sign ++ (whole ++ if places = [] then [] else '.' :: places)) =
      (decide (sign = ['-']), whole ++ if places = [] then [] else '.' :: places) := by
    obtain ⟨d, ds, rfl⟩ := List.exists_cons_of_ne_nil hne
    have hd := hwhole d List.mem_cons_self
    have hplus : d ≠ '+' := by rintro rfl; cases hd
    have hminus : d ≠ '-' := by rintro rfl; cases hd
    obtain rfl | rfl := hsign
    · simp [takeSign, hplus, hminus]
    · rfl
  have hhead : (if places = [] then [] else '.' :: places).head?.all (!Char.isDigit ·) := by
    split <;> rfl
  have hsplit : splitPlaces (if places = [] then [] else '.' :: places) = (places, []) := by
    split
    · next h => rw [h]; rfl
    · simp [splitPlaces, List.takeWhile_eq_self_iff.mpr hplaces,
        List.dropWhile_eq_nil_iff.mpr hplaces]
  rw [List.append_assoc, read?]
  simp only [htake, takeWhile_append_of_head hhead, dropWhile_append_of_head hhead,
    List.takeWhile_eq_self_iff.mpr hwhole, List.dropWhile_eq_nil_iff.mpr hwhole, List.nil_append,
    hsplit, hne, false_and, if_false, readExponent?, Option.map_some, ofDigits]
  simp

namespace Double

/-- A quotient and its multiples have the same nearest magnitude. -/
theorem nearestMagnitude_mul_right {num den c : Nat} (hc : 0 < c) :
    nearestMagnitude (num * c) (den * c) = nearestMagnitude num den := by
  have hscaled : (num * c) <<< 1074 = num <<< 1074 * c := by
    rw [Nat.shiftLeft_eq, Nat.shiftLeft_eq, Nat.mul_right_comm]
  have hden : ∀ shift, (den * c) <<< shift = den <<< shift * c := by
    intro shift
    rw [Nat.shiftLeft_eq, Nat.shiftLeft_eq, Nat.mul_right_comm]
  simp only [nearestMagnitude, hscaled, Nat.mul_div_mul_right _ _ hc, hden, roundDiv_mul_right hc]

-- ---------------------------------------------------------------------------
-- Finite values
-- ---------------------------------------------------------------------------

theorem scaled_eq (d : Double) : d.scaled = roundDiv (d.units * 10 ^ places) one := rfl

/-- What is read is at least as near to the printed number as what was printed. -/
theorem distance_nearestMagnitude_scaled (d : Double) :
    distance (unitsOf (nearestMagnitude d.scaled (10 ^ places)) * 10 ^ places) one d.scaled ≤
      distance (d.units * 10 ^ places) one d.scaled := by
  have hcomm : ∀ u, distance (u * 10 ^ places) one d.scaled =
      distance (d.scaled * one) (10 ^ places) u := by
    intro u
    simp only [distance]
    push_cast
    omega
  rw [hcomm, hcomm]
  exact nearestMagnitude_nearest (by decide) d.magnitude

/-- What is read scales alike. -/
theorem scaled_nearestMagnitude (d : Double) :
    roundDiv (unitsOf (nearestMagnitude d.scaled (10 ^ places)) * 10 ^ places) one = d.scaled :=
  roundDiv_of_closer one_pos (scaled_eq d).symm (distance_nearestMagnitude_scaled d)

/-- What is read is finite if what was printed is. -/
theorem nearestMagnitude_scaled_lt {d : Double} (h : d.isFinite) :
    nearestMagnitude d.scaled (10 ^ places) < infinity := by
  by_contra hge
  have hgap := unitsOf_add_one_le (of_decide_eq_true h) (Nat.le_of_not_lt hge)
  have hclose := distance_nearestMagnitude_scaled d
  have hround := (roundDiv_eq_iff one_pos).mp (scaled_eq d).symm
  have hplaces : 10 ^ places = 1000000000000000 := rfl
  rw [hplaces] at hclose hround
  simp only [distance] at hclose hround
  rw [hplaces] at hgap
  have hpos := one_pos
  change d.units + one ≤ _ at hgap
  generalize unitsOf (nearestMagnitude d.scaled 1000000000000000) = u at *
  generalize d.units = v at *
  generalize (d.scaled * one : Int) = x at *
  generalize one = k at *
  omega

/-- The digits of a finite double stand for its scaled value. -/
theorem decimal_finiteText (d : Double) : ∃ c z k, c * 10 ^ z = d.scaled ∧ k + z = places ∧
    Decimal.read? d.finiteText = some ⟨d.negative ∧ d.scaled ≠ 0, c, -(k : Int)⟩ := by
  obtain ⟨cs, z, hcs, hlength, hplaces, hvalue⟩ := exists_placesText d.scaled
  refine ⟨_, z, cs.length, hvalue, hlength, ?_⟩
  have hpow : Nat.pow 10 places = 10 ^ places := rfl
  rw [finiteText, hplaces, hpow, Decimal.read?_numeral _ Nat.toDigits_ne_nil
    (fun c hc => Nat.isDigit_of_mem_toDigits (by decide) (by decide) hc) hcs]
  · split <;> simp_all
  · split
    · exact .inr rfl
    · exact .inl rfl

theorem text_eq_of_scaled {d d' : Double} (h : d.isFinite) (h' : d'.isFinite)
    (hsign : (d'.negative ∧ d'.scaled ≠ 0) ↔ (d.negative ∧ d.scaled ≠ 0))
    (hscaled : d'.scaled = d.scaled) : d'.text = d.text := by
  rw [← String.toList_inj, toList_text h, toList_text h', finiteText, finiteText]
  rw [hscaled] at hsign ⊢
  simp only [hsign]

/-- What the text of a finite double is read as: zero if all of its digits are, else the
    number nearest to them. -/
theorem read?_text_cases {d : Double} (h : d.isFinite) :
    (d.scaled = 0 ∧ read? d.text.toList = some (.zero false)) ∨
      (d.scaled ≠ 0 ∧ ∃ d', read? d.text.toList = some d' ∧ d'.negative = d.negative ∧
        d'.magnitude = nearestMagnitude d.scaled (10 ^ places)) := by
  obtain ⟨c, z, k, hvalue, hlength, hread⟩ := decimal_finiteText d
  rw [toList_text h, read?, hread, Option.bind_some, Decimal.toDouble?]
  by_cases hc : c = 0
  · have hscaled : d.scaled = 0 := by rw [← hvalue, hc, Nat.zero_mul]
    exact .inl ⟨hscaled, by simp [hc, hscaled]⟩
  · have hk : k ≤ 15 := Nat.le.intro hlength
    have hmagnitude : nearestMagnitude c (10 ^ k) = nearestMagnitude d.scaled (10 ^ places) := by
      rw [← hvalue, ← hlength, Nat.pow_add, nearestMagnitude_mul_right (Nat.pow_pos (by decide))]
    have hlt := nearestMagnitude_scaled_lt h
    rw [← hmagnitude] at hlt
    have hne : d.scaled ≠ 0 := by
      rw [← hvalue]
      exact Nat.mul_ne_zero hc (Nat.pow_pos (by decide)).ne'
    have hfar : ¬ (c.log2 + 325 : Int) ≤ -(-(k : Int)) := by omega
    have hexponent : ¬ 309 ≤ -(k : Int) := by omega
    have hnum : (-(k : Int)).toNat = 0 := by omega
    have hden : (-(-(k : Int))).toNat = k := by omega
    have hpow : ∀ n, Nat.pow 10 n = 10 ^ n := fun _ => rfl
    refine .inr ⟨hne, ⟨d.negative, nearestMagnitude c (10 ^ k), Nat.lt_trans hlt (by decide)⟩, ?_, rfl,
      hmagnitude⟩
    simp only [hc, hfar, hexponent, hnum, hden, or_self, if_false, nearest?, hpow, Nat.pow_zero,
      Nat.mul_one, hlt, dif_pos, hne, ne_eq, not_false_eq_true, and_true, Bool.decide_eq_true]

/-- A finite double is read back from its text as one with the same text. -/
theorem exists_read?_text {d : Double} (h : d.isFinite) :
    ∃ d' : Double, read? d.text.toList = some d' ∧ d'.text = d.text ∧ d'.isFinite := by
  obtain ⟨hzero, hread⟩ | ⟨_, d', hread, hnegative, hmagnitude⟩ := read?_text_cases h
  · refine ⟨_, hread, text_eq_of_scaled h rfl ?_ ?_, rfl⟩
    · simp [hzero, zero]
    · have hunits : (zero false).units = 0 := rfl
      simp [hzero, scaled_eq, hunits, roundDiv, one_pos]
  · have hfinite : d'.isFinite := by
      rw [isFinite, hmagnitude, decide_eq_true_iff]
      exact nearestMagnitude_scaled_lt h
    have hscaled : d'.scaled = d.scaled := by
      rw [scaled_eq d', units, hmagnitude]
      exact scaled_nearestMagnitude d
    refine ⟨d', hread, text_eq_of_scaled h hfinite ?_ hscaled, hfinite⟩
    rw [hnegative, hscaled]

/-- What the printed number is read as. -/
def reread (d : Double) : Double := (read? d.text.toList).getD d

section

variable {d : Double}

theorem read?_text (h : d.isFinite) : read? d.text.toList = some d.reread := by
  obtain ⟨d', hread, _⟩ := exists_read?_text h
  rw [reread, hread]
  rfl

/-- Only finite numbers are read. -/
theorem isFinite_of_read? {cs : List Char} (h : read? cs = some d) : d.isFinite := by
  obtain ⟨n, _, hn⟩ := Option.bind_eq_some_iff.mp h
  unfold Decimal.toDouble? at hn
  split at hn
  · cases hn
    rfl
  · split at hn
    · cases hn
    · unfold nearest? at hn
      dsimp only at hn
      split at hn
      · next hlt =>
        cases hn
        exact decide_eq_true hlt
      · cases hn

end

-- ---------------------------------------------------------------------------
-- Signs
-- ---------------------------------------------------------------------------

/-- The number with the given sign. -/
def withSign (negative : Bool) (d : Double) : Double := ⟨negative, d.magnitude, d.magnitude_lt⟩

theorem toDouble?_withSign (negative : Bool) (n : Decimal) :
    Decimal.toDouble? { n with negative } = (Decimal.toDouble? n).map (withSign negative) := by
  unfold Decimal.toDouble? nearest?
  dsimp only
  split
  · rfl
  · split
    · rfl
    · split <;> rfl

/-- Does the text begin with no sign? -/
def Unsigned (cs : List Char) : Bool := cs.head?.all fun c => c != '+' && c != '-'

theorem takeSign_of_unsigned {cs : List Char} (h : Unsigned cs) :
    Decimal.takeSign cs = (false, cs) := by
  unfold Decimal.takeSign
  split
  · simp [Unsigned] at h
  · simp [Unsigned] at h
  · rfl

/-- A sign in front of a numeral is the sign of the number. -/
theorem read?_sign {sign : Char} {cs : List Char} (hsign : sign = '+' ∨ sign = '-')
    (hcs : Unsigned cs) : read? (sign :: cs) = (read? cs).map (withSign (sign = '-')) := by
  have htake : Decimal.takeSign (sign :: cs) = (decide (sign = '-'), cs) := by
    obtain rfl | rfl := hsign <;> rfl
  unfold read? Decimal.read?
  simp only [htake, takeSign_of_unsigned hcs]
  split
  · rfl
  · cases Decimal.readExponent? _ with
    | none => rfl
    | some e => simp [← toDouble?_withSign]

theorem negative_of_read? {d : Double} {cs : List Char} (hcs : Unsigned cs)
    (h : read? cs = some d) : d.negative = false := by
  obtain ⟨n, hn, hd⟩ := Option.bind_eq_some_iff.mp h
  have hnegative : n.negative = false := by
    simp only [Decimal.read?, takeSign_of_unsigned hcs] at hn
    split at hn
    · cases hn
    · obtain ⟨e, _, rfl⟩ := Option.map_eq_some_iff.mp hn
      rfl
  have hsame : { n with negative := false } = n := by rw [← hnegative]
  rw [← hsame, toDouble?_withSign] at hd
  obtain ⟨_, _, rfl⟩ := Option.map_eq_some_iff.mp hd
  rfl

/-- What prints with a sign prints without it as the number that has none. -/
theorem text_of_withSign {d : Double} {sign : Char} {cs : List Char} (h : d.isFinite)
    (hnegative : d.negative = false) (hsign : sign = '+' ∨ sign = '-')
    (htext : (d.withSign (sign = '-')).text.toList = sign :: cs) : d.text.toList = cs := by
  have hfinite : (d.withSign (sign = '-')).isFinite := h
  have hscaled : (d.withSign (sign = '-')).scaled = d.scaled := rfl
  obtain ⟨c, ds, hds⟩ := List.exists_cons_of_ne_nil
    (Nat.toDigits_ne_nil (n := d.scaled / Nat.pow 10 places) (b := 10))
  have hc : c.isDigit := Nat.isDigit_of_mem_toDigits (by decide) (by decide)
    (hds ▸ List.mem_cons_self)
  rw [toList_text hfinite, finiteText, hscaled, hds] at htext
  rw [toList_text h, finiteText, hnegative, hds]
  split at htext
  · simpa using (List.cons.inj htext).2
  · obtain ⟨rfl, _⟩ := List.cons.inj htext
    obtain rfl | rfl := hsign <;> cases hc

end Double

end MetricLang
