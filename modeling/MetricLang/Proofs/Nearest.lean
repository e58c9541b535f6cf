-- SUMMARY: Rounding is to the nearest: of whole numbers, and of doubles.
import Mathlib.Tactic.Linarith
import Mathlib.Tactic.Ring
import MetricLang.Double.Rounding

/-!
# Rounding to the nearest

`roundDiv` is told from all other whole numbers by being no further than a half from
the quotient, and even at a half. The magnitude that `Double.nearestMagnitude` finds
is as near to the quotient as any (`Double.nearestMagnitude_nearest`).
-/

namespace MetricLang

-- ---------------------------------------------------------------------------
-- Whole numbers
-- ---------------------------------------------------------------------------

/-- How far `s` is from `a / b`, in units of `1 / b`. -/
def distance (a b s : Nat) : Nat := ((a : Int) - s * b).natAbs

theorem roundDiv_eq_iff {a b s : Nat} (hb : 0 < b) :
    roundDiv a b = s ↔ 2 * distance a b s < b ∨ (2 * distance a b s = b ∧ s % 2 = 0) := by
  have ha : a = b * (a / b) + a % b := (Nat.div_add_mod a b).symm
  have hr : a % b < b := Nat.mod_lt a hb
  have hround : roundDiv a b = if 2 * (a % b) < b ∨ (2 * (a % b) = b ∧ a / b % 2 = 0) then a / b
      else a / b + 1 := rfl
  rw [hround]
  generalize a / b = q, a % b = r at ha hr
  have hdistance : distance a b s = ((q * b + r : Nat) - (s * b : Nat) : Int).natAbs := by
    rw [distance, ha, Nat.mul_comm b q]
    push_cast
    rfl
  rw [hdistance]
  obtain hs | rfl | rfl | hs : s + 1 ≤ q ∨ s = q ∨ s = q + 1 ∨ q + 2 ≤ s := by omega
  · have hle := Nat.mul_le_mul_right b hs
    rw [Nat.add_mul, Nat.one_mul] at hle
    split <;> omega
  · split <;> omega
  · rw [Nat.add_mul, Nat.one_mul]
    split <;> omega
  · have hle := Nat.mul_le_mul_right b hs
    rw [Nat.add_mul] at hle
    split <;> omega

/-- No whole number is nearer to a quotient than the one that it is rounded to. -/
theorem roundDiv_nearest {a b : Nat} (hb : 0 < b) (s : Nat) :
    distance a b (roundDiv a b) ≤ distance a b s := by
  by_contra hlt
  have h := (roundDiv_eq_iff hb).mp (rfl : roundDiv a b = roundDiv a b)
  have hs : roundDiv a b = s := (roundDiv_eq_iff hb).mpr (.inl (by omega))
  rw [hs] at hlt
  exact hlt (Nat.le_refl _)

/-- What is as near to `s` as a quotient that is rounded to it, is rounded to it as well. -/
theorem roundDiv_of_closer {a a' b s : Nat} (hb : 0 < b) (h : roundDiv a b = s)
    (hle : distance a' b s ≤ distance a b s) : roundDiv a' b = s := by
  rw [roundDiv_eq_iff hb] at h ⊢
  omega

theorem roundDiv_mul_right {a b c : Nat} (hc : 0 < c) :
    roundDiv (a * c) (b * c) = roundDiv a b := by
  simp only [roundDiv, Nat.mul_div_mul_right a b hc, Nat.mul_mod_mul_right, ← Nat.mul_assoc,
    Nat.mul_lt_mul_right hc, Nat.mul_right_cancel_iff hc]

theorem div_le_roundDiv (a b : Nat) : a / b ≤ roundDiv a b := by
  simp only [roundDiv]
  split <;> omega

theorem roundDiv_le (a b : Nat) : roundDiv a b ≤ a / b + 1 := by
  simp only [roundDiv]
  split <;> omega

theorem distance_mul (a b c s : Nat) : distance a b (s * c) = distance a (b * c) s := by
  simp only [distance]
  push_cast
  ring_nf

/-- Below a quotient, the larger number is the nearer one. -/
theorem distance_le_of_le {a b s t : Nat} (hst : s ≤ t) (hta : t * b ≤ a) :
    distance a b t ≤ distance a b s := by
  have hle : (s * b : Int) ≤ t * b := by exact_mod_cast Nat.mul_le_mul_right b hst
  have hle' : (t * b : Int) ≤ a := by exact_mod_cast hta
  simp only [distance]
  omega

-- ---------------------------------------------------------------------------
-- Doubles
-- ---------------------------------------------------------------------------

namespace Double

/-- One, in the units of values. -/
def one : Nat := 1 <<< 1074

theorem shiftLeft_eq_mul_one (n : Nat) : n <<< 1074 = n * one := by
  rw [one, Nat.one_shiftLeft, Nat.shiftLeft_eq]

theorem one_le_two_pow {k : Nat} (h : 1074 ≤ k) : one ≤ 2 ^ k := by
  generalize he : 1074 = e at h
  rw [one, he, Nat.one_shiftLeft]
  exact Nat.pow_le_pow_right (by decide) h

theorem one_dvd_two_pow {k : Nat} (h : 1074 ≤ k) : one ∣ 2 ^ k := by
  generalize he : 1074 = e at h
  rw [one, he, Nat.one_shiftLeft]
  exact Nat.pow_dvd_pow 2 h

theorem two_pow_le_one {k : Nat} (h : k ≤ 1074) : 2 ^ k ≤ one := by
  generalize he : 1074 = e at h
  rw [one, he, Nat.one_shiftLeft]
  exact Nat.pow_le_pow_right (by decide) h

theorem one_pos : 0 < one := Nat.lt_of_lt_of_le Nat.one_pos (two_pow_le_one (Nat.zero_le 1074))

theorem exponentBit_eq : exponentBit = 2 ^ 52 := by decide

theorem unitsOf_subnormal {f : Nat} (hf : f < 2 ^ 52) : unitsOf f = f := by
  rw [unitsOf, exponentBit_eq, Nat.div_eq_of_lt hf, Nat.mod_eq_of_lt hf]
  rfl

theorem unitsOf_normal (e : Nat) {f : Nat} (hf : f < 2 ^ 52) :
    unitsOf ((e + 1) * 2 ^ 52 + f) = (2 ^ 52 + f) * 2 ^ e := by
  have hdiv : ((e + 1) * 2 ^ 52 + f) / 2 ^ 52 = e + 1 := by omega
  have hmod : ((e + 1) * 2 ^ 52 + f) % 2 ^ 52 = f := by omega
  rw [unitsOf, exponentBit_eq, hdiv, hmod, if_neg (Nat.succ_ne_zero e), Nat.shiftLeft_eq,
    Nat.add_sub_cancel]

/-- Every magnitude is one or the other. -/
theorem magnitude_cases (m : Nat) : m < 2 ^ 52 ∨ ∃ e f, f < 2 ^ 52 ∧ m = (e + 1) * 2 ^ 52 + f := by
  by_cases h : m < 2 ^ 52
  · exact .inl h
  · exact .inr ⟨m / 2 ^ 52 - 1, m % 2 ^ 52, Nat.mod_lt m (by decide), by omega⟩

/-- No two magnitudes stand for one value. -/
theorem unitsOf_injective {m m' : Nat} (h : unitsOf m = unitsOf m') : m = m' := by
  have hlarge : ∀ e f, 2 ^ 52 ≤ (2 ^ 52 + f) * 2 ^ e := fun e f =>
    Nat.le_trans (Nat.le_add_right _ f) (Nat.le_mul_of_pos_right _ (Nat.two_pow_pos e))
  -- of two normal magnitudes, the one with the larger exponent has the larger value
  have hless : ∀ {e e' f f'}, f < 2 ^ 52 → e < e' → (2 ^ 52 + f) * 2 ^ e < (2 ^ 52 + f') * 2 ^ e' := by
    intro e e' f f' hf he
    calc (2 ^ 52 + f) * 2 ^ e < 2 ^ 53 * 2 ^ e :=
          Nat.mul_lt_mul_of_pos_right (by omega) (Nat.two_pow_pos e)
      _ = 2 ^ 52 * 2 ^ (e + 1) := by ring
      _ ≤ (2 ^ 52 + f') * 2 ^ e' :=
          Nat.mul_le_mul (Nat.le_add_right _ f') (Nat.pow_le_pow_right (by decide) he)
  obtain hm | ⟨e, f, hf, rfl⟩ := magnitude_cases m <;>
    obtain hm' | ⟨e', f', hf', rfl⟩ := magnitude_cases m'
  · rwa [unitsOf_subnormal hm, unitsOf_subnormal hm'] at h
  · rw [unitsOf_subnormal hm, unitsOf_normal e' hf'] at h
    have := hlarge e' f'
    omega
  · rw [unitsOf_normal e hf, unitsOf_subnormal hm'] at h
    have := hlarge e f
    omega
  · rw [unitsOf_normal e hf, unitsOf_normal e' hf'] at h
    obtain he | rfl | he := Nat.lt_trichotomy e e'
    · exact absurd h (Nat.ne_of_lt (hless hf he))
    · have := Nat.eq_of_mul_eq_mul_right (Nat.two_pow_pos e) h
      omega
    · exact absurd h (Nat.ne_of_gt (hless hf' he))

/-- Adding to the exponent shifts the value. -/
theorem unitsOf_add {shift rounded : Nat} (hle : rounded ≤ 2 ^ 53)
    (hnormal : shift = 0 ∨ 2 ^ 52 ≤ rounded) :
    unitsOf (shift * exponentBit + rounded) = rounded * 2 ^ shift := by
  rw [exponentBit_eq]
  obtain hlt | rfl | hge : rounded < 2 ^ 52 ∨ rounded = 2 ^ 53 ∨
      2 ^ 52 ≤ rounded ∧ rounded < 2 ^ 53 := by omega
  · obtain rfl : shift = 0 := by omega
    rw [Nat.zero_mul, Nat.zero_add, unitsOf_subnormal hlt, Nat.pow_zero, Nat.mul_one]
  · have hsum : shift * 2 ^ 52 + 2 ^ 53 = (shift + 1 + 1) * 2 ^ 52 + 0 := by ring
    rw [hsum, unitsOf_normal (shift + 1) (by decide)]
    ring
  · have hsum : shift * 2 ^ 52 + rounded = (shift + 1) * 2 ^ 52 + (rounded - 2 ^ 52) := by omega
    rw [hsum, unitsOf_normal shift (by omega), Nat.add_sub_cancel' hge.1]

/-- Infinity is further than one from every finite value. -/
theorem unitsOf_add_one_le {m m' : Nat} (h : m < infinity) (h' : infinity ≤ m') :
    unitsOf m + one ≤ unitsOf m' := by
  have hinfinity : infinity = 2047 * 2 ^ 52 := by decide
  rw [hinfinity] at h h'
  obtain hm' | ⟨e', f', hf', rfl⟩ := magnitude_cases m'
  · omega
  · obtain ⟨k, rfl⟩ : ∃ k, e' = k + 1 := ⟨e' - 1, by omega⟩
    have hk : one ≤ 2 ^ k := one_le_two_pow (by omega)
    have hlarge : 2 ^ 53 * 2 ^ k ≤ unitsOf ((k + 1 + 1) * 2 ^ 52 + f') := by
      rw [unitsOf_normal (k + 1) hf', Nat.pow_succ 2 k]
      nlinarith [Nat.two_pow_pos k]
    have hsmall : unitsOf m ≤ (2 ^ 53 - 1) * 2 ^ k := by
      obtain hm | ⟨e, f, hf, rfl⟩ := magnitude_cases m
      · rw [unitsOf_subnormal hm]
        exact Nat.le_trans (by omega) (Nat.le_mul_of_pos_right (2 ^ 53 - 1) (Nat.two_pow_pos k))
      · rw [unitsOf_normal e hf]
        exact Nat.mul_le_mul (by omega) (Nat.pow_le_pow_right (by decide) (by omega))
    omega

/-- A value that is not small is a multiple of a power of two. -/
theorem exists_eq_mul_of_le_unitsOf {m shift : Nat} (h : 2 ^ (52 + shift) ≤ unitsOf m) :
    ∃ v, unitsOf m = v * 2 ^ shift := by
  obtain hm | ⟨e, f, hf, rfl⟩ := magnitude_cases m
  · rw [unitsOf_subnormal hm] at h
    have : 2 ^ 52 ≤ 2 ^ (52 + shift) := Nat.pow_le_pow_right (by decide) (by omega)
    omega
  · rw [unitsOf_normal e hf] at h ⊢
    have hshift : shift ≤ e := by
      by_contra hlt
      have hpow : 2 ^ (53 + e) ≤ 2 ^ (52 + shift) := Nat.pow_le_pow_right (by decide) (by omega)
      have hmul : (2 ^ 52 + f) * 2 ^ e < 2 ^ 53 * 2 ^ e :=
        Nat.mul_lt_mul_of_pos_right (by omega) (Nat.two_pow_pos e)
      rw [← Nat.pow_add] at hmul
      omega
    refine ⟨(2 ^ 52 + f) * 2 ^ (e - shift), ?_⟩
    rw [Nat.mul_assoc, ← Nat.pow_add, Nat.sub_add_cancel hshift]

/-- By how many bits a quotient is shifted for the magnitude nearest to it. -/
theorem exists_nearestMagnitude {num den : Nat} (hden : 0 < den) : ∃ shift,
    unitsOf (nearestMagnitude num den) = roundDiv (num * one) (den * 2 ^ shift) * 2 ^ shift ∧
      (shift = 0 ∨ 2 ^ (52 + shift) * den ≤ num * one) := by
  unfold nearestMagnitude
  rw [shiftLeft_eq_mul_one]
  generalize num * one = scaled
  dsimp only
  rw [Nat.shiftLeft_eq]
  generalize hshift : (scaled / den).log2 + 1 - 53 = shift
  have hlt : scaled / den < 2 ^ (53 + shift) := Nat.lt_of_lt_of_le Nat.lt_log2_self
    (Nat.pow_le_pow_right (by decide) (by omega))
  have hle : shift = 0 ∨ 2 ^ (52 + shift) ≤ scaled / den := by
    by_cases hzero : shift = 0
    · exact .inl hzero
    · have hlog : (scaled / den).log2 = 52 + shift := by omega
      have hne : scaled / den ≠ 0 := by
        intro hq
        simp only [hq, Nat.log2_zero] at hlog
        omega
      exact .inr (hlog ▸ Nat.log2_self_le hne)
  have hdiv : scaled / (den * 2 ^ shift) = scaled / den / 2 ^ shift :=
    (Nat.div_div_eq_div_mul _ _ _).symm
  refine ⟨shift, unitsOf_add ?_ ?_, ?_⟩
  · have hbound : scaled / den / 2 ^ shift < 2 ^ 53 := by
      rw [Nat.div_lt_iff_lt_mul (Nat.two_pow_pos shift), ← Nat.pow_add]
      exact hlt
    have := roundDiv_le scaled (den * 2 ^ shift)
    omega
  · obtain hzero | hle := hle
    · exact .inl hzero
    · right
      refine Nat.le_trans ?_ (div_le_roundDiv _ _)
      rw [hdiv, Nat.le_div_iff_mul_le (Nat.two_pow_pos shift), ← Nat.pow_add]
      exact hle
  · exact hle.imp id fun hle => (Nat.le_div_iff_mul_le hden).mp hle

/-- No magnitude is nearer to a quotient than the one that is found for it. -/
theorem nearestMagnitude_nearest {num den : Nat} (hden : 0 < den) (m : Nat) :
    distance (num * one) den (unitsOf (nearestMagnitude num den)) ≤
      distance (num * one) den (unitsOf m) := by
  obtain ⟨shift, hunits, hlarge⟩ := @exists_nearestMagnitude num den hden
  have hpos : 0 < den * 2 ^ shift := Nat.mul_pos hden (Nat.two_pow_pos shift)
  have hmultiple : ∀ v, distance (num * one) den (unitsOf (nearestMagnitude num den)) ≤
      distance (num * one) den (v * 2 ^ shift) := by
    intro v
    rw [hunits, distance_mul, distance_mul]
    exact roundDiv_nearest hpos v
  -- What is no multiple of the unit is below the least value with that unit.
  by_cases hm : ∃ v, unitsOf m = v * 2 ^ shift
  · obtain ⟨v, hv⟩ := hm
    rw [hv]
    exact hmultiple v
  · have hsmall : unitsOf m ≤ 2 ^ (52 + shift) := by
      by_contra hlt
      exact hm (exists_eq_mul_of_le_unitsOf (Nat.le_of_not_le hlt))
    obtain rfl | hlarge := hlarge
    · exact absurd ⟨unitsOf m, by simp⟩ hm
    · refine Nat.le_trans (hmultiple (2 ^ 52)) ?_
      rw [← Nat.pow_add]
      exact distance_le_of_le hsmall hlarge

end Double

end MetricLang
