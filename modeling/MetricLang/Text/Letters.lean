-- SUMMARY: Comparing texts up to the case of ASCII letters.

/-!
# Letter case

Only the ASCII letters have a case here; every other character is equal to
itself alone.
-/

namespace MetricLang

/-- Are two texts equal up to the case of ASCII letters? -/
def sameLetters (a b : String) : Bool :=
  a.toList.map Char.toLower = b.toList.map Char.toLower

@[simp] theorem sameLetters_refl (a : String) : sameLetters a a = true := by
  simp [sameLetters]

theorem sameLetters_comm (a b : String) : sameLetters a b = sameLetters b a := by
  simp [sameLetters, eq_comm]

end MetricLang
