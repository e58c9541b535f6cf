-- SUMMARY: Every word of small letters names one variable, and names are in order of length, then of the alphabet.
import MetricLang.Proofs.Formulas
import Mathlib.Data.List.Induction
import Mathlib.Data.List.Shortlex
import Mathlib.Data.Set.Function
import Mathlib.Data.String.Basic

/-!
# Names of variables

The letters of a name are the digits of a number to base 26 that has no digit zero: they
count from one, and the empty word is the number zero. So each number is 26 times another
one, a last letter and one more (`exists_last_letter`), and its name is the name of that
one with the last letter behind it (`variableLetters_snoc`). Order and letters are both
settled by induction on that.
-/

namespace MetricLang.Formula

-- ---------------------------------------------------------------------------
-- Letters
-- ---------------------------------------------------------------------------

theorem isLower_letter : ∀ n < 26, (letter n).isLower := by decide +kernel

theorem letter_lt_letter : ∀ m < 26, ∀ n < 26, m < n → letter m < letter n := by decide +kernel

theorem exists_letter {c : Char} (h : c.isLower) : ∃ n < 26, letter n = c := by
  obtain ⟨hfirst, hlast⟩ := Bool.and_eq_true_iff.mp h
  have hfirst : 97 ≤ c.toNat := of_decide_eq_true hfirst
  have hlast : c.toNat ≤ 122 := of_decide_eq_true hlast
  refine ⟨c.toNat - 97, by omega, ?_⟩
  rw [letter, show 'a'.toNat + (c.toNat - 97) = c.toNat by simp only [Char.reduceToNat]; omega]
  exact Char.ofNat_toNat c

/-- The last digit of a number, where digits count from one. -/
theorem exists_last_letter {n : Nat} (h : n ≠ 0) : ∃ k d, d < 26 ∧ k < n ∧ n = 26 * k + d + 1 :=
  ⟨(n - 1) / 26, (n - 1) % 26, Nat.mod_lt _ (by decide), by omega, by omega⟩

theorem variableLetters_zero : variableLetters 0 = [] := by rw [variableLetters]

theorem variableLetters_snoc (k : Nat) {d : Nat} (h : d < 26) :
    variableLetters (26 * k + d + 1) = variableLetters k ++ [letter d] := by
  rw [variableLetters_succ, show (26 * k + d) / 26 = k by omega, show (26 * k + d) % 26 = d by omega]

-- ---------------------------------------------------------------------------
-- Which words are names
-- ---------------------------------------------------------------------------

theorem isLower_of_mem_variableLetters {n : Nat} {c : Char} (h : c ∈ variableLetters n) : c.isLower := by
  induction n using Nat.strongRecOn with
  | ind n ih =>
    by_cases hn : n = 0
    · simp [hn, variableLetters_zero] at h
    · obtain ⟨k, d, hd, hk, rfl⟩ := exists_last_letter hn
      rw [variableLetters_snoc k hd, List.mem_append, List.mem_singleton] at h
      obtain h | rfl := h
      · exact ih k hk h
      · exact isLower_letter d hd

theorem isLower_of_mem_variableName {i : Nat} {c : Char} (h : c ∈ (variableName i).toList) :
    c.isLower := by
  rw [variableName, String.toList_ofList] at h
  exact isLower_of_mem_variableLetters h

theorem exists_variableLetters {cs : List Char} (h : ∀ c ∈ cs, c.isLower) :
    ∃ n, variableLetters n = cs := by
  induction cs using List.reverseRecOn with
  | nil => exact ⟨0, variableLetters_zero⟩
  | append_singleton cs c ih =>
    simp only [List.mem_append, List.mem_singleton, or_imp, forall_and, forall_eq] at h
    obtain ⟨k, rfl⟩ := ih h.1
    obtain ⟨d, hd, rfl⟩ := exists_letter h.2
    exact ⟨26 * k + d + 1, variableLetters_snoc k hd⟩

theorem variableLetters_eq_nil {n : Nat} : variableLetters n = [] ↔ n = 0 := by
  cases n with
  | zero => simp [variableLetters_zero]
  | succ n => simp [variableLetters_succ]

-- ---------------------------------------------------------------------------
-- The order of names
-- ---------------------------------------------------------------------------

/-- Of two words of the same length, the first place in which they differ decides, whatever
    follows them. -/
theorem lex_append_of_length_eq {r : α → α → Prop} {s t : List α} (h : List.Lex r s t)
    (hlength : s.length = t.length) (u v : List α) : List.Lex r (s ++ u) (t ++ v) := by
  induction h with
  | nil => simp at hlength
  | cons _ ih => exact .cons (ih (Nat.succ.inj hlength))
  | rel hr => exact .rel hr

theorem shortlex_snoc {r : α → α → Prop} {s t : List α} (h : List.Shortlex r s t) (x y : α) :
    List.Shortlex r (s ++ [x]) (t ++ [y]) := by
  obtain hlength | ⟨hlength, hlex⟩ := List.shortlex_def.mp h
  · exact .of_length_lt (by simpa using hlength)
  · exact .of_lex (by simpa using hlength) (lex_append_of_length_eq hlex hlength _ _)

/-- More digits make a larger number, and of as many digits the first ones count most. -/
theorem variableLetters_shortlex {m n : Nat} (h : m < n) :
    List.Shortlex (· < ·) (variableLetters m) (variableLetters n) := by
  induction n using Nat.strongRecOn generalizing m with
  | ind n ih =>
    obtain ⟨l, e, he, hl, rfl⟩ := exists_last_letter (Nat.ne_zero_of_lt h)
    rw [variableLetters_snoc l he]
    by_cases hm : m = 0
    · rw [hm, variableLetters_zero]
      exact .of_length_lt (by simp)
    · obtain ⟨k, d, hd, _, rfl⟩ := exists_last_letter hm
      rw [variableLetters_snoc k hd]
      -- the last letters count only where what stands in front of them is the same
      obtain hkl | ⟨rfl, hde⟩ : k < l ∨ k = l ∧ d < e := by omega
      · exact shortlex_snoc (ih l hl hkl) _ _
      · exact .append_left ((List.shortlex_singleton_iff _ _).mpr (letter_lt_letter d hd e he hde)) _

theorem variableLetters_shortlex_iff {m n : Nat} :
    List.Shortlex (· < ·) (variableLetters m) (variableLetters n) ↔ m < n := by
  refine ⟨fun h => ?_, variableLetters_shortlex⟩
  obtain hlt | rfl | hgt := Nat.lt_trichotomy m n
  · exact hlt
  · exact absurd h (Std.Irrefl.irrefl _)
  · exact absurd (variableLetters_shortlex hgt) (Std.Asymm.asymm _ _ h)

-- ---------------------------------------------------------------------------
-- Names
-- ---------------------------------------------------------------------------

/-- The names of variables are the words of small letters, each of which names one
    variable, and a variable comes before another one if its name is shorter, or is as
    long and comes first in the alphabet. -/
theorem variableName_enumerates :
    Set.BijOn variableName Set.univ {s | s ≠ "" ∧ ∀ c ∈ s.toList, c.isLower} ∧
    ∀ i j, i < j ↔ (variableName i).length < (variableName j).length ∨
      (variableName i).length = (variableName j).length ∧ variableName i < variableName j := by
  refine ⟨⟨fun i _ => ⟨?nonempty, ?small⟩, variableName_injective.injOn, ?onto⟩, fun i j => ?order⟩
  case nonempty =>
    rw [variableName, Ne, String.ofList_eq, String.toList_empty, variableLetters_eq_nil]
    exact Nat.succ_ne_zero i
  case small => exact fun c hc => isLower_of_mem_variableName hc
  case onto =>
    rintro s ⟨hs, hsmall⟩
    obtain ⟨n, hn⟩ := exists_variableLetters hsmall
    cases n with
    | zero => exact absurd (String.toList_eq_nil_iff.mp (hn.symm.trans variableLetters_zero)) hs
    | succ i => exact ⟨i, trivial, by rw [variableName, hn, String.ofList_toList]⟩
  case order =>
    rw [← Nat.succ_lt_succ_iff, ← variableLetters_shortlex_iff, List.shortlex_def,
      String.lt_iff_toList_lt, ← List.lt_iff_lex_lt]
    simp only [variableName, String.length_ofList, String.toList_ofList]
    rfl

example : [0, 25, 26, 701, 702].map variableName = ["a", "z", "aa", "zz", "aaa"] := by decide +kernel

end MetricLang.Formula
