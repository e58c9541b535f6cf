-- SUMMARY: Where a text can be parted, so that the tokens before that place do not depend on what follows it.
import Mathlib.Data.List.Basic
import Mathlib.Data.List.TakeWhile
import MetricLang.Proofs.Piece

/-!
# Boundaries

The lexer looks ahead: digits go on as long as digits follow, a point belongs to
a number if a digit follows it, and letters right after digits make an identifier
of both. So what follows a text can change how its end is cut. This module says
when it does not: reading a number or an identifier, and cutting plain tokens,
yields the same before any character that ends a token, and also where the text
stops.
-/

namespace MetricLang

-- ---------------------------------------------------------------------------
-- Characters
-- ---------------------------------------------------------------------------

/-- Does the character end every unquoted token before it? -/
def endsToken (c : Char) : Bool := !isIdentifierPart c && c != '.'

/-- Does nothing follow, or a character that ends the token before it? -/
def Bounded (rest : List Char) : Bool := rest.head?.all endsToken

/-- Can a text be parted in `cs` and `rest` without parting digits from digits, from
    a point after them or from letters after them? -/
def Parts (cs rest : List Char) : Bool :=
  rest.head?.all fun d =>
    !d.isDigit && d != '.' && !(isIdentifierStart d && cs.getLast?.any Char.isDigit)

theorem isIdentifierStart_of_isDigit {c : Char} (h : c.isDigit) : isIdentifierStart c := by
  simp [isIdentifierStart, Char.isAlphanum, h]

theorem isIdentifierPart_of_start {c : Char} (h : isIdentifierStart c) : isIdentifierPart c := by
  simp [isIdentifierPart, h]

@[simp] theorem bounded_nil : Bounded [] := rfl

@[simp] theorem bounded_cons {c : Char} {cs : List Char} : Bounded (c :: cs) = endsToken c := rfl

@[simp] theorem parts_nil (cs : List Char) : Parts cs [] := rfl

theorem parts_of_bounded {cs rest : List Char} (h : Bounded rest) : Parts cs rest := by
  cases rest with
  | nil => rfl
  | cons d ds =>
    simp only [bounded_cons, endsToken, Bool.and_eq_true, Bool.not_eq_true', bne_iff_ne] at h
    have hstart : isIdentifierStart d = false := by
      simpa using mt isIdentifierPart_of_start (by simp [h.1])
    have hdigit : d.isDigit = false := by
      simpa using mt isIdentifierStart_of_isDigit (by simp [hstart])
    simp [Parts, h.2, hstart, hdigit]

-- ---------------------------------------------------------------------------
-- Runs of characters
-- ---------------------------------------------------------------------------

theorem takeWhile_append_of_head {p : α → Bool} {xs ys : List α} (h : ys.head?.all (!p ·)) :
    (xs ++ ys).takeWhile p = xs.takeWhile p := by
  induction xs with
  | nil =>
    cases ys with
    | nil => rfl
    | cons y ys => simp_all
  | cons x xs ih => simp [List.takeWhile_cons, ih]

theorem dropWhile_append_of_head {p : α → Bool} {xs ys : List α} (h : ys.head?.all (!p ·)) :
    (xs ++ ys).dropWhile p = xs.dropWhile p ++ ys := by
  induction xs with
  | nil =>
    cases ys with
    | nil => rfl
    | cons y ys => simp_all
  | cons x xs ih =>
    simp only [List.cons_append, List.dropWhile_cons]
    split
    · exact ih
    · rfl

theorem head?_dropWhile_all (p : α → Bool) (xs : List α) :
    (xs.dropWhile p).head?.all (!p ·) := by
  have := List.head?_dropWhile_not p xs
  cases h : (xs.dropWhile p).head? with
  | none => rfl
  | some x => simpa [h] using this

-- ---------------------------------------------------------------------------
-- Numbers
-- ---------------------------------------------------------------------------

theorem splitSign_append_right {cs rest : List Char} (hne : cs ≠ []) :
    splitSign (cs ++ rest) = ((splitSign cs).1, (splitSign cs).2 ++ rest) := by
  cases cs with
  | nil => exact absurd rfl hne
  | cons c cs =>
    by_cases hplus : c = '+'
    · subst hplus; rfl
    · by_cases hminus : c = '-'
      · subst hminus; rfl
      · simp [splitSign, hplus, hminus]

theorem splitDigits_append_right {cs rest : List Char}
    (h : rest.head?.all fun d => !d.isDigit && d != '.') :
    splitDigits (cs ++ rest) = ((splitDigits cs).1, (splitDigits cs).2 ++ rest) := by
  have hdigit : rest.head?.all (!Char.isDigit ·) := by
    cases rest with
    | nil => rfl
    | cons d ds => simp_all
  unfold splitDigits
  rw [takeWhile_append_of_head hdigit, dropWhile_append_of_head hdigit]
  cases hd : cs.dropWhile Char.isDigit with
  | nil =>
    cases rest with
    | nil => rfl
    | cons d ds =>
      have hpoint : d ≠ '.' := by simp_all
      simp [hpoint]
  | cons c ds =>
    by_cases hpoint : c = '.'
    · subst hpoint
      simp only [List.cons_append, takeWhile_append_of_head hdigit,
        dropWhile_append_of_head hdigit]
      cases ds.takeWhile Char.isDigit <;> rfl
    · simp [hpoint]

/-- Digits that reach the end of a text end it with a digit. -/
theorem getLast?_of_splitDigits {cs : List Char} (hne : (splitDigits cs).1 ≠ [])
    (hend : (splitDigits cs).2 = []) : cs.getLast?.any Char.isDigit := by
  have hlast : ∀ xs : List Char, xs.takeWhile Char.isDigit ≠ [] →
      (xs.takeWhile Char.isDigit).getLast?.any Char.isDigit := by
    intro xs hxs
    rw [List.getLast?_eq_some_getLast hxs]
    simpa using List.mem_takeWhile_imp (List.getLast_mem hxs)
  have hcs := splitDigits_append cs
  rw [hend, List.append_nil] at hcs
  rw [← hcs]
  unfold splitDigits at hne hend ⊢
  cases hd : cs.dropWhile Char.isDigit with
  | nil =>
    simp only [hd] at hne ⊢
    exact hlast cs hne
  | cons c rest =>
    by_cases hpoint : c = '.'
    · subst hpoint
      simp only [hd] at hend ⊢
      cases hplaces : rest.takeWhile Char.isDigit with
      | nil => simp [hplaces] at hend
      | cons d places =>
        have hne' : rest.takeWhile Char.isDigit ≠ [] := by simp [hplaces]
        simp only [← hplaces]
        rw [List.getLast?_append_of_ne_nil _ (List.cons_ne_nil _ _),
          List.getLast?_cons_of_ne_nil hne']
        exact hlast rest hne'
    · simp [hd, hpoint] at hend

theorem readNumber?_append_right {cs rest : List Char} (hne : cs ≠ []) (h : Parts cs rest) :
    readNumber? (cs ++ rest) = (readNumber? cs).map fun r => (r.1, r.2 ++ rest) := by
  have hdigits : rest.head?.all fun d => !d.isDigit && d != '.' := by
    cases rest with
    | nil => rfl
    | cons d ds => simp_all [Parts]
  simp only [readNumber?, splitSign_append_right hne, splitDigits_append_right hdigits]
  generalize hsign : splitSign cs = s
  obtain ⟨sign, body⟩ := s
  have hbody := splitSign_append cs
  rw [hsign] at hbody
  -- letters may follow only where digits do not reach the end of the text
  have hhead : (splitDigits body).1 ≠ [] →
      ((splitDigits body).2 ++ rest).head?.any isIdentifierStart =
        (splitDigits body).2.head?.any isIdentifierStart := by
    intro hne
    cases hend : (splitDigits body).2 with
    | cons c ds => rfl
    | nil =>
      have hlast := getLast?_of_splitDigits hne hend
      have hbodyne : body ≠ [] := by rintro rfl; simp at hlast
      have hcs : cs.getLast?.any Char.isDigit := by
        rw [← hbody, List.getLast?_append_of_ne_nil _ hbodyne]
        exact hlast
      cases rest with
      | nil => rfl
      | cons d ds => simp_all [Parts]
  by_cases hnil : (splitDigits body).1 = []
  · simp [hnil]
  · simp only [hnil, false_or, hhead hnil]
    split <;> rfl

-- ---------------------------------------------------------------------------
-- Identifiers
-- ---------------------------------------------------------------------------

theorem readIdentifier?_append_right {cs rest : List Char} (hne : cs ≠ []) (h : Bounded rest) :
    readIdentifier? (cs ++ rest) = (readIdentifier? cs).map fun r => (r.1, r.2 ++ rest) := by
  have hpart : rest.head?.all (!isIdentifierPart ·) := by
    cases rest with
    | nil => rfl
    | cons d ds => simp_all [endsToken]
  cases cs with
  | nil => exact absurd rfl hne
  | cons c cs =>
    simp only [List.cons_append, readIdentifier?, takeWhile_append_of_head hpart,
      dropWhile_append_of_head hpart]
    split <;> rfl

/-- An identifier is read as far as it goes. -/
theorem head_of_readIdentifier? {cs taken rest : List Char}
    (h : readIdentifier? cs = some (taken, rest)) : rest.head?.all (!isIdentifierPart ·) := by
  cases cs with
  | nil => cases h
  | cons c cs =>
    simp only [readIdentifier?] at h
    split at h
    · cases h
      exact head?_dropWhile_all isIdentifierPart cs
    · cases h

/-- An identifier that is read in front of more text is read as well where the text
    stops. -/
theorem readIdentifier?_of_append {taken after rest : List Char}
    (h : readIdentifier? (taken ++ after ++ rest) = some (taken, after ++ rest)) :
    readIdentifier? (taken ++ after) = some (taken, after) := by
  cases taken with
  | nil => exact absurd rfl (ne_nil_of_readIdentifier? h)
  | cons c taken =>
    simp only [List.cons_append, readIdentifier?] at h ⊢
    split at h
    · next hc =>
      simp only [Option.some.injEq, Prod.mk.injEq, List.cons.injEq, true_and] at h
      have hall : ∀ x ∈ taken, isIdentifierPart x := by
        rw [← h.1]
        exact fun x hx => List.mem_takeWhile_imp hx
      have hhead : after.head?.all (!isIdentifierPart ·) := by
        have := head?_dropWhile_all isIdentifierPart (taken ++ after ++ rest)
        rw [h.2] at this
        cases after <;> simp_all
      rw [if_pos hc, takeWhile_append_of_head hhead, dropWhile_append_of_head hhead,
        List.takeWhile_eq_self_iff.mpr hall, List.dropWhile_eq_nil_iff.mpr hall]
      rfl
    · cases h

end MetricLang
