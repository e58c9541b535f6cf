-- SUMMARY: Which characters identifiers and numbers are made of, and reading one of either.

/-!
# Identifiers and numbers

An identifier begins with an ASCII letter, a digit or an underscore and may go
on with hyphens and stars. A number must not run into a character that could
begin an identifier, or it is not read as a number at all.
-/

namespace MetricLang

/-- May an identifier begin with the character? -/
def isIdentifierStart (c : Char) : Bool := c = '_' || c.isAlphanum

/-- May an identifier go on with the character? -/
def isIdentifierPart (c : Char) : Bool := isIdentifierStart c || c = '-' || c = '*'

/-- Reads an identifier: its characters, and what follows it. -/
def readIdentifier? : List Char → Option (List Char × List Char)
  | [] => none
  | c :: cs =>
    if isIdentifierStart c then
      some (c :: cs.takeWhile isIdentifierPart, cs.dropWhile isIdentifierPart)
    else none

/-- Splits an optional sign off. -/
def splitSign : List Char → List Char × List Char
  | '+' :: cs => (['+'], cs)
  | '-' :: cs => (['-'], cs)
  | cs => ([], cs)

/-- Splits digits off, with a point among or before them if a digit follows it. -/
def splitDigits (cs : List Char) : List Char × List Char :=
  let whole := cs.takeWhile Char.isDigit
  match cs.dropWhile Char.isDigit with
  | '.' :: rest =>
    match rest.takeWhile Char.isDigit with
    | [] => (whole, '.' :: rest)
    | places => (whole ++ '.' :: places, rest.dropWhile Char.isDigit)
  | rest => (whole, rest)

/-- Reads a number: its characters, and what follows it. -/
def readNumber? (cs : List Char) : Option (List Char × List Char) :=
  let sign := splitSign cs
  let digits := splitDigits sign.2
  if digits.1 = [] ∨ digits.2.head?.any isIdentifierStart then none
  else some (sign.1 ++ digits.1, digits.2)

theorem splitSign_append (cs : List Char) : (splitSign cs).1 ++ (splitSign cs).2 = cs := by
  unfold splitSign
  split <;> rfl

theorem splitDigits_append (cs : List Char) : (splitDigits cs).1 ++ (splitDigits cs).2 = cs := by
  have hcs := List.takeWhile_append_dropWhile (p := Char.isDigit) (l := cs)
  unfold splitDigits
  split
  · next rest h =>
    have hrest := List.takeWhile_append_dropWhile (p := Char.isDigit) (l := rest)
    split
    · rw [← h, hcs]
    · rw [List.append_assoc, List.cons_append, hrest, ← h, hcs]
  · next rest _ => exact hcs

/-- What is read and what follows it make up the text. -/
theorem append_of_readNumber? {cs taken rest : List Char}
    (h : readNumber? cs = some (taken, rest)) : taken ++ rest = cs := by
  simp only [readNumber?] at h
  split at h
  · cases h
  · cases h
    rw [List.append_assoc, splitDigits_append, splitSign_append]

theorem ne_nil_of_readNumber? {cs taken rest : List Char}
    (h : readNumber? cs = some (taken, rest)) : taken ≠ [] := by
  simp only [readNumber?] at h
  split at h
  · cases h
  · cases h
    simp_all

theorem append_of_readIdentifier? {cs taken rest : List Char}
    (h : readIdentifier? cs = some (taken, rest)) : taken ++ rest = cs := by
  unfold readIdentifier? at h
  split at h
  · cases h
  · split at h
    · cases h
      simp [List.takeWhile_append_dropWhile]
    · cases h

theorem ne_nil_of_readIdentifier? {cs taken rest : List Char}
    (h : readIdentifier? cs = some (taken, rest)) : taken ≠ [] := by
  unfold readIdentifier? at h
  split at h
  · cases h
  · split at h
    · cases h
      simp
    · cases h

end MetricLang
