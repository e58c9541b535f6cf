-- SUMMARY: What lies between tokens: blanks and comments.

/-!
# Trivia

Blanks are the space, the tab, the line feed and the carriage return. A comment
is the word `rem`, in any case and followed by a blank or by the end of the text,
with everything up to the end of its line.
-/

namespace MetricLang

def isBlank (c : Char) : Bool := c = ' ' || c = '\t' || c = '\n' || c = '\r'

/-- Does the character end a line? -/
def isLineEnd (c : Char) : Bool := c = '\n' || c = '\r'

/-- Reads a run of blanks. -/
def readBlanks? (cs : List Char) : Option (List Char × List Char) :=
  match cs.takeWhile isBlank with
  | [] => none
  | blanks => some (blanks, cs.dropWhile isBlank)

/-- Reads a comment, up to the end of its line. -/
def readComment? : List Char → Option (List Char × List Char)
  | r :: e :: m :: cs =>
    if [r, e, m].map Char.toLower = ['r', 'e', 'm'] ∧ cs.head?.all isBlank then
      some (r :: e :: m :: cs.takeWhile (!isLineEnd ·), cs.dropWhile (!isLineEnd ·))
    else none
  | _ => none

/-- Reads one piece of trivia; comments count only if `comments` is set. -/
def readTrivia? (comments : Bool) (cs : List Char) : Option (List Char × List Char) :=
  readBlanks? cs <|> (if comments then readComment? cs else none)

theorem append_of_readBlanks? {cs taken rest : List Char}
    (h : readBlanks? cs = some (taken, rest)) : taken ++ rest = cs ∧ taken ≠ [] := by
  unfold readBlanks? at h
  split at h
  · cases h
  · next hne =>
    cases h
    exact ⟨List.takeWhile_append_dropWhile, hne⟩

theorem append_of_readComment? {cs taken rest : List Char}
    (h : readComment? cs = some (taken, rest)) : taken ++ rest = cs ∧ taken ≠ [] := by
  unfold readComment? at h
  split at h
  · split at h
    · cases h
      simp [List.takeWhile_append_dropWhile]
    · cases h
  · cases h

theorem append_of_readTrivia? {comments : Bool} {cs taken rest : List Char}
    (h : readTrivia? comments cs = some (taken, rest)) : taken ++ rest = cs ∧ taken ≠ [] := by
  unfold readTrivia? at h
  cases hb : readBlanks? cs with
  | some r =>
    rw [hb] at h
    exact append_of_readBlanks? (hb.trans h)
  | none =>
    rw [hb] at h
    cases comments with
    | false => cases h
    | true => exact append_of_readComment? h

theorem length_of_readTrivia? {comments : Bool} {cs taken rest : List Char}
    (h : readTrivia? comments cs = some (taken, rest)) : rest.length < cs.length := by
  obtain ⟨rfl, hne⟩ := append_of_readTrivia? h
  have := List.length_pos_iff.mpr hne
  simp only [List.length_append]
  omega

/-- What follows all trivia at the start of a text. -/
def skipTrivia (comments : Bool) (cs : List Char) : List Char :=
  match _h : readTrivia? comments cs with
  | none => cs
  | some (_, rest) => skipTrivia comments rest
termination_by cs.length
decreasing_by exact length_of_readTrivia? _h

theorem skipTrivia_suffix (comments : Bool) (cs : List Char) : skipTrivia comments cs <:+ cs := by
  fun_induction skipTrivia comments cs with
  | case1 cs _ => exact List.suffix_refl cs
  | case2 cs taken rest h ih =>
    exact ih.trans ⟨taken, (append_of_readTrivia? h).1⟩

end MetricLang
