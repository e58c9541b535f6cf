-- SUMMARY: Texts that the lexer cuts alike, because a token does not see what differs in them.
import MetricLang.Proofs.Tiling
import MetricLang.Proofs.Words

/-!
# What a token sees of the text after it

Where a token ends depends on what follows it, up to the first character that ends
every token. Of that character it matters only whether it is a blank, which can make a
comment of what is before it. Texts that agree so far are `Alike`. A string sees nothing
behind its closing quote, and blanks see nothing at all, so pieces that are cut in front
of a text are cut in front of every text like it.
-/

namespace MetricLang

/-- Do the texts begin with the same characters, up to where each ends or has a character
    that ends tokens? There the second one may end or have a blank only if the first does. -/
def Alike (cs ds : List Char) : Prop :=
  ∃ run a b, cs = run ++ a ∧ ds = run ++ b ∧ Bounded a ∧ Bounded b ∧
    (b.head?.all isBlank → a.head?.all isBlank)

namespace Alike

variable {cs ds : List Char}

/-- Characters in front of texts that are alike. -/
theorem append_left (xs : List Char) (h : Alike cs ds) : Alike (xs ++ cs) (xs ++ ds) := by
  obtain ⟨run, a, b, rfl, rfl, ha, hb, hblank⟩ := h
  exact ⟨xs ++ run, a, b, by simp, by simp, ha, hb, hblank⟩

/-- What follows a character that ends tokens is not seen. -/
theorem ends {c d : Char} (hc : endsToken c) (hd : endsToken d) (hblank : isBlank d → isBlank c)
    (cs ds : List Char) : Alike (c :: cs) (d :: ds) :=
  ⟨[], c :: cs, d :: ds, rfl, rfl, hc, hd, by simpa using hblank⟩

end Alike

-- ---------------------------------------------------------------------------
-- Tokens
-- ---------------------------------------------------------------------------

/-- No letter of the word that begins comments ends a token. -/
theorem toLower_ne_of_endsToken {c d : Char} (h : endsToken c) (hd : d.isLower) : c.toLower ≠ d := by
  rintro rfl
  simp [endsToken, isIdentifierPart, isIdentifierStart, Char.isAlphanum, isAlpha_of_toLower hd] at h

theorem readComment?_of_endsToken {c : Char} (cs : List Char) (h : endsToken c) :
    readComment? (c :: cs) = none := by
  have hr := toLower_ne_of_endsToken h (d := 'r') rfl
  obtain _ | ⟨e, _ | ⟨m, cs⟩⟩ := cs <;> simp [readComment?, hr]

/-- A comment begins with its word, and what ends the word is a blank or the end. -/
theorem readComment?_append_eq_none_of_alike {xs a b : List Char} (hb : Bounded b)
    (hblank : b.head?.all isBlank → a.head?.all isBlank) (h : readComment? (xs ++ a) = none) :
    readComment? (xs ++ b) = none := by
  -- Only a word that is part of `xs` begins a comment: no letter of it ends a token.
  obtain _ | ⟨r, _ | ⟨e, _ | ⟨m, xs⟩⟩⟩ := xs
  · cases b with
    | nil => rfl
    | cons d ds => exact readComment?_of_endsToken ds hb
  · obtain _ | ⟨d, _ | ⟨d', ds⟩⟩ := b
    · rfl
    · rfl
    · simp [readComment?, toLower_ne_of_endsToken hb (d := 'e') rfl]
  · cases b with
    | nil => rfl
    | cons d ds => simp [readComment?, toLower_ne_of_endsToken hb (d := 'm') rfl]
  · have hhead : (xs ++ b).head?.all isBlank → (xs ++ a).head?.all isBlank := by
      cases xs with
      | cons x xs => exact id
      | nil => exact hblank
    simp only [List.cons_append, readComment?] at h ⊢
    grind

namespace Piece

variable {kind : TokenKind} {text : String} {cs after after' : List Char}

/-- A plain token is cut in front of texts that are alike. -/
theorem Fits.of_alike (h : (token kind text cs).Fits {} after) (hp : kind.isPlain)
    (halike : Alike after after') : (token kind text cs).Fits {} after' := by
  obtain ⟨run, a, b, rfl, rfl, ha, hb, hblank⟩ := halike
  obtain ⟨rfl, hne, hplain⟩ := h.plain hp
  obtain ⟨c, rest, hcs⟩ := List.exists_cons_of_ne_nil hne
  obtain ⟨htrivia, hread⟩ := h
  have hne : text.toList ++ run ≠ [] := by simp [hcs]
  rw [← List.append_assoc] at htrivia hread
  refine ⟨?_, ?_⟩
  · rw [readTrivia?_eq_none_iff] at htrivia ⊢
    refine ⟨by simpa [hcs] using htrivia.1, fun hcomments => ?_⟩
    rw [← List.append_assoc]
    exact readComment?_append_eq_none_of_alike hb hblank (htrivia.2 hcomments)
  · have hbare := Lexeme.read?_of_append hread hp (parts_of_bounded ha) hne
    have hstring : Lexeme.string? (text.toList ++ run ++ b) = none := by
      rw [hcs]
      exact Lexeme.string?_of_isPlainChar _ (hplain c (by simp [hcs]))
    rw [← List.append_assoc]
    exact Lexeme.read?_append_right hbare hb hne hstring

/-- A string is written in quotes, whatever follows it. -/
theorem Fits.exists_body {q : Quote} (h : (token (.string q) text cs).Fits {} after) :
    ∃ body, cs = q.char :: body ∧ q.readBody? body = some (text.toList, []) := by
  obtain ⟨_, hkind, hread⟩ | ⟨hkind, _⟩ | ⟨hkind, _⟩ | ⟨hkind, _⟩ := Lexeme.kind_cases h.2
  · cases hkind
    generalize hall : cs ++ after = all at hread
    cases all with
    | nil => cases hread
    | cons c rest =>
      simp only [Quote.read?] at hread
      split at hread
      · next hquote =>
        obtain ⟨body, rfl, hbody⟩ := Quote.readBody?_of_append hread
        rw [← List.cons_append] at hall
        exact ⟨body, hquote ▸ List.append_cancel_right hall, hbody⟩
      · cases hread
  · simp at hkind
  · cases hkind
  · cases hkind

/-- A string is cut in front of any text. -/
theorem Fits.of_string {q : Quote} (h : (token (.string q) text cs).Fits {} after)
    (after' : List Char) : (token (.string q) text cs).Fits {} after' := by
  obtain ⟨body, rfl, hbody⟩ := h.exists_body
  have hbody := Quote.readBody?_append_right after' hbody
  refine ⟨?_, Lexeme.read?_eq_some_iff.mpr (.inl (Lexeme.string?_of_read? ?_))⟩
  · cases q <;> exact readTrivia?_eq_none_of_head (by decide) (by decide)
  · simpa [Quote.read?] using hbody

/-- A token is cut in front of texts that are alike. -/
theorem Fits.token_of_alike (h : (token kind text cs).Fits {} after) (halike : Alike after after') :
    (token kind text cs).Fits {} after' := by
  cases kind with
  | string q => exact h.of_string after'
  | endOfInput => exact absurd rfl (Lexeme.kind_ne_endOfInput h.2)
  | identifier | integer | float | punct => exact h.of_alike rfl halike

end Piece

-- ---------------------------------------------------------------------------
-- Blanks
-- ---------------------------------------------------------------------------

/-- In a line, trivia is blanks, unless a comment takes all that is left. -/
theorem skipTrivia_of_isLine {cs : List Char} (hline : ∀ c ∈ cs, isLineEnd c = false) :
    skipTrivia true cs = [] ∨ skipTrivia true cs = cs.dropWhile isBlank := by
  have hline : ∀ c ∈ cs.dropWhile isBlank, isLineEnd c = false :=
    fun c hc => hline c ((List.dropWhile_suffix _).subset hc)
  have hhead := head?_dropWhile_all isBlank cs
  rw [← skipTrivia_dropWhile]
  generalize cs.dropWhile isBlank = ds at hline hhead
  cases hcomment : readComment? ds with
  | none =>
    exact .inr (skipTrivia_of_none (readTrivia?_eq_none_iff.mpr ⟨hhead, fun _ => hcomment⟩))
  | some r =>
    obtain ⟨taken, rest⟩ := r
    have htrivia : readTrivia? true ds = some (taken, rest) := by
      simp [readTrivia?, readBlanks?_eq_none_iff.mpr hhead, hcomment]
    have hrest : rest = [] := by
      unfold readComment? at hcomment
      split at hcomment
      · split at hcomment
        · cases hcomment
          rw [List.dropWhile_eq_nil_iff]
          intro c hc
          simp [hline c (by simp [hc])]
        · cases hcomment
      · cases hcomment
    left
    rw [skipTrivia_of_some htrivia, hrest]
    exact skipTrivia_of_none rfl

/-- A gap in a line is blanks, unless only trivia is left after it. -/
theorem isBlank_of_skipTrivia {cs after : List Char} (hline : ∀ c ∈ cs ++ after, isLineEnd c = false)
    (hskip : skipTrivia true (cs ++ after) = skipTrivia true after)
    (hafter : skipTrivia true after ≠ []) : ∀ c ∈ cs, isBlank c := by
  have hall := (skipTrivia_of_isLine hline).resolve_left (hskip ▸ hafter)
  have hrest := (skipTrivia_of_isLine fun c hc => hline c (List.mem_append_right cs hc)).resolve_left
    hafter
  have hdrop : (cs ++ after).dropWhile isBlank = after.dropWhile isBlank := by
    rw [← hall, hskip, hrest]
  rw [← List.dropWhile_eq_nil_iff, ← List.length_eq_zero_iff]
  have hlength := congrArg List.length hdrop
  have hle := (List.dropWhile_suffix isBlank (l := after)).length_le
  rw [List.dropWhile_append] at hlength
  split at hlength
  · next hnil => simpa using hnil
  · simp only [List.length_append] at hlength
    omega

namespace Piece

theorem Cut.skipTrivia_ne_nil {ps : List Piece} {rest : List Char} (h : Cut {} ps rest)
    (hrest : skipTrivia true rest ≠ []) : skipTrivia true (charsOf ps ++ rest) ≠ [] := by
  induction ps with
  | nil => exact hrest
  | cons p ps ih =>
    obtain ⟨hfit, hcut⟩ := h
    rw [charsOf_cons, List.append_assoc]
    cases p with
    | gap cs => exact hfit.2 ▸ ih hcut
    | token kind text cs =>
      have hskip : skipTrivia true (cs ++ (charsOf ps ++ rest)) = cs ++ (charsOf ps ++ rest) :=
        skipTrivia_of_none hfit.1
      exact fun hnil => hfit.token_ne_nil (hskip.symm.trans hnil)

/-- Gaps in a line are blanks, if they are not at its end. -/
theorem Cut.isBlank_of_mem {ps : List Piece} {rest : List Char} (h : Cut {} ps rest)
    (hline : ∀ c ∈ charsOf ps ++ rest, isLineEnd c = false) (hrest : skipTrivia true rest ≠ []) :
    ∀ cs, gap cs ∈ ps → ∀ c ∈ cs, isBlank c := by
  induction ps with
  | nil => exact fun cs hcs => absurd hcs List.not_mem_nil
  | cons p ps ih =>
    obtain ⟨hfit, hcut⟩ := h
    rw [charsOf_cons, List.append_assoc] at hline
    intro cs hcs
    obtain rfl | hcs := List.mem_cons.mp hcs
    · exact isBlank_of_skipTrivia hline hfit.2 (hcut.skipTrivia_ne_nil hrest)
    · exact ih hcut (fun c hc => hline c (List.mem_append_right _ hc)) cs hcs

/-- Pieces are cut in front of texts that are alike. -/
theorem Cut.of_alike {ps : List Piece} {rest rest' : List Char} (h : Cut {} ps rest)
    (hblank : ∀ cs, gap cs ∈ ps → ∀ c ∈ cs, isBlank c) (halike : Alike rest rest') :
    Cut {} ps rest' := by
  induction ps with
  | nil => trivial
  | cons p ps ih =>
    obtain ⟨hfit, hcut⟩ := h
    refine ⟨?_, ih hcut fun cs hcs => hblank cs (List.mem_cons_of_mem p hcs)⟩
    cases p with
    | gap cs => exact ⟨hfit.1, skipTrivia_blanks true (hblank cs List.mem_cons_self) _⟩
    | token kind text cs => exact hfit.token_of_alike (halike.append_left _)

end Piece

end MetricLang
