-- SUMMARY: Printed values are read back, whatever stops them.
import MetricLang.Proofs.Legible

/-!
# Reading printed values

Each theorem is about a text in front of any other text: if what follows stops the
last token and is cut into the tokens `us`, the whole is cut into tokens from which
the value is read, with `us` left over.
-/

namespace MetricLang

theorem Word.Spells.unique {v w : Word} {s : String} (hv : v.Spells s) (hw : w.Spells s) :
    v = w := by
  obtain ⟨ts, hts, hv, _⟩ := hv
  obtain ⟨us, hus, hw, _⟩ := hw
  cases hts.symm.trans hus
  cases hv.symm.trans hw
  rfl

theorem IsName.spells {s : String} (h : IsName s) :
    ∃ w : Word, w.Spells s ∧ w.isNumber = false ∧ w.startsWithIdentifier ∧
      w.endsInComment = sameLetters s "rem" := by
  obtain ⟨t, ht, rfl, hw⟩ := h.exists_word
  refine ⟨⟨t, []⟩, hw, ?_, ht, rfl⟩
  simp only [Token.isIdentifier, decide_eq_true_eq] at ht
  simp [Word.isNumber, Token.isNumber, ht]

theorem Lexeme.readNumber?_of_kind {config : LexerConfig} {cs : List Char} {l : Lexeme}
    (h : Lexeme.read? config cs = some l) (hkind : l.kind = .integer ∨ l.kind = .float) :
    readNumber? cs = some (l.text, l.rest) := by
  obtain ⟨_, hk, _⟩ | ⟨_, h⟩ | ⟨hk, _⟩ | ⟨hk, _⟩ := Lexeme.kind_cases h
  · simp [hk] at hkind
  · exact h
  · simp [hk] at hkind
  · simp [hk] at hkind

/-- A word of one number has only the characters of numbers. -/
theorem Word.Spells.isNumberChar_of_mem {w : Word} {s : String} (h : w.Spells s)
    (hw : w.isNumber) : ∀ c ∈ s.toList, isNumberChar c := by
  obtain ⟨ps, hchars, hcut, hplain, htokens, _⟩ := h.exists_row
  obtain ⟨first, more⟩ := w
  simp only [isNumber, Bool.and_eq_true, decide_eq_true_eq] at hw
  obtain ⟨hfirst, rfl⟩ := hw
  rcases ps with _ | ⟨_ | ⟨kind, text, cs⟩, _ | ⟨_ | _, ps⟩⟩
  · simp [tokens] at htokens
  · simp [Piece.isPlain] at hplain
  · simp [Piece.isPlain] at hplain
  · simp [Piece.isPlain] at hplain
  · obtain ⟨hfit, _⟩ := hcut
    obtain ⟨hcs, _⟩ := hfit.plain (hplain _ List.mem_cons_self)
    simp only [tokens, Piece.place_token, Piece.place_nil, List.cons.injEq, and_true] at htokens
    have hnumber := Lexeme.readNumber?_of_kind hfit.2
      (by simpa [htokens, Token.isNumber] using hfirst)
    intro c hc
    refine isNumberChar_of_mem_readNumber? hnumber c ?_
    rw [← hchars] at hc
    simpa [Piece.chars, ← hcs] using hc
  · simp [Piece.isPlain] at hplain
  · simp [tokens] at htokens

theorem Word.Spells.text_eq {w : Word} {s : String} (h : w.Spells s) : w.text = s := by
  obtain ⟨_, _, _, h⟩ := h
  exact h

theorem Keyword.ofText?_spelling (k : Keyword) : ofText? k.spelling = some k := by
  cases k <;> decide

namespace Value

theorem boolean_text (b : Bool) : ∃ k : Keyword, (boolean b).text = k.spelling ∧
    k.boolean? = some b := by
  cases b with
  | true => exact ⟨.isTrue, rfl, rfl⟩
  | false => exact ⟨.isFalse, rfl, rfl⟩

/-- A legible value that is no string is a word. -/
theorem Legible.exists_word {v : Value} (h : v.Legible) (hs : v.isString = false) :
    ∃ w : Word, w.Spells v.text ∧ ofWord w = v.reread := by
  cases v with
  | boolean b =>
    obtain ⟨k, hk, hb⟩ := boolean_text b
    obtain ⟨w, hw, _⟩ := k.isName.spells
    rw [hk]
    exact ⟨w, hw, by simp [ofWord, hw.text_eq, Keyword.ofText?_spelling, hb, reread]⟩
  | identifier name =>
    obtain ⟨w, hw, hstar, hkeyword, hnumber⟩ := h
    have hread : (if w.isNumber then Double.read? name.toList else none) = none := by
      split
      · next hw => simpa [hw] using hnumber
      · rfl
    exact ⟨w, hw, by simp [ofWord, hw.text_eq, hkeyword, hread, hstar, reread]⟩
  | string s q => cases hs
  | number d =>
    obtain ⟨w, hw, hnumber, _, hkeyword⟩ := Double.exists_word h
    exact ⟨w, hw, by simp [ofWord, hw.text_eq, hkeyword, hnumber, Double.read?_text h, reread]⟩
  | wildcard pattern =>
    obtain ⟨w, hw, hstar⟩ := h
    have hkeyword : Keyword.ofText? pattern = none := Keyword.ofText?_of_mem hstar (by decide)
    have hnumber : w.isNumber = false := by
      rw [← Bool.not_eq_true]
      intro hnumber
      exact absurd (hw.isNumberChar_of_mem hnumber _ hstar) (by decide)
    exact ⟨w, hw, by simp [ofWord, hw.text_eq, hkeyword, hnumber, hstar, reread]⟩
  | connective c => cases h

/-- A printed argument is read back. It begins with a keyword only if its word does. -/
theorem Legible.argumentReads {v : Value} {rest : List Char} {p : Position} {us : List Token}
    (h : v.Legible) (hstops : v.isString = false → Stops rest)
    (hrem : EndsInComment v.text → rest.head?.any (!isBlank ·))
    (hus : tokensAt {} (p.after v.text.toList) rest = .ok us) :
    ∃ ts, tokensAt {} p (v.text.toList ++ rest) = .ok ts ∧ ArgumentReads ts v.reread us ∧
      ∀ word : String, (∀ w : Word, w.Spells v.text → w.first.isKeyword word = false) →
        (peek ts).isKeyword word = false := by
  cases hs : v.isString with
  | true =>
    cases v with
    | string s q =>
      refine ⟨_, tokensAt_string (IsLine.not_mem h) hus, .string rfl, fun word _ => ?_⟩
      simp [Token.isKeyword, Token.isIdentifier]
    | _ => cases hs
  | false =>
    obtain ⟨w, hw, hvalue⟩ := h.exists_word hs
    obtain ⟨ts, w', hts, hread, hlike⟩ := hw.reads (hstops hs) (fun hend => hrem ⟨w, hw, hend⟩) hus
    refine ⟨ts, hts, ?_, fun word hword => ?_⟩
    · rw [← hvalue, ← hlike.ofWord]
      exact .word hread
    · obtain ⟨rfl, _⟩ := Word.reads_rule.mp hread
      exact (hlike.first.isKeyword word).trans (hword w hw)

end Value

-- ---------------------------------------------------------------------------
-- Values of filters
-- ---------------------------------------------------------------------------

namespace Connective

/-- No connective in words begins with a negation. -/
theorem WordReads.not_isNot {ts us : List Token} {c : Connective} (h : WordReads ts c us) :
    (peek ts).isKeyword Keyword.not.spelling = false := by
  cases h with
  | and ht _ | andNot ht _ => exact Token.isKeyword_of_ne (k := .and) ht (by decide)
  | or ht => exact Token.isKeyword_of_ne (k := .or) ht (by decide)
  | isIn ht => exact Token.isKeyword_of_ne (k := .isIn) ht (by decide)

/-- A connective in words is read back unless a negation makes another one of it. -/
theorem wordReads {c : Connective} {rest : List Char} {p : Position} {us : List Token}
    (hc : c ≠ .comma) (hends : rest.head?.all (!isIdentifierPart ·))
    (hnot : c = .and → (peek us).isKeyword Keyword.not.spelling = false)
    (hus : tokensAt {} (p.after c.spelling.toList) rest = .ok us) :
    ∃ ts, tokensAt {} p (c.spelling.toList ++ rest) = .ok ts ∧ WordReads ts c us := by
  cases c with
  | comma => exact absurd rfl hc
  | and =>
    obtain ⟨t, hts, ht⟩ := Keyword.and.tokensAt hends hus
    exact ⟨_, hts, .and ht (hnot rfl)⟩
  | or =>
    obtain ⟨t, hts, ht⟩ := Keyword.or.tokensAt hends hus
    exact ⟨_, hts, .or ht⟩
  | isIn =>
    obtain ⟨t, hts, ht⟩ := Keyword.isIn.tokensAt hends hus
    exact ⟨_, hts, .isIn ht⟩
  | andNot =>
    obtain ⟨t, u, hts, ht, hu⟩ := Keyword.and.tokensAt_pair .not hends hus
    exact ⟨_, hts, .andNot ht hu⟩

end Connective

theorem head_of_stops {rest : List Char} (h : Stops rest) :
    rest.head?.all (!isIdentifierPart ·) := by
  cases rest with
  | nil => rfl
  | cons c cs =>
    simp only [Stops, endsToken, List.head?_cons, Option.all_some, Bool.and_eq_true] at h
    exact h.1.1.1

/-- What stops words ends every value. -/
theorem Value.stoppedBy_of_stops {rest : List Char} (v : Value) (h : Stops rest) :
    v.stoppedBy rest := by
  cases v with
  | connective c => exact head_of_stops h
  | string s q => rfl
  | _ => exact h

/-- A printed value of a filter is read back. -/
theorem Value.LegibleInFilter.reads {v : Value} {rest : List Char} {p : Position} {us : List Token}
    (h : v.LegibleInFilter) (hends : v.stoppedBy rest)
    (hrem : EndsInComment v.text → rest.head?.any (!isBlank ·))
    (hnot : (peek us).isKeyword Keyword.not.spelling = false)
    (hus : tokensAt {} (p.after v.text.toList) rest = .ok us) :
    ∃ ts, tokensAt {} p (v.text.toList ++ rest) = .ok ts ∧ Reads ts v.reread us ∧
      ((∀ w : Word, w.Spells v.text → w.first.isKeyword Keyword.not.spelling = false) →
        (peek ts).isKeyword Keyword.not.spelling = false) := by
  by_cases hc : ∃ c, v = .connective c
  · obtain ⟨c, rfl⟩ := hc
    obtain ⟨ts, hts, hread⟩ := Connective.wordReads h hends (fun _ => hnot) hus
    exact ⟨ts, hts, .connective hread, fun _ => hread.not_isNot⟩
  · obtain ⟨hlegible, hwords⟩ : v.Legible ∧ ∀ w : Word, w.Spells v.text →
        Connective.startsWord w.first = false := by
      cases v <;> first | exact h | exact absurd ⟨_, rfl⟩ hc
    have hstops : v.isString = false → Stops rest := by
      intro hs
      cases v <;> first | exact hends | exact absurd ⟨_, rfl⟩ hc | cases hs
    obtain ⟨ts, hts, hread, hkeyword⟩ := hlegible.argumentReads hstops hrem hus
    refine ⟨ts, hts, .argument ?_ hread, hkeyword _⟩
    have hfirst : ∀ w : Word, w.Spells v.text → w.first.isKeyword Keyword.and.spelling = false ∧
        w.first.isKeyword Keyword.or.spelling = false ∧
        w.first.isKeyword Keyword.isIn.spelling = false := by
      intro w hw
      simpa [Connective.startsWord, and_assoc] using hwords w hw
    simp [Connective.startsWord, hkeyword _ fun w hw => (hfirst w hw).1,
      hkeyword _ fun w hw => (hfirst w hw).2.1, hkeyword _ fun w hw => (hfirst w hw).2.2]

theorem Value.legibleInFilter_string {s : String} {q : Quote} (h : IsLine s) :
    (string s q).LegibleInFilter :=
  ⟨h, fun _ hw => absurd hw Quote.not_spells_wrap⟩

-- ---------------------------------------------------------------------------
-- Names as keys and values
-- ---------------------------------------------------------------------------

namespace IsName

variable {s : String}

/-- A name ends in a comment only if it is the word for comments. -/
theorem not_endsInComment (h : IsName s) (hrem : sameLetters s "rem" = false) :
    ¬ EndsInComment s := by
  rintro ⟨v, hv, hend⟩
  obtain ⟨w, hw, _, _, hcomment⟩ := h.spells
  cases hv.unique hw
  simp [hcomment, hrem] at hend

/-- A name that is no keyword is a key. -/
theorem legibleKey (h : IsName s) (hkeyword : Keyword.ofText? s = none) :
    ∃ w : Word, w.Spells s ∧ Condition.startsKey w.first := by
  obtain ⟨t, ht, rfl, hspells⟩ := h.exists_word
  exact ⟨_, hspells, by simp [Condition.startsKey, ht, hkeyword]⟩

/-- A name without a star that is no keyword is a value of a filter. -/
theorem legibleInFilter (h : IsName s) (hkeyword : Keyword.ofText? s = none)
    (hstar : '*' ∉ s.toList) : (Value.identifier s).LegibleInFilter := by
  obtain ⟨w, hw, hnumber, _⟩ := h.spells
  obtain ⟨t, ht, rfl, hspells⟩ := h.exists_word
  cases hw.unique hspells
  refine ⟨⟨_, hspells, hstar, by simp [hkeyword], by simp [hnumber]⟩, fun v hv => ?_⟩
  cases hv.unique hspells
  have hword : ∀ k : Keyword, t.isKeyword k.spelling = false := by
    intro k
    rw [← Bool.not_eq_true]
    intro hk
    simp [Keyword.ofText?_of_isKeyword hk] at hkeyword
  simp [Connective.startsWord, hword]

end IsName

end MetricLang
