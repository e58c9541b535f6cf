-- SUMMARY: The tokens of written blanks, punctuation, names and strings, in front of any text that may follow.
import MetricLang.Proofs.Escapes
import MetricLang.Proofs.Words

/-!
# Written tokens

Printing writes tokens one after the other. Each theorem here says what the lexer
makes of one written token, given what it makes of the text after it.
-/

namespace MetricLang

/-- A token at the start of a text, when nothing skips or runs into what follows. -/
theorem tokensAt_token {config : LexerConfig} {p : Position} {kind : TokenKind} {text : String}
    {cs rest : List Char} {us : List Token} (hfit : (Piece.token kind text cs).Fits config rest)
    (hus : tokensAt config (p.after cs) rest = .ok us) :
    tokensAt config p (cs ++ rest) = .ok (⟨kind, text, p, (p.after cs).offset⟩ :: us) := by
  have hcut : Piece.Cut config [.token kind text cs] rest := ⟨hfit, trivial⟩
  have := tokensAt_append hcut p
  simpa [Piece.chars, hus, Except.map] using this

/-- Only blanks and the letter that begins the word for comments can be skipped. -/
theorem readTrivia?_eq_none_of_head {comments : Bool} {c : Char} {cs : List Char}
    (hblank : isBlank c = false) (hletter : c.toLower ≠ 'r') :
    readTrivia? comments (c :: cs) = none := by
  refine readTrivia?_eq_none_iff.mpr ⟨by simp [hblank], fun _ => ?_⟩
  unfold readComment?
  split
  · next heq =>
    obtain ⟨rfl, rfl⟩ := List.cons.inj heq
    simp [hletter]
  · rfl

-- ---------------------------------------------------------------------------
-- Blanks
-- ---------------------------------------------------------------------------

/-- Blanks are skipped first. -/
theorem skipTrivia_dropWhile (comments : Bool) (cs : List Char) :
    skipTrivia comments (cs.dropWhile isBlank) = skipTrivia comments cs := by
  cases hr : readBlanks? cs with
  | none =>
    rw [readBlanks?_eq_none_iff] at hr
    cases cs <;> simp_all
  | some r =>
    unfold readBlanks? at hr
    split at hr
    · cases hr
    · next h =>
      cases hr
      have hr : readTrivia? comments cs = some (cs.takeWhile isBlank, cs.dropWhile isBlank) := by
        simp [readTrivia?, readBlanks?]
      exact (skipTrivia_of_some hr).symm

theorem skipTrivia_blanks (comments : Bool) {cs : List Char} (h : ∀ c ∈ cs, isBlank c)
    (rest : List Char) : skipTrivia comments (cs ++ rest) = skipTrivia comments rest := by
  rw [← skipTrivia_dropWhile, List.dropWhile_append_of_pos h, skipTrivia_dropWhile]

theorem skipTrivia_blank (comments : Bool) (rest : List Char) :
    skipTrivia comments (' ' :: rest) = skipTrivia comments rest :=
  skipTrivia_blanks comments (List.forall_mem_singleton.mpr rfl) rest

/-- A blank in front of a text only moves it. -/
theorem tokensAt_blank (p : Position) (rest : List Char) :
    tokensAt {} p (' ' :: rest) = tokensAt {} (p.after [' ']) rest := by
  have hcut : Piece.Cut {} [.gap [' ']] rest :=
    ⟨⟨List.cons_ne_nil _ _, skipTrivia_blank true rest⟩, trivial⟩
  have := tokensAt_append hcut p
  simp only [Piece.charsOf_cons, Piece.charsOf_nil, Piece.chars, List.append_nil,
    List.cons_append, List.nil_append, Piece.place_gap, Piece.place_nil] at this
  rw [this]
  cases tokensAt {} (p.after [' ']) rest <;> rfl

/-- A text between blanks, and what follows it. -/
theorem tokensAt_spaced (s : String) (p : Position) (rest : List Char) :
    tokensAt {} p ((" " ++ s ++ " ").toList ++ rest) =
      tokensAt {} (p.after [' ']) (s.toList ++ ' ' :: rest) := by
  rw [← tokensAt_blank]
  simp

theorem tokensAt_after_spaced (s : String) (p : Position) (rest : List Char) :
    tokensAt {} (p.after (" " ++ s ++ " ").toList) rest =
      tokensAt {} ((p.after [' ']).after s.toList) (' ' :: rest) := by
  have hcs : (" " ++ s ++ " ").toList = [' '] ++ (s.toList ++ [' ']) := by simp
  rw [hcs, Position.after_append, Position.after_append, tokensAt_blank]

-- ---------------------------------------------------------------------------
-- Punctuation
-- ---------------------------------------------------------------------------

/-- Punctuation that no other token begins with. -/
def isSolid (c : Char) : Bool :=
  ['\x7b', '\x7d', '(', ')', ',', ':', '!', '*', '/', '>', '<', '=', '~'].contains c

theorem Piece.fits_punct {c : Char} (hc : isSolid c) (rest : List Char) :
    (token .punct (String.singleton c) [c]).Fits {} rest := by
  have hsolid : ∀ c ∈ ['\x7b', '\x7d', '(', ')', ',', ':', '!', '*', '/', '>', '<', '=', '~'],
      isBlank c = false ∧ c.toLower ≠ 'r' := List.all_iff_forall_prop.mp (by decide)
  obtain ⟨hblank, hletter⟩ := hsolid c (by simpa [isSolid] using hc)
  refine ⟨readTrivia?_eq_none_of_head hblank hletter, ?_⟩
  simp only [isSolid, List.contains_iff_mem, List.mem_cons, List.not_mem_nil, or_false] at hc
  rcases hc with rfl | rfl | rfl | rfl | rfl | rfl | rfl | rfl | rfl | rfl | rfl | rfl | rfl <;> rfl

theorem tokensAt_punct {c : Char} {p : Position} {rest : List Char} {us : List Token}
    (hc : isSolid c) (hus : tokensAt {} (p.after [c]) rest = .ok us) :
    tokensAt {} p (c :: rest) = .ok (⟨.punct, String.singleton c, p, (p.after [c]).offset⟩ :: us) :=
  tokensAt_token (Piece.fits_punct hc rest) hus

theorem isPunct_singleton (c : Char) (p : Position) (n : Nat) :
    Token.isPunct c ⟨.punct, String.singleton c, p, n⟩ := by
  simp [Token.isPunct]

/-- A point or a sign that begins no number is a token of its own. -/
theorem Piece.fits_sign {c : Char} {rest : List Char} (hc : c ∈ ['.', '+', '-'])
    (hnumber : readNumber? (c :: rest) = none) :
    (token .punct (String.singleton c) [c]).Fits {} rest := by
  have hsign : ∀ c ∈ ['.', '+', '-'], isBlank c = false ∧ c.toLower ≠ 'r' :=
    List.all_iff_forall_prop.mp (by decide)
  obtain ⟨hblank, hletter⟩ := hsign c hc
  refine ⟨readTrivia?_eq_none_of_head hblank hletter, ?_⟩
  have hlexeme : Lexeme.number? (c :: rest) = none := by simp [Lexeme.number?, hnumber]
  rw [List.singleton_append, Lexeme.read?, hlexeme]
  simp only [List.mem_cons, List.not_mem_nil, or_false] at hc
  rcases hc with rfl | rfl | rfl <;> rfl

/-- No number begins with a point if what follows the point begins with no number, though
    it begins like one. -/
theorem readNumber?_point {c : Char} {cs : List Char} (hc : isIdentifierStart c)
    (hpoint : ((c :: cs).dropWhile Char.isDigit).head? ≠ some '.')
    (h : readNumber? (c :: cs) = none) : readNumber? ('.' :: c :: cs) = none := by
  have hsign : splitSign (c :: cs) = ([], c :: cs) := by
    unfold splitSign
    split
    · next heq => cases heq; cases hc
    · next heq => cases heq; cases hc
    · rfl
  have hdigits : splitDigits (c :: cs) =
      ((c :: cs).takeWhile Char.isDigit, (c :: cs).dropWhile Char.isDigit) := by
    unfold splitDigits
    split
    · next heq => simp [heq] at hpoint
    · rfl
  simp only [readNumber?, hsign, hdigits] at h
  have hsplit : splitSign ('.' :: c :: cs) = ([], '.' :: c :: cs) := rfl
  have htake : ('.' :: c :: cs).takeWhile Char.isDigit = [] := rfl
  have hdrop : ('.' :: c :: cs).dropWhile Char.isDigit = '.' :: c :: cs := rfl
  simp only [readNumber?, hsplit, splitDigits, htake, hdrop]
  cases htext : (c :: cs).takeWhile Char.isDigit with
  | nil => rfl
  | cons d ds =>
    rw [htext] at h
    simpa using h

-- ---------------------------------------------------------------------------
-- Strings
-- ---------------------------------------------------------------------------

theorem Piece.fits_string {q : Quote} {s : String} (h : '\n' ∉ s.toList) (rest : List Char) :
    (token (.string q) s (q.wrap s).toList).Fits {} rest := by
  have hcs : (q.wrap s).toList ++ rest = q.char :: (q.escape s.toList ++ q.char :: rest) := by
    simp [q.toList_wrap]
  refine ⟨?_, ?_⟩
  · rw [hcs]
    cases q <;> exact readTrivia?_eq_none_of_head (by decide) (by decide)
  · rw [hcs]
    exact Lexeme.read?_eq_some_iff.mpr (.inl (Lexeme.string?_of_feedsGuarded q rest (.of_not_mem h)))

theorem tokensAt_string {q : Quote} {s : String} {p : Position} {rest : List Char}
    {us : List Token} (h : '\n' ∉ s.toList)
    (hus : tokensAt {} (p.after (q.wrap s).toList) rest = .ok us) :
    tokensAt {} p ((q.wrap s).toList ++ rest) =
      .ok (⟨.string q, s, p, (p.after (q.wrap s).toList).offset⟩ :: us) :=
  tokensAt_token (Piece.fits_string h rest) hus

-- ---------------------------------------------------------------------------
-- Words of one token
-- ---------------------------------------------------------------------------

/-- An identifier or a number alone is a word. -/
theorem Word.complete_single {t e : Token} (ht : t.isIdentifier ∨ t.isNumber) (he : e.isEnd) :
    Rule.complete rule [t, e] = .ok ⟨t, []⟩ := by
  refine Rule.complete_eq_ok.mpr ⟨[e], reads_rule.mpr ⟨rfl, ?_, ?_, ?_⟩, he⟩
  · obtain ht | ht := ht <;> simp [canStart, ht]
  · simp [Runs, joins, Token.touches, he]
  · obtain ht | ht := ht
    · simp [Token.isPunct_of_isIdentifier _ ht]
    · simp [Token.isPunct_of_isNumber _ ht]

/-- A text that is read as one identifier or number up to its end is a word. -/
theorem Word.spells_of_read {s : String} {kind : TokenKind}
    (hblank : s.toList.head?.all (!isBlank ·))
    (hread : Lexeme.read? {} s.toList = some ⟨kind, s.toList, []⟩)
    (hkind : kind = .identifier ∨ kind = .integer ∨ kind = .float) :
    ∃ t e, tokenize ({} : LexerConfig).withoutComments s = .ok [t, e] ∧ t.kind = kind ∧
      t.text = s ∧ Spells ⟨t, []⟩ s := by
  have htrivia : readTrivia? false (s.toList ++ []) = none := by
    rw [List.append_nil]
    exact readTrivia?_eq_none_iff.mpr ⟨hblank, by simp⟩
  have hfit : (Piece.token kind s s.toList).Fits ({} : LexerConfig).withoutComments [] :=
    ⟨htrivia, by rw [List.append_nil]; exact hread⟩
  have htokens := tokensAt_token (p := .start) hfit (tokensAt_nil _ _)
  rw [List.append_nil, ← tokenize_eq_tokensAt] at htokens
  refine ⟨_, _, htokens, rfl, rfl, _, htokens, complete_single ?_ rfl, ?_⟩
  · simpa [Token.isIdentifier, Token.isNumber] using hkind
  · simp [text, tokens]

-- ---------------------------------------------------------------------------
-- Names
-- ---------------------------------------------------------------------------

/-- Is the text, alone and without comments, one identifier and nothing else? -/
def IsName (s : String) : Prop :=
  ∃ t e, tokenize ({} : LexerConfig).withoutComments s = .ok [t, e] ∧ t.isIdentifier ∧ t.text = s

namespace IsName

variable {s : String}

/-- A name is a word of one identifier. -/
theorem exists_word (h : IsName s) :
    ∃ t, t.isIdentifier ∧ t.text = s ∧ Word.Spells ⟨t, []⟩ s := by
  obtain ⟨t, e, htokens, ht, rfl⟩ := h
  refine ⟨t, ht, rfl, [t, e], htokens, ?_, by simp [Word.text, Word.tokens]⟩
  obtain ⟨ps, _, _, hts⟩ := exists_cut_of_tokensAt ((tokenize_eq_tokensAt _ _).symm.trans htokens)
  have he : e.isEnd := by
    have := congrArg List.getLast? hts
    simp only [List.getLast?_append, List.getLast?_cons_cons, List.getLast?_singleton,
      Option.some_or, Option.some.injEq] at this
    rw [this]
    rfl
  exact Word.complete_single (.inl ht) he

theorem cut (h : IsName s) :
    Piece.Cut { comments := false } [.token .identifier s s.toList] [] := by
  obtain ⟨t, ht, htext, hspells⟩ := h.exists_word
  obtain ⟨ps, hchars, hcut, hplain, hts, _⟩ := hspells.exists_row
  cases ps with
  | nil => simp [Word.tokens] at hts
  | cons piece ps =>
    obtain ⟨hfirst, hps⟩ := List.forall_mem_cons.mp hplain
    cases piece with
    | gap cs => cases hfirst
    | token kind text cs =>
      simp only [Word.tokens, Piece.place_token, List.cons.injEq] at hts
      cases ps with
      | nil =>
        have hkind : kind = .identifier := by simpa [hts.1, Token.isIdentifier] using ht
        have htext : text = s := by rw [← htext, hts.1]
        have hchars : cs = s.toList := by simpa [Piece.chars] using hchars
        rwa [hkind, htext, hchars] at hcut
      | cons piece ps =>
        have hpiece := hps piece List.mem_cons_self
        cases piece with
        | gap cs => cases hpiece
        | token kind text cs => simp at hts

/-- A name in front of a text that runs into no token is one identifier. -/
theorem fits (h : IsName s) {rest : List Char} (hb : Bounded rest)
    (hrem : sameLetters s "rem" → rest.head?.any (!isBlank ·)) :
    (Piece.token .identifier s s.toList).Fits {} rest := by
  have hplain : ∀ q ∈ [Piece.token .identifier s s.toList], q.isPlain := by
    simp [Piece.isPlain, TokenKind.isPlain]
  have hcut := h.cut.extend hplain hb fun hend => hrem <| by
    rw [@Piece.endsInComment_iff _ .start _ [] hplain h.cut rfl] at hend
    exact hend
  exact hcut.1

/-- A text that is read as an identifier up to its end is a name. -/
theorem of_read (hblank : s.toList.head?.all (!isBlank ·))
    (hread : Lexeme.read? {} s.toList = some ⟨.identifier, s.toList, []⟩) : IsName s := by
  obtain ⟨t, e, htokens, hkind, htext, _⟩ := Word.spells_of_read hblank hread (.inl rfl)
  exact ⟨t, e, htokens, by simp [Token.isIdentifier, hkind], htext⟩

/-- A name is an identifier up to its end, and no number comes first. -/
theorem read_eq (h : IsName s) :
    readNumber? s.toList = none ∧ readIdentifier? s.toList = some (s.toList, []) := by
  have hread := h.cut.1.2
  simp only [Piece.charsOf_nil, List.append_nil] at hread
  obtain hstring | ⟨_, hnumber | ⟨hnumber, _⟩⟩ := Lexeme.read?_eq_some_iff.mp hread
  · obtain ⟨q, hkind, _⟩ := Lexeme.string?_eq_some hstring
    cases hkind
  · have hkind := (Lexeme.number?_eq_some hnumber).2
    dsimp only at hkind
    split at hkind <;> cases hkind
  · refine ⟨by simpa [Lexeme.number?] using hnumber, ?_⟩
    obtain ⟨_, hkind, _⟩ | ⟨hkind, _⟩ | ⟨_, hidentifier⟩ | ⟨hkind, _⟩ := Lexeme.kind_cases hread
    · cases hkind
    · cases hkind <;> contradiction
    · exact hidentifier
    · cases hkind

/-- No number begins with a point in front of a name. -/
theorem readNumber?_point (h : IsName s) : readNumber? ('.' :: s.toList) = none := by
  obtain ⟨hnumber, hidentifier⟩ := h.read_eq
  have hparts := isIdentifierPart_of_readIdentifier? hidentifier
  cases hs : s.toList with
  | nil => rw [hs] at hidentifier; cases hidentifier
  | cons c cs =>
    rw [hs] at hnumber hidentifier hparts
    refine MetricLang.readNumber?_point ?_ (fun hpoint => ?_) hnumber
    · by_contra hc
      simp [MetricLang.readIdentifier?, hc] at hidentifier
    · have hmem := (List.dropWhile_sublist _).subset (List.mem_of_head? hpoint)
      exact absurd (hparts '.' hmem) (by decide)

/-- A name in front of what is neither a blank nor goes on with it. -/
theorem tokensAt (h : IsName s) {p : Position} {rest : List Char} {us : List Token}
    (hb : Bounded rest) (hrem : rest.head?.any (!isBlank ·))
    (hus : MetricLang.tokensAt {} (p.after s.toList) rest = .ok us) :
    ∃ t, MetricLang.tokensAt {} p (s.toList ++ rest) = .ok (t :: us) ∧ t.isIdentifier ∧ t.text = s :=
  ⟨_, tokensAt_token (h.fits hb fun _ => hrem) hus, rfl, rfl⟩

/-- A point in front of a name is a token of its own. -/
theorem fits_point (h : IsName s) {rest : List Char} (hb : Bounded rest) :
    (Piece.token .punct "." ['.']).Fits {} (s.toList ++ rest) := by
  refine Piece.fits_sign (by simp) ?_
  have happend : readNumber? ('.' :: s.toList ++ rest) = _ :=
    readNumber?_append_right (by simp) (parts_of_bounded hb)
  rw [h.readNumber?_point] at happend
  simpa using happend

end IsName

/-- Every keyword is a name. -/
theorem Keyword.isName (k : Keyword) : IsName k.spelling := by
  cases k <;> exact IsName.of_read rfl rfl

/-- No keyword begins a comment. -/
theorem Keyword.sameLetters_rem (k : Keyword) : sameLetters k.spelling "rem" = false := by
  cases k <;> decide

/-- Letters in front of a text that does not go on with them. -/
theorem Piece.fits_letters {s : String} {c : Char} {cs rest : List Char} (hs : s.toList = c :: cs)
    (hc : c.isAlpha) (hletter : c.toLower ≠ 'r') (hcs : ∀ d ∈ cs, isIdentifierPart d)
    (hends : rest.head?.all (!isIdentifierPart ·)) :
    (token .identifier s s.toList).Fits {} rest := by
  have hstart := isIdentifierStart_of_isAlpha hc
  have hplain := isPlainChar_of_isIdentifierPart (isIdentifierPart_of_start hstart)
  have hblank := not_isBlank_of_isPlainChar hplain
  have hidentifier : readIdentifier? (c :: cs ++ rest) = some (c :: cs, rest) := by
    have htake : rest.takeWhile isIdentifierPart = [] ∧ rest.dropWhile isIdentifierPart = rest := by
      cases rest <;> simp_all
    simp [readIdentifier?, hstart, List.takeWhile_append_of_pos hcs,
      List.dropWhile_append_of_pos hcs, htake]
  refine ⟨?_, Lexeme.read?_eq_some_iff.mpr (.inr ⟨?_, .inr ⟨?_, .inl ?_⟩⟩)⟩
  · rw [hs]
    exact readTrivia?_eq_none_of_head hblank hletter
  · rw [hs]
    exact Lexeme.string?_of_isPlainChar _ hplain
  · simp [hs, Lexeme.number?, readNumber?_of_isAlpha _ hc]
  · rw [hs, Lexeme.identifier?, hidentifier]
    rfl

theorem Keyword.fits (k : Keyword) {rest : List Char} (hends : rest.head?.all (!isIdentifierPart ·)) :
    (Piece.token .identifier k.spelling k.spelling.toList).Fits {} rest := by
  obtain ⟨c, cs, hk, hc, hletter, hcs⟩ : ∃ c cs, k.spelling.toList = c :: cs ∧ c.isAlpha ∧
      c.toLower ≠ 'r' ∧ ∀ d ∈ cs, isIdentifierPart d := by
    cases k <;> exact ⟨_, _, rfl, by decide, by decide, List.all_iff_forall_prop.mp (by decide)⟩
  exact Piece.fits_letters hk hc hletter hcs hends

/-- A keyword in front of a text that does not go on with it. -/
theorem Keyword.tokensAt (k : Keyword) {p : Position} {rest : List Char} {us : List Token}
    (hends : rest.head?.all (!isIdentifierPart ·))
    (hus : MetricLang.tokensAt {} (p.after k.spelling.toList) rest = .ok us) :
    ∃ t, MetricLang.tokensAt {} p (k.spelling.toList ++ rest) = .ok (t :: us) ∧
      t.isKeyword k.spelling :=
  ⟨_, tokensAt_token (k.fits hends) hus, by simp [Token.isKeyword, Token.isIdentifier]⟩

/-- Two keywords with a blank between them. -/
theorem Keyword.tokensAt_pair (k l : Keyword) {p : Position} {rest : List Char} {us : List Token}
    (hends : rest.head?.all (!isIdentifierPart ·))
    (hus : MetricLang.tokensAt {} (p.after (k.spelling ++ " " ++ l.spelling).toList) rest = .ok us) :
    ∃ t u, MetricLang.tokensAt {} p ((k.spelling ++ " " ++ l.spelling).toList ++ rest) =
      .ok (t :: u :: us) ∧ t.isKeyword k.spelling ∧ u.isKeyword l.spelling := by
  have hcs : (k.spelling ++ " " ++ l.spelling).toList =
      k.spelling.toList ++ ([' '] ++ l.spelling.toList) := by simp
  rw [hcs, Position.after_append, Position.after_append] at hus
  obtain ⟨u, hu, hul⟩ := l.tokensAt hends hus
  obtain ⟨t, ht, htk⟩ := k.tokensAt rfl ((tokensAt_blank _ _).trans hu)
  refine ⟨t, u, ?_, htk, hul⟩
  rw [← ht, hcs]
  simp

end MetricLang
