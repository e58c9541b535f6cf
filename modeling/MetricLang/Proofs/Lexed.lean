-- SUMMARY: Tokens that come from a text: what words and strings among them are spelled like.
import MetricLang.Proofs.WholeTexts

/-!
# Tokens of a text

Rules read any tokens, but the tokens that they get are those of a text without
line breaks. So a word that was read is spelled like one, and what follows the
word for comments touches it.
-/

namespace MetricLang

/-- Every token of a row of pieces is one of the pieces. -/
theorem Piece.exists_of_place {ps : List Piece} {p : Position} {ts us : List Token} {t : Token}
    (h : place p ps = ts ++ t :: us) : ∃ as kind text cs bs,
      ps = as ++ .token kind text cs :: bs ∧ ts = place p as ∧
      t = ⟨kind, text, p.after (charsOf as), ((p.after (charsOf as)).after cs).offset⟩ ∧
      us = place ((p.after (charsOf as)).after cs) bs := by
  induction ps generalizing p ts with
  | nil => simp at h
  | cons piece ps ih =>
    cases piece with
    | gap cs =>
      obtain ⟨as, kind, text, ds, bs, rfl, hts, ht, hus⟩ := ih h
      exact ⟨.gap cs :: as, kind, text, ds, bs, rfl, hts,
        by simpa [chars, Position.after_append] using ht,
        by simpa [chars, Position.after_append] using hus⟩
    | token kind text cs =>
      cases ts with
      | nil =>
        simp only [place_token, List.nil_append, List.cons.injEq] at h
        exact ⟨[], kind, text, cs, ps, rfl, rfl, h.1.symm, h.2.symm⟩
      | cons u ts =>
        simp only [place_token, List.cons_append, List.cons.injEq] at h
        obtain ⟨rfl, h⟩ := h
        obtain ⟨as, kind', text', ds, bs, rfl, rfl, ht, hus⟩ := ih h
        exact ⟨.token kind text cs :: as, kind', text', ds, bs, rfl, rfl,
          by simpa [chars, Position.after_append] using ht,
          by simpa [chars, Position.after_append] using hus⟩

/-- The pieces before a token, and the text of those after it. -/
theorem exists_pieces_of_tokensAt {p : Position} {cs : List Char} {ts us : List Token} {t : Token}
    (h : tokensAt {} p cs = .ok (ts ++ t :: us)) (ht : t.isEnd = false) :
    ∃ as kind text taken rest, cs = Piece.charsOf as ++ (taken ++ rest) ∧ ts = Piece.place p as ∧
      t = ⟨kind, text, p.after (Piece.charsOf as),
        ((p.after (Piece.charsOf as)).after taken).offset⟩ ∧
      Piece.Cut {} as (taken ++ rest) ∧ (Piece.token kind text taken).Fits {} rest ∧
      tokensAt {} ((p.after (Piece.charsOf as)).after taken) rest = .ok us := by
  obtain ⟨ps, rfl, hcut, hts⟩ := exists_cut_of_tokensAt h
  obtain rfl | ⟨init, last, rfl⟩ := List.eq_nil_or_concat us
  · obtain ⟨_, hlast⟩ := List.append_inj' hts rfl
    cases hlast
    cases ht
  · rw [List.concat_eq_append] at hts ⊢
    rw [← List.cons_append, ← List.append_assoc] at hts
    obtain ⟨hplace, hlast⟩ := List.append_inj' hts rfl
    cases hlast
    obtain ⟨as, kind, text, taken, bs, rfl, rfl, rfl, rfl⟩ := Piece.exists_of_place hplace.symm
    obtain ⟨has, hfit, hbs⟩ := Piece.cut_append.mp hcut
    rw [List.append_nil] at has hfit
    refine ⟨as, kind, text, taken, Piece.charsOf bs, by simp [Piece.chars], rfl, rfl, has, hfit, ?_⟩
    have := tokensAt_append hbs ((p.after (Piece.charsOf as)).after taken)
    rw [List.append_nil, tokensAt_nil] at this
    rw [this]
    simp [Except.map, Piece.chars, Position.after_append]

/-- The text that a token and those after it come from. -/
theorem exists_text_of_tokensAt {p : Position} {cs : List Char} {ts us : List Token} {t : Token}
    (h : tokensAt {} p cs = .ok (ts ++ t :: us)) (ht : t.isEnd = false) :
    ∃ before kind text taken rest, cs = before ++ (taken ++ rest) ∧
      t = ⟨kind, text, p.after before, ((p.after before).after taken).offset⟩ ∧
      (Piece.token kind text taken).Fits {} rest ∧
      tokensAt {} ((p.after before).after taken) rest = .ok us := by
  obtain ⟨as, kind, text, taken, rest, hcs, _, ht, _, hfit, hus⟩ := exists_pieces_of_tokensAt h ht
  exact ⟨_, kind, text, taken, rest, hcs, ht, hfit, hus⟩

/-- Are these the tokens at the end of a text of one line? -/
def Lexed (ts : List Token) : Prop :=
  ∃ p cs us, (∀ c ∈ cs, isLineEnd c = false) ∧ tokensAt {} p cs = .ok us ∧ ts <:+ us

namespace Lexed

variable {t : Token} {ts us : List Token}

theorem suffix (h : Lexed ts) (hsuffix : us <:+ ts) : Lexed us := by
  obtain ⟨p, cs, vs, hline, hvs, hts⟩ := h
  exact ⟨p, cs, vs, hline, hvs, hsuffix.trans hts⟩

theorem tail (h : Lexed (t :: us)) : Lexed us := h.suffix (List.suffix_cons t us)

theorem exists_text (h : Lexed (t :: us)) (ht : t.isEnd = false) : ∃ q kind text taken rest,
    t = ⟨kind, text, q, (q.after taken).offset⟩ ∧ (Piece.token kind text taken).Fits {} rest ∧
      tokensAt {} (q.after taken) rest = .ok us ∧ ∀ c ∈ taken ++ rest, isLineEnd c = false := by
  obtain ⟨p, cs, vs, hline, hvs, xs, rfl⟩ := h
  obtain ⟨before, kind, text, taken, rest, rfl, ht, hfit, hus⟩ := exists_text_of_tokensAt hvs ht
  exact ⟨_, kind, text, taken, rest, ht, hfit, hus,
    fun c hc => hline c (List.mem_append_right _ hc)⟩

end Lexed

/-- Where no trivia comes first, a token does. -/
theorem peek_of_readTrivia? {q : Position} {c : Char} {cs : List Char} {us : List Token}
    (h : readTrivia? true (c :: cs) = none) (hus : tokensAt {} q (c :: cs) = .ok us) :
    ∃ kind text taken rest, c :: cs = taken ++ rest ∧
      peek us = ⟨kind, text, q, (q.after taken).offset⟩ ∧
      Lexeme.read? {} (c :: cs) = some ⟨kind, text.toList, rest⟩ := by
  obtain ⟨ps, hchars, hcut, rfl⟩ := exists_cut_of_tokensAt hus
  cases ps with
  | nil => cases hchars
  | cons piece ps =>
    obtain ⟨hfit, _⟩ := hcut
    rw [List.append_nil] at hfit
    cases piece with
    | gap gs =>
      exfalso
      obtain ⟨hne, hskip⟩ := hfit
      have hlength := (skipTrivia_suffix true (Piece.charsOf ps)).length_le
      rw [← hskip, show gs ++ Piece.charsOf ps = c :: cs from hchars, skipTrivia_of_none h,
        ← hchars] at hlength
      have := List.length_pos_iff.mpr hne
      simp only [Piece.charsOf_cons, Piece.chars, List.length_append] at hlength
      omega
    | token kind text taken =>
      simp only [Piece.charsOf_cons, Piece.chars] at hchars
      refine ⟨kind, text, taken, Piece.charsOf ps, hchars.symm, rfl, ?_⟩
      rw [← hchars]
      exact hfit.2

-- ---------------------------------------------------------------------------
-- Words
-- ---------------------------------------------------------------------------

/-- What begins with a plain character is an identifier, a number or that character. -/
theorem Lexeme.kind_of_isPlainChar {c : Char} {cs after : List Char} {kind : TokenKind}
    {text : String} (hc : isPlainChar c)
    (h : Lexeme.read? {} (c :: cs) = some ⟨kind, text.toList, after⟩) :
    kind = .identifier ∨ (kind = .integer ∨ kind = .float) ∨
      kind = .punct ∧ text = String.singleton c ∧ isIdentifierStart c = false := by
  obtain h | ⟨_, h | ⟨_, h | ⟨hid, h⟩⟩⟩ := Lexeme.read?_eq_some_iff.mp h
  · simp [Lexeme.string?_of_isPlainChar cs hc] at h
  · have hkind := (Lexeme.number?_eq_some h).2
    dsimp only at hkind
    refine .inr (.inl ?_)
    rw [hkind]
    split <;> simp
  · exact .inl (Lexeme.identifier?_eq_some h).2
  · obtain ⟨d, _, hd, hkind, htext⟩ := Lexeme.punct?_eq_some h
    obtain rfl := (List.cons.inj hd).1
    refine .inr (.inr ⟨hkind, ?_, Lexeme.identifier?_eq_none_iff.mp hid⟩)
    rw [← String.toList_inj, String.toList_singleton]
    exact htext

namespace Word

/-- May a word go on with the character? -/
def isPartChar (c : Char) : Bool := isIdentifierPart c || c = '.' || c = '/'

theorem isPlainChar_of_isPartChar {c : Char} (h : isPartChar c) : isPlainChar c := by
  simp only [isPartChar, Bool.or_eq_true, decide_eq_true_eq] at h
  obtain (h | rfl) | rfl := h
  · exact isPlainChar_of_isIdentifierPart h
  · decide
  · decide

/-- What begins no identifier and goes on with a word is punctuation. -/
theorem mem_of_isPartChar {c : Char} (h : isPartChar c) (hstart : isIdentifierStart c = false) :
    c ∈ ['.', '/', '-', '*'] := by
  simp only [isPartChar, isIdentifierPart, hstart, Bool.false_or, Bool.or_eq_true,
    decide_eq_true_eq] at h
  simp only [List.mem_cons, List.not_mem_nil, or_false]
  tauto

/-- What begins with such a character goes on with a word in front of it. -/
theorem canContinue_of_read? {c : Char} {cs after : List Char} {kind : TokenKind} {text : String}
    (hc : isPartChar c) (h : Lexeme.read? {} (c :: cs) = some ⟨kind, text.toList, after⟩)
    (start : Position) (stop : Nat) : canContinue ⟨kind, text, start, stop⟩ := by
  obtain rfl | hnumber | ⟨rfl, rfl, hstart⟩ :=
    Lexeme.kind_of_isPlainChar (isPlainChar_of_isPartChar hc) h
  · simp [canContinue, Token.isIdentifier]
  · simp [canContinue, Token.isNumber, hnumber]
  · simp only [canContinue, Bool.or_eq_true, List.any_eq_true]
    exact .inr ⟨c, mem_of_isPartChar hc hstart, by simp [Token.isPunct]⟩

end Word

/-- A word does not stop in front of a digit or a point. -/
theorem Word.head_of_joins {q : Position} {rest : List Char} {us : List Token} {t : Token}
    (hus : tokensAt {} q rest = .ok us) (ht : t.stop = q.offset) (hjoins : joins t (peek us) = false) :
    rest.head?.all fun d => !d.isDigit && d != '.' := by
  cases rest with
  | nil => rfl
  | cons c cs =>
    rw [List.head?_cons, Option.all_some, Bool.and_eq_true, Bool.not_eq_true', bne_iff_ne,
      ← Bool.not_eq_true, ← not_or]
    intro hc
    have htrivia : readTrivia? true (c :: cs) = none := by
      obtain hc | rfl := hc
      · refine readTrivia?_eq_none_of_head ?_ fun hlower => ?_
        · exact not_isBlank_of_isPlainChar (isPlainChar_of_isDigit hc)
        · have halpha : c.isAlpha := isAlpha_of_toLower (by rw [hlower]; decide)
          simp [isDigit_of_isAlpha halpha] at hc
      · exact readTrivia?_eq_none_of_head (by decide) (by decide)
    obtain ⟨kind, text, taken, after, _, hpeek, hread⟩ := peek_of_readTrivia? htrivia hus
    have hpart : isPartChar c := by
      obtain hc | rfl := hc
      · simp [isPartChar, isIdentifierPart_of_start (isIdentifierStart_of_isDigit hc)]
      · decide
    have hgoes := canContinue_of_read? hpart hread q (q.after taken).offset
    have hend : kind ≠ .endOfInput := Lexeme.kind_ne_endOfInput hread
    simp [joins, hpeek, hgoes, Token.touches, ht, Token.isEnd, hend] at hjoins

/-- The tokens by which a word goes on come from a row of pieces without gaps. -/
theorem Word.exists_row_of_runs {q : Position} {rest : List Char} {prev : Token}
    {more us : List Token} (hus : tokensAt {} q rest = .ok (more ++ us))
    (hprev : prev.stop = q.offset) (hrun : Runs prev more us) :
    ∃ ps after, rest = Piece.charsOf ps ++ after ∧ Piece.Cut {} ps after ∧ (∀ p ∈ ps, p.isPlain) ∧
      more = Piece.place q ps ∧ tokensAt {} (q.after (Piece.charsOf ps)) after = .ok us ∧
      after.head?.all fun d => !d.isDigit && d != '.' := by
  induction more generalizing q rest prev with
  | nil => exact ⟨[], rest, rfl, trivial, by simp, rfl, hus, head_of_joins hus hprev hrun⟩
  | cons t more ih =>
    obtain ⟨hjoins, hrun⟩ := hrun
    simp only [joins, Token.touches, Bool.and_eq_true, Bool.not_eq_true', decide_eq_true_eq] at hjoins
    obtain ⟨⟨hend, htouches⟩, hgoes⟩ := hjoins
    obtain ⟨before, kind, text, taken, rest, rfl, rfl, hfit, hmore⟩ :=
      @exists_text_of_tokensAt _ _ [] _ _ hus hend
    have hbefore : before = [] := by
      by_contra hne
      have := byteCount_pos hne
      rw [hprev, Position.offset_after] at htouches
      omega
    subst hbefore
    obtain ⟨ps, after, rfl, hcut, hplain, rfl, hafter, hhead⟩ := ih hmore rfl hrun
    refine ⟨.token kind text taken :: ps, after, by simp [Piece.chars], ⟨hfit, hcut⟩, ?_, rfl, ?_, hhead⟩
    · exact List.forall_mem_cons.mpr ⟨isPlain_of_canContinue hgoes, hplain⟩
    · simpa [Piece.chars, Position.after_append] using hafter

/-- The text that a word comes from. -/
theorem Word.exists_row_of_tokensAt {p : Position} {cs : List Char} {pre ts us : List Token}
    {w : Word} (h : tokensAt {} p cs = .ok (pre ++ ts)) (hw : rule.Reads ts w us) :
    ∃ q before ps after, cs = before ++ (Piece.charsOf ps ++ after) ∧ Piece.Cut {} ps after ∧
      (∀ p ∈ ps, p.isPlain) ∧ w.tokens = Piece.place q ps ∧
      tokensAt {} (q.after (Piece.charsOf ps)) after = .ok us ∧
      after.head?.all fun d => !d.isDigit && d != '.' := by
  obtain ⟨rfl, hstart, hrun, _⟩ := reads_rule.mp hw
  obtain ⟨before, kind, text, taken, rest, rfl, ht, hfit, hmore⟩ :=
    exists_text_of_tokensAt h (isEnd_of_canStart hstart)
  rw [ht] at hstart hrun
  obtain ⟨ps, after, rfl, hcut, hplain, hmoreTokens, hafter, hhead⟩ := exists_row_of_runs hmore rfl hrun
  refine ⟨p.after before, before, .token kind text taken :: ps, after, ?_, ⟨hfit, hcut⟩, ?_, ?_, ?_,
    hhead⟩
  · simp [Piece.chars]
  · exact List.forall_mem_cons.mpr ⟨isPlain_of_canStart hstart, hplain⟩
  · rw [tokens, ht, hmoreTokens]
    rfl
  · simpa [Piece.chars, Position.after_append] using hafter

/-- A word of a line comes from a row of pieces, with a line behind it. -/
theorem Word.Reads.exists_row {ts us : List Token} {w : Word} (h : Lexed ts)
    (hw : rule.Reads ts w us) : ∃ q ps after, Piece.Cut {} ps after ∧ (∀ p ∈ ps, p.isPlain) ∧
      w.tokens = Piece.place q ps ∧ tokensAt {} (q.after (Piece.charsOf ps)) after = .ok us ∧
      (after.head?.all fun d => !d.isDigit && d != '.') ∧ ∀ c ∈ after, isLineEnd c = false := by
  obtain ⟨p, cs, vs, hline, hvs, pre, rfl⟩ := h
  obtain ⟨q, before, ps, after, rfl, hcut, hplain, htokens, hafter, hhead⟩ :=
    exists_row_of_tokensAt hvs hw
  exact ⟨q, ps, after, hcut, hplain, htokens, hafter, hhead, fun c hc => hline c (by simp [hc])⟩

/-- Plain tokens have the characters of their pieces. -/
theorem Piece.flatten_place {comments : Bool} {ps : List Piece} {rest : List Char}
    (h : Cut { comments } ps rest) (hp : ∀ p ∈ ps, p.isPlain) (q : Position) :
    ((place q ps).map (·.text.toList)).flatten = charsOf ps := by
  induction ps generalizing q with
  | nil => rfl
  | cons p ps ih =>
    obtain ⟨hplain, hps⟩ := List.forall_mem_cons.mp hp
    cases p with
    | gap cs => cases hplain
    | token kind text cs =>
      obtain ⟨rfl, _⟩ := h.1.plain hplain
      simp [chars, ih h.2 hps]

theorem Word.toList_text (w : Word) : w.text.toList = (w.tokens.map (·.text.toList)).flatten := by
  simp [Word.text, String.toList_join, List.flatMap, Function.comp_def]

/-- A word that was read is spelled. -/
theorem Word.Reads.spells {ts us : List Token} {w : Word} (h : Lexed ts)
    (hw : rule.Reads ts w us) : ∃ v : Word, v.Spells w.text ∧ Like v w := by
  obtain ⟨q, ps, after, hcut, hplain, htokens, _, hhead, _⟩ := Reads.exists_row h hw
  obtain ⟨_, hstart, hrun, hlone⟩ := reads_rule.mp hw
  have hbare := hcut.bare hplain hhead
  have hchars : w.text.toList = Piece.charsOf ps := by
    rw [toList_text, htokens, Piece.flatten_place hcut hplain]
  have hts := tokensAt_append hbare .start
  rw [List.append_nil, ← hchars, tokensAt_nil] at hts
  cases ps with
  | nil => simp [tokens] at htokens
  | cons piece ps =>
    obtain ⟨hfirst, hps⟩ := List.forall_mem_cons.mp hplain
    cases piece with
    | gap cs => cases hfirst
    | token kind text cs =>
      let v : Word := ⟨⟨kind, text, .start, (Position.start.after cs).offset⟩,
        Piece.place (Position.start.after cs) ps⟩
      have hlike : Like v w := by
        rw [Like, htokens]
        exact Piece.place_like (.token kind text cs :: ps) .start q
      obtain ⟨hstart, hgo, hlone⟩ :=
        Formed.of_like ⟨hstart, canContinue_of_runs hrun, hlone⟩ hlike
      refine ⟨v, ⟨_, hts, Rule.complete_eq_ok.mpr ⟨_, reads_rule.mpr ⟨rfl, hstart, ?_, hlone⟩, rfl⟩,
        hlike.text⟩, hlike⟩
      refine runs_place hps hgo rfl fun t _ => ?_
      simp [joins, Token.touches, Token.isEnd, Token.endAt]

/-- What follows the word for comments is neither a name nor the end. -/
theorem peek_of_spellsComment {q : Position} {kind : TokenKind} {text : String} {after : List Char}
    {us : List Token} (h : spellsComment text.toList)
    (hfit : (Piece.token kind text text.toList).Fits {} after)
    (hus : tokensAt {} q after = .ok us) :
    (peek us).isIdentifier = false ∧ (peek us).isEnd = false := by
  obtain ⟨htrivia, hread⟩ := hfit
  have halpha := isAlpha_of_spellsComment h
  obtain ⟨r, e, m, htext⟩ : ∃ r e m, text.toList = [r, e, m] := by
    have hlength := congrArg List.length (of_decide_eq_true h)
    rw [List.length_map] at hlength
    exact List.length_eq_three.mp hlength
  rw [htext] at h halpha htrivia hread
  have hcomment := (readTrivia?_eq_none_iff.mp htrivia).2 rfl
  cases after with
  | nil => simp_all [readComment?, spellsComment]
  | cons c cs =>
    have hblank : isBlank c = false := by simp_all [readComment?, spellsComment]
    have hid := (Lexeme.identifier?_eq_some
      (Lexeme.identifier?_of_isAlpha (halpha r List.mem_cons_self) hread)).1
    have hpart : isIdentifierPart c = false := by simpa using head_of_readIdentifier? hid
    have hstart : isIdentifierStart c = false := by
      rw [← Bool.not_eq_true]
      intro hstart
      simp [isIdentifierPart_of_start hstart] at hpart
    have hletter : c.toLower ≠ 'r' := by
      intro hlower
      have halpha : c.isAlpha := isAlpha_of_toLower (by rw [hlower]; decide)
      simp [isIdentifierStart_of_isAlpha halpha] at hstart
    obtain ⟨kind, text, taken, rest, _, hpeek, hread⟩ :=
      peek_of_readTrivia? (readTrivia?_eq_none_of_head hblank hletter) hus
    have hend : kind ≠ .endOfInput := Lexeme.kind_ne_endOfInput hread
    have hkind : kind ≠ .identifier := by
      obtain h | ⟨_, h | ⟨_, h | ⟨_, h⟩⟩⟩ := Lexeme.read?_eq_some_iff.mp hread
      · obtain ⟨q, hq, _⟩ := Lexeme.string?_eq_some h
        dsimp only at hq
        simp [hq]
      · have hnumber := (Lexeme.number?_eq_some h).2
        dsimp only at hnumber
        rw [hnumber]
        split <;> decide
      · simp [Lexeme.identifier?, readIdentifier?, hstart] at h
      · obtain ⟨_, _, _, hpunct, _⟩ := Lexeme.punct?_eq_some h
        dsimp only at hpunct
        simp [hpunct]
    simp [hpeek, Token.isIdentifier, Token.isEnd, hend, hkind]

theorem Word.Reads.peek_of_endsInComment {ts us : List Token} {w : Word} (h : Lexed ts)
    (hw : rule.Reads ts w us) (hend : w.endsInComment) :
    (peek us).isIdentifier = false ∧ (peek us).isEnd = false := by
  obtain ⟨q, ps, after, hcut, hplain, htokens, hus, _⟩ := Reads.exists_row h hw
  obtain rfl | ⟨init, last, rfl⟩ := List.eq_nil_or_concat ps
  · simp [tokens] at htokens
  · rw [List.concat_eq_append] at hcut hplain htokens hus
    cases last with
    | gap cs => simpa [Piece.isPlain] using hplain (.gap cs)
    | token kind text cs =>
      have hfit := (Piece.cut_append.mp hcut).2.1
      rw [Piece.charsOf_nil, List.nil_append] at hfit
      obtain ⟨rfl, _⟩ := hfit.plain (hplain (.token kind text cs) (by simp))
      refine peek_of_spellsComment ?_ hfit hus
      simp only [endsInComment, htokens, Piece.place_append, Piece.place_token, Piece.place_nil,
        List.getLast_append_singleton] at hend
      exact hend

end MetricLang
