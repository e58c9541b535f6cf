-- SUMMARY: Words of several tokens are values and keys, unless they begin with an operator.
import MetricLang.Proofs.Canonical

/-!
# Words as values and keys

Where a filter expects a value it looks for a connective first, and where it expects a
key it takes no operator. Both look at one token, which may be the first of a word. So a
word of several tokens is a value unless its first token spells a connective
(`Word.Reads.single_iff`); where it does, the connective is read and the rest of the
word is left.
-/

namespace MetricLang

-- ---------------------------------------------------------------------------
-- Words of several tokens
-- ---------------------------------------------------------------------------

/-- Does the token spell one of the keywords? -/
def Token.isAnyOf (ks : List Keyword) (t : Token) : Bool := ks.any fun k => t.isKeyword k.spelling

theorem Connective.startsWord_eq (t : Token) : startsWord t = t.isAnyOf [.and, .or, .isIn] := by
  simp [startsWord, Token.isAnyOf, Bool.or_assoc]

/-- An identifier begins with a character that can begin one. -/
theorem Piece.Fits.isIdentifierStart_head {text : String} {c : Char} {cs after rest : List Char}
    (h : (token .identifier text cs).Fits {} after) (hc : cs ++ after = c :: rest) :
    isIdentifierStart c := by
  rcases Lexeme.kind_cases h.2 with ⟨_, hkind, _⟩ | ⟨hkind, _⟩ | ⟨_, hread⟩ | ⟨hkind, _⟩
  · cases hkind
  · rcases hkind with hkind | hkind <;> cases hkind
  · simp only [hc, readIdentifier?] at hread
    split at hread
    · assumption
    · cases hread
  · cases hkind

/-- No identifier is right behind another: the first one would go on with it. -/
theorem Piece.Fits.not_fits_identifier {s s' : String} {cs cs' after : List Char}
    (h : (token .identifier s cs).Fits {} (cs' ++ after)) : ¬ (token .identifier s' cs').Fits {} after := by
  intro h'
  rcases List.exists_cons_of_ne_nil h'.token_ne_nil with ⟨c, rest, hc⟩
  have hstops := Word.head_of_identifier h
  have hstarts := isIdentifierPart_of_start (h'.isIdentifierStart_head hc)
  simp [hc, hstarts] at hstops

/-- In a row without gaps no identifier comes after another. -/
theorem Piece.Cut.not_isIdentifier {ps : List Piece} {after : List Char} {q : Position} {t u : Token}
    {us : List Token} (hcut : Cut {} ps after) (hplain : ∀ p ∈ ps, p.isPlain)
    (h : place q ps = t :: u :: us) (ht : t.isIdentifier) : u.isIdentifier = false := by
  cases ps with
  | nil => cases h
  | cons first ps =>
    cases first with
    | gap cs => simp [isPlain] at hplain
    | token kind s cs =>
      cases ps with
      | nil => cases h
      | cons second ps =>
        cases second with
        | gap cs => simp [isPlain] at hplain
        | token kind' s' cs' =>
          simp only [place_token, List.cons.injEq] at h
          rcases h with ⟨rfl, rfl, _⟩
          rcases hcut with ⟨hfit, hfit', _⟩
          obtain rfl : kind = .identifier := by simpa [Token.isIdentifier] using ht
          refine Bool.eq_false_iff.mpr fun hu => ?_
          obtain rfl : kind' = .identifier := by simpa [Token.isIdentifier] using hu
          simp only [charsOf_cons, chars, List.append_assoc] at hfit
          exact hfit.not_fits_identifier hfit'

namespace Word

section

variable {text : String} {pre ts us : List Token} {w : Word}

/-- A word of several tokens spells no keyword. -/
theorem Reads.ofText?_eq_none (hw : rule.Reads ts w us) (hts : tokenize {} text = .ok (pre ++ ts))
    (hmore : w.more ≠ []) : Keyword.ofText? w.text = none := by
  rcases exists_row_of_tokensAt hts hw with ⟨q, _, ps, after, _, hcut, hplain, htokens, _⟩
  cases hk : Keyword.ofText? w.text with
  | none => rfl
  | some k =>
    exact absurd (single_of_row hcut hplain htokens (Keyword.isAlpha_of_ofText? hk)).2 hmore

/-- A word of several tokens stands for its text. -/
theorem Reads.text_ofWord (hw : rule.Reads ts w us) (hts : tokenize {} text = .ok (pre ++ ts))
    (hmore : w.more ≠ []) : (Value.ofWord w).text = w.text := by
  have hkeyword := Reads.ofText?_eq_none hw hts hmore
  have hnumber : w.isNumber = false := by simp [isNumber, hmore]
  simp only [Value.ofWord, hkeyword, hnumber, Option.bind_none, Bool.false_eq_true, if_false]
  split <;> rfl

/-- No identifier of a word comes after another. -/
theorem Reads.not_isIdentifier_peek (hw : rule.Reads ts w us)
    (hts : tokenize {} text = .ok (pre ++ ts)) (hmore : w.more ≠ []) (hfirst : w.first.isIdentifier) :
    (peek (w.more ++ us)).isIdentifier = false := by
  rcases exists_row_of_tokensAt hts hw with ⟨q, _, ps, after, _, hcut, hplain, htokens, _⟩
  rcases List.exists_cons_of_ne_nil hmore with ⟨u, more, hu⟩
  rw [tokens, hu] at htokens
  rw [hu]
  exact hcut.not_isIdentifier hplain htokens.symm hfirst

end

end Word

-- ---------------------------------------------------------------------------
-- Values
-- ---------------------------------------------------------------------------

section

variable {text : String} {pre ts us : List Token} {w : Word}

/-- No connective takes a word of several tokens as a whole. -/
theorem Word.Reads.not_wordReads (hw : rule.Reads ts w us) (hts : tokenize {} text = .ok (pre ++ ts))
    (hmore : w.more ≠ []) (c : Connective) : ¬ Connective.WordReads ts c us := by
  intro hc
  have hpeek := Reads.not_isIdentifier_peek hw hts hmore
  have hall : w.more ++ us ≠ us := by simpa using hmore
  rw [(reads_rule.mp hw).1, tokens, List.cons_append] at hc
  generalize w.more ++ us = vs at hc hpeek hall
  cases hc with
  | and _ _ => exact hall rfl
  | or _ => exact hall rfl
  | isIn _ => exact hall rfl
  | andNot hfirst hsecond =>
    have hnot := Token.isIdentifier_of_isKeyword hsecond
    exact Bool.false_ne_true ((hpeek (Token.isIdentifier_of_isKeyword hfirst)).symm.trans hnot)

/-- A word of several tokens is a value if its first token spells no connective. -/
theorem Word.Reads.single_iff (hw : rule.Reads ts w us) (hts : tokenize {} text = .ok (pre ++ ts))
    (hmore : w.more ≠ []) :
    (∃ v, FilterValue.rule.Reads ts (.single v) us ∧ v.text = w.text) ↔
      w.first.isAnyOf [.and, .or, .isIn] = false := by
  have hpeek : peek ts = w.first := by rw [(reads_rule.mp hw).1]; rfl
  rw [← Connective.startsWord_eq, ← hpeek]
  constructor
  · rintro ⟨v, hv, _⟩
    cases FilterValue.reads_rule.mp hv with
    | single hv =>
      cases hv with
      | argument hplain _ => exact hplain
      | connective hc => exact absurd hc (Reads.not_wordReads hw hts hmore _)
  · intro hplain
    have hvalue : Value.Reads ts (Value.ofWord w) us := .argument hplain (.word hw)
    exact ⟨_, FilterValue.reads_rule.mpr (.single hvalue), Reads.text_ofWord hw hts hmore⟩

/-- If it does, the connective is read, and the rest of the word is left. -/
theorem Word.Reads.connective_of_isAnyOf (hw : rule.Reads ts w us)
    (hts : tokenize {} text = .ok (pre ++ ts)) (hmore : w.more ≠ [])
    (hfirst : w.first.isAnyOf [.and, .or, .isIn]) :
    ∃ c, FilterValue.rule.Reads ts (.single (.connective c)) (w.more ++ us) := by
  have hspelled : ∃ c, Connective.WordReads (w.first :: (w.more ++ us)) c (w.more ++ us) := by
    have hpeek := Reads.not_isIdentifier_peek hw hts hmore
      (Connective.isIdentifier_of_startsWord (Connective.startsWord_eq _ ▸ hfirst))
    simp only [Token.isAnyOf, List.any_cons, List.any_nil, Bool.or_false, Bool.or_eq_true] at hfirst
    rcases hfirst with hand | hor | hin
    · exact ⟨.and, .and hand (by simp [Token.isKeyword, hpeek])⟩
    · exact ⟨.or, .or hor⟩
    · exact ⟨.isIn, .isIn hin⟩
  rcases hspelled with ⟨c, hc⟩
  rw [(reads_rule.mp hw).1]
  exact ⟨c, FilterValue.reads_rule.mpr (.single (.connective hc))⟩

end

-- ---------------------------------------------------------------------------
-- Keys
-- ---------------------------------------------------------------------------

theorem Keyword.any_isOperator {t : Token} (ht : t.isIdentifier) :
    (ofText? t.text).any isOperator = t.isAnyOf [.and, .or, .not, .isIn] := by
  apply Bool.eq_iff_iff.mpr
  simp only [Option.any_eq_true, Token.isAnyOf, List.any_eq_true]
  constructor
  · rintro ⟨k, hk, hoperator⟩
    have hspells := List.find?_some hk
    refine ⟨k, by cases k <;> simp_all [isOperator], ?_⟩
    simpa [Token.isKeyword, ht, sameLetters_comm] using hspells
  · rintro ⟨k, hk, hspells⟩
    exact ⟨k, ofText?_of_isKeyword hspells, by cases k <;> simp_all [isOperator]⟩

/-- No number spells a keyword. -/
theorem Piece.Fits.ofText?_eq_none {kind : TokenKind} {text : String} {cs after : List Char}
    (h : (token kind text cs).Fits {} after) (hkind : kind = .integer ∨ kind = .float) :
    Keyword.ofText? text = none := by
  have hplain : kind.isPlain := by rcases hkind with rfl | rfl <;> rfl
  rcases h.plain hplain with ⟨rfl, hne, _⟩
  rcases List.exists_cons_of_ne_nil hne with ⟨c, cs, hc⟩
  cases hk : Keyword.ofText? text with
  | none => rfl
  | some k =>
    have hletter := Keyword.isAlpha_of_ofText? hk c (hc ▸ List.mem_cons_self)
    have hread := Lexeme.readNumber?_of_kind h.2 hkind
    rw [hc, List.cons_append, readNumber?_of_isAlpha _ hletter] at hread
    cases hread

/-- A key begins with an identifier or a number that spells no operator. -/
theorem Word.Reads.startsKey_eq {text : String} {pre ts us : List Token} {w : Word}
    (hw : rule.Reads ts w us) (hts : tokenize {} text = .ok (pre ++ ts))
    (hstart : w.first.isIdentifier ∨ w.first.isNumber) :
    Condition.startsKey w.first = !w.first.isAnyOf [.and, .or, .not, .isIn] := by
  rcases hstart with hid | hnumber
  · simp [Condition.startsKey, hid, Keyword.any_isOperator hid]
  · have hkeyword (k : Keyword) : w.first.isKeyword k.spelling = false :=
      Token.isKeyword_of_isNumber _ hnumber
    rw [(reads_rule.mp hw).1, tokens, List.cons_append, tokenize_eq_tokensAt] at hts
    rcases exists_text_of_tokensAt hts (Token.isEnd_of_isNumber hnumber) with
      ⟨_, kind, s, taken, rest, _, ht, hfit, _⟩
    rw [ht] at hnumber hkeyword ⊢
    have hnone := hfit.ofText?_eq_none (by simpa [Token.isNumber] using hnumber)
    simp [Condition.startsKey, hnumber, hnone, Token.isAnyOf, hkeyword]

/-- A colon in front of a word is a relation by itself. -/
theorem Relation.reads_before_word {ts us : List Token} {w : Word} {colon : Token}
    (hcolon : colon.isPunct ':') (hw : Word.rule.Reads ts w us) :
    Relation.Reads (colon :: ts) .equal ts := by
  rcases Word.reads_rule.mp hw with ⟨rfl, hstart, _⟩
  refine .equal hcolon fun c hc => ?_
  have hpunct : w.first.isPunct c = false := by
    apply Word.isPunct_of_canStart hstart <;> rintro rfl <;> simp at hc
  change (w.first.isPunct c && colon.touches w.first) = false
  rw [hpunct, Bool.false_and]

/-- A word of several tokens is a key in front of a colon and another such word, if
    neither of them begins with what spells an operator there. -/
theorem Word.Reads.condition_iff {text : String} {pre ts vs us : List Token} {w w' : Word}
    {colon : Token} (hw : rule.Reads ts w (colon :: vs)) (hts : tokenize {} text = .ok (pre ++ ts))
    (hstart : w.first.isIdentifier ∨ w.first.isNumber) (hcolon : colon.isPunct ':')
    (hw' : rule.Reads vs w' us) (hmore' : w'.more ≠ []) :
    (∃ v, Condition.rule.Reads ts ⟨false, w.text, .equal, .single v⟩ us ∧ v.text = w'.text) ↔
      w.first.isAnyOf [.and, .or, .not, .isIn] = false ∧
        w'.first.isAnyOf [.and, .or, .isIn] = false := by
  have heq := (reads_rule.mp hw).1
  have hpeek : peek ts = w.first := by rw [heq]; rfl
  have hkey := Reads.startsKey_eq hw hts hstart
  have hvs : tokenize {} text = .ok ((pre ++ (w.tokens ++ [colon])) ++ vs) := by
    simpa [heq] using hts
  rw [← Reads.single_iff hw' hvs hmore']
  constructor
  · rintro ⟨v, hread, htext⟩
    generalize hc : (⟨false, w.text, .equal, .single v⟩ : Condition) = c at hread
    cases Condition.reads_rule.mp hread with
    | negative hsign _ =>
      have hnot : w.first.isPunct '!' = false := by
        rcases hstart with hid | hnumber
        · exact Token.isPunct_of_isIdentifier '!' hid
        · exact Token.isPunct_of_isNumber '!' hnumber
      rw [← hpeek, peek_cons, hsign] at hnot
      cases hnot
    | positive hpositive =>
      rcases hpositive with ⟨hstarts, hkeyRead, hrelation, hvalue⟩
      simp only [Condition.mk.injEq, true_and] at hc
      rcases hc with ⟨_, rfl, rfl⟩
      rcases hw.unique hkeyRead with ⟨rfl, rfl⟩
      rw [hpeek, hkey, Bool.not_eq_true'] at hstarts
      cases hrelation with
      | equal _ _ => exact ⟨hstarts, v, FilterValue.reads_rule.mpr hvalue, htext⟩
  · rintro ⟨hfirst, v, hvalue, htext⟩
    have hstarts : Condition.startsKey (peek ts) := by rw [hpeek, hkey, hfirst]; rfl
    have hrelation := Relation.reads_before_word hcolon hw'
    exact ⟨v, Condition.reads_rule.mpr
      (.positive (.mk hstarts hw hrelation (FilterValue.reads_rule.mp hvalue))), htext⟩

-- ---------------------------------------------------------------------------
-- Single values and keys
-- ---------------------------------------------------------------------------

/-- A word of several tokens is a single value, and a key in front of another such word,
    unless its first token spells an operator that is looked for there. Where a value is
    expected that operator is then read in place of the word. -/
theorem glued_words_are_single {text : String} {pre ts us : List Token} {w : Word}
    (hts : tokenize {} text = .ok (pre ++ ts)) (hw : Word.rule.Reads ts w us) (hmore : w.more ≠ []) :
    ((∃ v, FilterValue.rule.Reads ts (.single v) us ∧ v.text = w.text) ↔
      w.first.isAnyOf [.and, .or, .isIn] = false) ∧
    (w.first.isAnyOf [.and, .or, .isIn] →
      ∃ c, FilterValue.rule.Reads ts (.single (.connective c)) (w.more ++ us)) ∧
    ∀ (colon : Token) (vs us' : List Token) (w' : Word), us = colon :: vs → colon.isPunct ':' →
      w.first.isIdentifier ∨ w.first.isNumber → Word.rule.Reads vs w' us' → w'.more ≠ [] →
      ((∃ v, Condition.rule.Reads ts ⟨false, w.text, .equal, .single v⟩ us' ∧ v.text = w'.text) ↔
        w.first.isAnyOf [.and, .or, .not, .isIn] = false ∧
          w'.first.isAnyOf [.and, .or, .isIn] = false) := by
  refine ⟨Word.Reads.single_iff hw hts hmore, Word.Reads.connective_of_isAnyOf hw hts hmore, ?_⟩
  rintro colon vs us' w' rfl hcolon hstart hw' hmore'
  exact Word.Reads.condition_iff hw hts hstart hcolon hw' hmore'

/-- The key `a.b` and the value `c/d`. -/
theorem glued_words_are_single_dotted :
    ∃ ts us w, (tokenize {} "a.b:c/d" = .ok ([] ++ ts) ∧ Word.rule.Reads ts w us ∧ w.more ≠ []) ∧
      (∃ v, FilterValue.rule.Reads ts (.single v) us ∧ v.text = w.text) ∧
      ∃ v us', Condition.rule.Reads ts ⟨false, w.text, .equal, .single v⟩ us' ∧ v.text = "c/d" := by
  let w : Word := ⟨⟨.identifier, "a", ⟨0, 1, 1⟩, 1⟩,
    [⟨.punct, ".", ⟨1, 1, 2⟩, 2⟩, ⟨.identifier, "b", ⟨2, 1, 3⟩, 3⟩]⟩
  let colon : Token := ⟨.punct, ":", ⟨3, 1, 4⟩, 4⟩
  let w' : Word := ⟨⟨.identifier, "c", ⟨4, 1, 5⟩, 5⟩,
    [⟨.punct, "/", ⟨5, 1, 6⟩, 6⟩, ⟨.identifier, "d", ⟨6, 1, 7⟩, 7⟩]⟩
  let us : List Token := [.endAt ⟨7, 1, 8⟩]
  have hts : tokenize {} "a.b:c/d" = .ok ([] ++ (w.tokens ++ colon :: (w'.tokens ++ us))) := by
    apply tokenize_of_cutWithin (n := 20)
    decide +kernel
  have hw : Word.rule.Reads (w.tokens ++ colon :: (w'.tokens ++ us)) w (colon :: (w'.tokens ++ us)) :=
    ⟨by decide, rfl⟩
  have hw' : Word.rule.Reads (w'.tokens ++ us) w' us := ⟨by decide, rfl⟩
  have hmore : w.more ≠ [] := List.cons_ne_nil _ _
  have hmore' : w'.more ≠ [] := List.cons_ne_nil _ _
  rcases glued_words_are_single hts hw hmore with ⟨hvalue, _, hcondition⟩
  rcases (hcondition colon _ us w' rfl rfl (.inl rfl) hw' hmore').mpr ⟨by decide, by decide⟩ with
    ⟨v, hread, hv⟩
  exact ⟨_, _, w, ⟨hts, hw, hmore⟩, hvalue.mpr (by decide), v, us, hread, hv⟩

/-- The word `in.us` is no value, since `in` is read in its place, and no key. -/
theorem glued_word_is_no_value :
    ∃ ts us w, (tokenize {} "in.us:a/b" = .ok ([] ++ ts) ∧ Word.rule.Reads ts w us ∧
        w.more ≠ [] ∧ w.text = "in.us") ∧
      (¬ ∃ v, FilterValue.rule.Reads ts (.single v) us ∧ v.text = w.text) ∧
      ¬ ∃ c us', Condition.rule.Reads ts c us' := by
  let w : Word := ⟨⟨.identifier, "in", ⟨0, 1, 1⟩, 2⟩,
    [⟨.punct, ".", ⟨2, 1, 3⟩, 3⟩, ⟨.identifier, "us", ⟨3, 1, 4⟩, 5⟩]⟩
  let us : List Token := [⟨.punct, ":", ⟨5, 1, 6⟩, 6⟩, ⟨.identifier, "a", ⟨6, 1, 7⟩, 7⟩,
    ⟨.punct, "/", ⟨7, 1, 8⟩, 8⟩, ⟨.identifier, "b", ⟨8, 1, 9⟩, 9⟩, .endAt ⟨9, 1, 10⟩]
  have hts : tokenize {} "in.us:a/b" = .ok ([] ++ (w.tokens ++ us)) := by
    apply tokenize_of_cutWithin (n := 20)
    decide +kernel
  have hw : Word.rule.Reads (w.tokens ++ us) w us := ⟨by decide, rfl⟩
  have hin : FilterValue.rule.Reads (w.tokens ++ us) (.single (.connective .isIn)) (w.more ++ us) :=
    FilterValue.reads_rule.mpr (.single (.connective (.isIn (by decide))))
  refine ⟨_, us, w, ⟨hts, hw, List.cons_ne_nil _ _, by decide⟩, ?_, ?_⟩
  · rintro ⟨v, hv, _⟩
    have hlength := congrArg List.length (hv.unique hin).2
    cases hlength
  · rintro ⟨c, us', hread⟩
    cases Condition.reads_rule.mp hread with
    | negative hsign _ => exact absurd hsign (by decide)
    | positive hpositive =>
      rcases hpositive with ⟨hstarts, _⟩
      exact absurd hstarts (by decide)

end MetricLang
