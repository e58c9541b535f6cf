-- SUMMARY: The word for comments right behind a token: when it begins a name, and when a comment.
import MetricLang.Proofs.Compute
import MetricLang.Proofs.Tiling

/-!
# The word for comments inside names

A comment begins wherever the lexer looks for its next token and finds the word for
comments with a blank, or nothing, behind it. It does not matter what stands in front of
the word. Right behind a token, as in the middle of a name that the lexer cuts in
pieces, the word is therefore read as part of the name if more of a line follows it
directly, and is skipped with the rest of its line otherwise.
-/

namespace MetricLang

-- ---------------------------------------------------------------------------
-- The stream behind a token
-- ---------------------------------------------------------------------------

theorem eq_nil_of_byteCount_eq {cs xs : List Char} (h : byteCount cs = byteCount (cs ++ xs)) :
    xs = [] := by
  by_contra hne
  have := byteCount_pos hne
  rw [byteCount_append] at h
  omega

/-- The bytes in front of it tell a place in a text. -/
theorem eq_of_byteCount_eq {cs cs' ds ds' : List Char} (happend : cs ++ ds = cs' ++ ds')
    (hcount : byteCount cs = byteCount cs') : cs = cs' ∧ ds = ds' := by
  rcases List.append_eq_append_iff.mp happend with ⟨xs, rfl, rfl⟩ | ⟨xs, rfl, rfl⟩
  · simp [eq_nil_of_byteCount_eq hcount]
  · simp [eq_nil_of_byteCount_eq hcount.symm]

namespace TokenStream

variable {config : LexerConfig} {before cs : List Char} {ts us : List Token} {t u : Token}

/-- Behind its first token a stream goes on with the text that follows the token. -/
theorem exists_drain_of_cons (h : (drain ⟨config, cs, placeAfter before⟩).tokens = t :: ts) :
    ∃ taken rest, cs = taken ++ rest ∧ t.stop = byteCount (before ++ taken) ∧
      ts = (drain ⟨config, rest, placeAfter (before ++ taken)⟩).tokens := by
  rcases next_tiles config before cs with ⟨gap, left, rfl, _, hnext⟩
  rw [drain_eq] at h
  cases hstep : next ⟨config, gap ++ left, placeAfter before⟩ with
  | finished last => simp [hstep] at h
  | failed e last => simp [hstep] at h
  | token _ more =>
    rw [hstep] at h hnext
    rcases hnext with ⟨taken, rfl, hwritten, hmore⟩
    rcases List.cons.inj h with ⟨rfl, rfl⟩
    refine ⟨gap ++ taken, more.rest, (List.append_assoc ..).symm, ?_, ?_⟩
    · rw [hwritten.stop, List.append_assoc]
    · rw [← List.append_assoc, ← hmore]

/-- So it does behind any of its tokens. -/
theorem exists_drain_behind (h : (drain ⟨config, cs, placeAfter before⟩).tokens = ts ++ u :: us) :
    ∃ taken rest, cs = taken ++ rest ∧ u.stop = byteCount (before ++ taken) ∧
      us = (drain ⟨config, rest, placeAfter (before ++ taken)⟩).tokens := by
  induction ts generalizing before cs with
  | nil => exact exists_drain_of_cons h
  | cons t ts ih =>
    rcases exists_drain_of_cons h with ⟨taken, rest, rfl, _, hmore⟩
    rcases ih hmore.symm with ⟨taken', rest', rfl, hstop, hus⟩
    rw [List.append_assoc] at hstop hus
    exact ⟨taken ++ taken', rest', (List.append_assoc ..).symm, hstop, hus⟩

/-- The stream of a text has the tokens that the text is cut into. -/
theorem tokens_of_tokenize {text : String} {row : List Token} {p : Position}
    (h : tokenize config text = .ok (row ++ [.endAt p])) :
    (ofText config text).drain.tokens = row := by
  simp only [tokenize] at h
  generalize (ofText config text).drain = d at h ⊢
  cases d with
  | mk ts failure last =>
    cases failure with
    | none => exact List.append_inj_left' (Except.ok.inj h) rfl
    | some e => cases h

/-- The tokens behind a place are those of the text there. -/
theorem tokens_behind {text : String} {rest : List Char}
    (htokens : (ofText config text).drain.tokens = ts ++ u :: us)
    (htext : text.toList = before ++ rest) (hbehind : u.stop = byteCount before) :
    us = (drain ⟨config, rest, placeAfter before⟩).tokens := by
  have hstream : ofText config text = ⟨config, text.toList, placeAfter []⟩ := rfl
  rw [hstream] at htokens
  rcases exists_drain_behind htokens with ⟨taken, rest', hsplit, hstop, hus⟩
  have hcount : byteCount before = byteCount taken := hbehind.symm.trans hstop
  rcases eq_of_byteCount_eq (htext.symm.trans hsplit) hcount with ⟨rfl, rfl⟩
  exact hus

end TokenStream

-- ---------------------------------------------------------------------------
-- The word for comments
-- ---------------------------------------------------------------------------

section

variable {r e m : Char} {rest : List Char}

theorem readBlanks?_of_spellsComment (hword : spellsComment [r, e, m]) :
    readBlanks? (r :: e :: m :: rest) = none := by
  have hletter := isAlpha_of_spellsComment hword r List.mem_cons_self
  have hblank : isBlank r = false := by
    apply not_isBlank_of_isPlainChar
    exact isPlainChar_of_isIdentifierPart
      (isIdentifierPart_of_start (isIdentifierStart_of_isAlpha hletter))
  exact readBlanks?_eq_none_iff.mpr (by simp [hblank])

theorem readComment?_of_spellsComment (hword : spellsComment [r, e, m]) :
    readComment? (r :: e :: m :: rest) = if rest.head?.all isBlank then
      some (r :: e :: m :: rest.takeWhile (!isLineEnd ·), rest.dropWhile (!isLineEnd ·))
      else none := by
  have hword : [r, e, m].map Char.toLower = ['r', 'e', 'm'] := of_decide_eq_true hword
  simp only [readComment?, hword, true_and]

/-- The word begins an identifier, if it is no comment. -/
theorem Lexeme.read?_of_spellsComment (config : LexerConfig) (hword : spellsComment [r, e, m]) :
    Lexeme.read? config (r :: e :: m :: rest) = some
      ⟨.identifier, r :: e :: m :: rest.takeWhile isIdentifierPart, rest.dropWhile isIdentifierPart⟩ := by
  have hletters := isAlpha_of_spellsComment hword
  have hpart : ∀ c ∈ [r, e, m], isIdentifierPart c := fun c hc =>
    isIdentifierPart_of_start (isIdentifierStart_of_isAlpha (hletters c hc))
  have hr := hletters r List.mem_cons_self
  simp only [List.forall_mem_cons] at hpart
  have hstring : Lexeme.string? (r :: e :: m :: rest) = none :=
    Lexeme.string?_of_isPlainChar _ (isPlainChar_of_isIdentifierPart hpart.1)
  have hnumber : Lexeme.number? (r :: e :: m :: rest) = none := by
    simp only [Lexeme.number?, readNumber?_of_isAlpha _ hr, Option.map_none]
  apply Lexeme.read?_eq_some_iff.mpr
  refine .inr ⟨hstring, .inr ⟨hnumber, .inl ?_⟩⟩
  simp [Lexeme.identifier?, readIdentifier?, isIdentifierStart_of_isAlpha hr, hpart]

end

namespace TokenStream

variable {config : LexerConfig} {p : Position} {r e m : Char} {rest : List Char}

/-- With a blank or nothing behind it the word begins a comment. -/
theorem drain_comment (hon : config.comments = true) (hword : spellsComment [r, e, m])
    (halone : rest.head?.all isBlank) :
    drain ⟨config, r :: e :: m :: rest, p⟩ = drain ⟨config, rest.dropWhile (!isLineEnd ·),
      p.after (r :: e :: m :: rest.takeWhile (!isLineEnd ·))⟩ := by
  have htrivia : readTrivia? config.comments (r :: e :: m :: rest) = some
      (r :: e :: m :: rest.takeWhile (!isLineEnd ·), rest.dropWhile (!isLineEnd ·)) := by
    simp [readTrivia?, hon, readBlanks?_of_spellsComment hword,
      readComment?_of_spellsComment hword, halone]
  have happend := (append_of_readTrivia? htrivia).1
  have hskip := skipTrivia_of_some htrivia
  rw [← happend] at hskip ⊢
  exact drain_congr (next_gap hskip)

/-- With anything else behind it the word begins an identifier. -/
theorem drain_word (hword : spellsComment [r, e, m]) (hgoes : rest.head?.all isBlank = false) :
    ∃ v vs, (drain ⟨config, r :: e :: m :: rest, p⟩).tokens = v :: vs ∧ v.isIdentifier ∧
      v.start = p ∧ [r, e, m] <+: v.text.toList := by
  let taken := r :: e :: m :: rest.takeWhile isIdentifierPart
  let after := rest.dropWhile isIdentifierPart
  have htext : r :: e :: m :: rest = taken ++ after := by
    simp only [taken, after, List.cons_append, List.takeWhile_append_dropWhile]
  have htrivia : readTrivia? config.comments (taken ++ after) = none := by
    rw [← htext]
    simp [readTrivia?, readBlanks?_of_spellsComment hword, readComment?_of_spellsComment hword, hgoes]
  have hread : Lexeme.read? config (taken ++ after)
      = some ⟨.identifier, (String.ofList taken).toList, after⟩ := by
    rw [← htext, String.toList_ofList]
    exact Lexeme.read?_of_spellsComment config hword
  have hnext := next_token (p := p) (List.cons_ne_nil _ _) htrivia hread
  rw [htext, drain_eq, hnext]
  refine ⟨_, _, rfl, rfl, rfl, ?_⟩
  rw [String.toList_ofList]
  exact List.prefix_append [r, e, m] _

end TokenStream

/-- Right behind a token, the word for comments is read as part of an identifier that touches
    the token if and only if neither a blank nor the end of the text is behind it. Otherwise
    it is skipped with the rest of its line. -/
theorem word_behind_token_iff {config : LexerConfig} {text : String} {ts us : List Token} {u : Token}
    {before rest : List Char} {r e m : Char} (hon : config.comments = true)
    (htokens : (TokenStream.ofText config text).drain.tokens = ts ++ u :: us)
    (htext : text.toList = before ++ r :: e :: m :: rest) (hbehind : u.stop = byteCount before)
    (hword : spellsComment [r, e, m]) :
    ((∃ v vs, us = v :: vs ∧ v.isIdentifier ∧ u.touches v ∧ [r, e, m] <+: v.text.toList) ↔
      rest.head?.all isBlank = false) ∧
    (rest.head?.all isBlank → us = (TokenStream.mk config (rest.dropWhile (!isLineEnd ·))
      (placeAfter (before ++ r :: e :: m :: rest.takeWhile (!isLineEnd ·)))).drain.tokens) := by
  have hus := TokenStream.tokens_behind htokens htext hbehind
  have hskipped (halone : rest.head?.all isBlank) :
      us = (TokenStream.mk config (rest.dropWhile (!isLineEnd ·))
        (placeAfter (before ++ r :: e :: m :: rest.takeWhile (!isLineEnd ·)))).drain.tokens := by
    rw [hus, TokenStream.drain_comment hon hword halone, ← Position.start_after,
      ← Position.start_after, Position.after_append]
  refine ⟨⟨?_, ?_⟩, hskipped⟩
  · rintro ⟨v, vs, rfl, _, htouches, _⟩
    refine Bool.eq_false_iff.mpr fun halone => ?_
    -- the comment lies between the two tokens
    rcases TokenStream.drain_tiles config _ (rest.dropWhile (!isLineEnd ·)) with
      ⟨_, _, _, htiles, _⟩
    rw [← hskipped halone] at htiles
    have hstart := (htiles.start_lt_stop v List.mem_cons_self).1
    have hcomment := byteCount_pos (List.cons_ne_nil r (e :: m :: rest.takeWhile (!isLineEnd ·)))
    simp only [Token.touches, Bool.and_eq_true, decide_eq_true_eq] at htouches
    rw [byteCount_append] at hstart
    omega
  · intro hgoes
    rcases TokenStream.drain_word hword hgoes with ⟨v, vs, hdrain, hid, hstart, hprefix⟩
    refine ⟨v, vs, hus.trans hdrain, hid, ?_, hprefix⟩
    rw [Token.touches, Token.isEnd_of_isIdentifier hid, hstart, hbehind]
    simp [placeAfter]

/-- In `a.rem:1` the word is a name behind a point. -/
theorem word_behind_token_iff_colon : let u : Token := ⟨.punct, ".", ⟨1, 1, 2⟩, 2⟩
    ∃ ts us, ((TokenStream.ofText {} "a.rem:1").drain.tokens = ts ++ u :: us ∧
        "a.rem:1".toList = ['a', '.'] ++ 'r' :: 'e' :: 'm' :: [':', '1'] ∧
        u.stop = byteCount ['a', '.'] ∧ spellsComment ['r', 'e', 'm']) ∧
      ∃ v vs, us = v :: vs ∧ v.isIdentifier ∧ u.touches v := by
  intro u
  have hts : tokenize {} "a.rem:1" = .ok (([⟨.identifier, "a", ⟨0, 1, 1⟩, 1⟩] ++ u ::
      [⟨.identifier, "rem", ⟨2, 1, 3⟩, 5⟩, ⟨.punct, ":", ⟨5, 1, 6⟩, 6⟩,
        ⟨.integer, "1", ⟨6, 1, 7⟩, 7⟩]) ++ [.endAt ⟨7, 1, 8⟩]) := by
    apply tokenize_of_cutWithin (n := 20)
    decide +kernel
  have htokens := TokenStream.tokens_of_tokenize hts
  have htext : "a.rem:1".toList = ['a', '.'] ++ 'r' :: 'e' :: 'm' :: [':', '1'] := by decide
  have hword : spellsComment ['r', 'e', 'm'] := by decide
  rcases (word_behind_token_iff rfl htokens htext rfl hword).1.mpr rfl with ⟨v, vs, hus, hid, htouches, _⟩
  exact ⟨_, _, ⟨htokens, htext, rfl, hword⟩, v, vs, hus, hid, htouches⟩

/-- In `sum:a.rem {*}` the word is a comment, though it is right behind the point of a name:
    the point is the last token. -/
theorem comment_inside_name :
    let text := "sum:a.rem \x7b*\x7d"
    let a : Token := ⟨.identifier, "a", ⟨4, 1, 5⟩, 5⟩
    let point : Token := ⟨.punct, ".", ⟨5, 1, 6⟩, 6⟩
    text.toList = "sum:a.".toList ++ 'r' :: 'e' :: 'm' :: " \x7b*\x7d".toList ∧
      a.touches point ∧ point.stop = byteCount "sum:a.".toList ∧
      (TokenStream.ofText {} text).drain.tokens =
        [⟨.identifier, "sum", ⟨0, 1, 1⟩, 3⟩, ⟨.punct, ":", ⟨3, 1, 4⟩, 4⟩, a, point] := by
  intro text a point
  refine ⟨by decide, rfl, by decide, ?_⟩
  apply TokenStream.tokens_of_tokenize (p := ⟨13, 1, 14⟩)
  apply tokenize_of_cutWithin (n := 20)
  decide +kernel

end MetricLang
