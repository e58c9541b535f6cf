-- SUMMARY: Words as they are written: what a text spells alone, it spells in front of other text.
import Mathlib.Algebra.Ring.Nat
import Mathlib.Data.List.Forall2
import MetricLang.Proofs.Plain
import MetricLang.Proofs.ValueReads

/-!
# Written words

`Word.Spells w s` says that the text `s`, taken alone and without comments, is the
word `w` and nothing else. The same text in front of a text that stops words is
read as a word of the same tokens (`Word.Spells.reads`).
-/

namespace MetricLang

-- ---------------------------------------------------------------------------
-- Places
-- ---------------------------------------------------------------------------

/-- How many bytes the characters take. -/
def byteCount (cs : List Char) : Nat := (cs.map Char.utf8Size).sum

theorem Position.offset_after (p : Position) (cs : List Char) :
    (p.after cs).offset = p.offset + byteCount cs := by
  induction cs generalizing p with
  | nil => rfl
  | cons c cs ih =>
    have hnext : (p.next c).offset = p.offset + c.utf8Size := by
      unfold Position.next
      split <;> rfl
    simp [ih, hnext, byteCount, Nat.add_assoc]

theorem byteCount_pos {cs : List Char} (h : cs ≠ []) : 0 < byteCount cs := by
  cases cs with
  | nil => exact absurd rfl h
  | cons c cs =>
    have := c.utf8Size_pos
    simp only [byteCount, List.map_cons, List.sum_cons]
    omega

-- ---------------------------------------------------------------------------
-- Tokens up to their places
-- ---------------------------------------------------------------------------

namespace Token

/-- Do two tokens differ in their places at most? -/
def Like (t u : Token) : Prop := t.kind = u.kind ∧ t.text = u.text

theorem Like.refl (t : Token) : Like t t := ⟨rfl, rfl⟩

theorem Like.symm {t u : Token} (h : Like t u) : Like u t := ⟨h.1.symm, h.2.symm⟩

variable {t u : Token}

theorem Like.isEnd (h : Like t u) : t.isEnd = u.isEnd := by simp [Token.isEnd, h.1]

theorem Like.isIdentifier (h : Like t u) : t.isIdentifier = u.isIdentifier := by
  simp [Token.isIdentifier, h.1]

theorem Like.isNumber (h : Like t u) : t.isNumber = u.isNumber := by simp [Token.isNumber, h.1]

theorem Like.isPunct (h : Like t u) (c : Char) : t.isPunct c = u.isPunct c := by
  simp [Token.isPunct, h.1, h.2]

theorem Like.isKeyword (h : Like t u) (word : String) : t.isKeyword word = u.isKeyword word := by
  simp [Token.isKeyword, h.isIdentifier, h.2]

theorem Like.canStart (h : Like t u) : Word.canStart t = Word.canStart u := by
  simp [Word.canStart, h.isIdentifier, h.isNumber, h.isPunct]

theorem Like.canContinue (h : Like t u) : Word.canContinue t = Word.canContinue u := by
  simp [Word.canContinue, h.isIdentifier, h.isNumber, h.isPunct]

end Token

theorem Piece.place_like (ps : List Piece) (p q : Position) :
    List.Forall₂ Token.Like (place p ps) (place q ps) := by
  induction ps generalizing p q with
  | nil => exact .nil
  | cons piece ps ih =>
    cases piece with
    | gap cs => exact ih _ _
    | token kind text cs => exact .cons ⟨rfl, rfl⟩ (ih _ _)

namespace Word

/-- Do two words differ in their places at most? -/
def Like (w v : Word) : Prop := List.Forall₂ Token.Like w.tokens v.tokens

variable {w v : Word}

theorem Like.first (h : Like w v) : Token.Like w.first v.first := (List.forall₂_cons.mp h).1

theorem Like.texts (h : Like w v) : w.tokens.map (·.text) = v.tokens.map (·.text) := by
  have : ∀ {ts us : List Token}, List.Forall₂ Token.Like ts us →
      ts.map (·.text) = us.map (·.text) := by
    intro ts us h
    induction h with
    | nil => rfl
    | cons hfirst _ ih => simp [hfirst.2, ih]
  exact this h

theorem Like.text (h : Like w v) : w.text = v.text := by
  simp [Word.text, h.texts]

theorem Like.isNumber (h : Like w v) : w.isNumber = v.isNumber := by
  obtain ⟨hfirst, hmore⟩ := List.forall₂_cons.mp h
  simp only [Word.isNumber, hfirst.isNumber]
  cases hw : w.more <;> cases hv : v.more <;> simp_all

theorem Like.startsWithIdentifier (h : Like w v) :
    w.startsWithIdentifier = v.startsWithIdentifier := h.first.isIdentifier

/-- Can the tokens be a word, if they touch? -/
structure Formed (w : Word) : Prop where
  start : canStart w.first
  goesOn : ∀ t ∈ w.more, canContinue t
  notLone : ¬ (w.first.isPunct '!' ∧ w.more = [])

theorem Formed.of_like (h : v.Formed) (hlike : Like w v) : w.Formed := by
  obtain ⟨hfirst, hmore⟩ := List.forall₂_cons.mp hlike
  refine ⟨hfirst.canStart ▸ h.start, ?_, ?_⟩
  · have hgo := h.goesOn
    clear h hlike hfirst
    generalize w.more = ts, v.more = us at hmore hgo
    induction hmore with
    | nil => simp
    | cons hfirst _ ih =>
      obtain ⟨hgo, hmore⟩ := List.forall_mem_cons.mp hgo
      exact List.forall_mem_cons.mpr ⟨hfirst.canContinue ▸ hgo, ih hmore⟩
  · rintro ⟨hnot, hnil⟩
    rw [hnil, List.forall₂_nil_left_iff] at hmore
    exact h.notLone ⟨hfirst.isPunct '!' ▸ hnot, hmore⟩

theorem Like.ofWord (h : Like w v) : Value.ofWord w = Value.ofWord v := by
  simp [Value.ofWord, h.text, h.isNumber]

-- ---------------------------------------------------------------------------
-- What a text spells alone
-- ---------------------------------------------------------------------------

/-- Is the text, alone and without comments, the word and nothing else? -/
def Spells (w : Word) (s : String) : Prop :=
  ∃ ts, tokenize ({} : LexerConfig).withoutComments s = .ok ts ∧
    Rule.complete rule ts = .ok w ∧ w.text = s

/-- Is the last token of the word written like the word that begins comments? -/
def endsInComment (w : Word) : Bool :=
  sameLetters (w.tokens.getLast (List.cons_ne_nil _ _)).text "rem"

theorem isPlain_of_canContinue {t : Token} (h : canContinue t) : t.kind.isPlain := by
  simp only [canContinue, Bool.or_eq_true, List.any_eq_true] at h
  obtain (h | h) | ⟨c, _, h⟩ := h
  · simp_all [Token.isIdentifier, TokenKind.isPlain]
  · simp only [Token.isNumber, decide_eq_true_eq] at h
    obtain h | h := h <;> simp [h, TokenKind.isPlain]
  · simp_all [Token.isPunct, TokenKind.isPlain]

theorem isPlain_of_canStart {t : Token} (h : canStart t) : t.kind.isPlain := by
  simp only [canStart, Bool.or_eq_true] at h
  obtain ((h | h) | h) | h := h
  · simp_all [Token.isIdentifier, TokenKind.isPlain]
  · simp only [Token.isNumber, decide_eq_true_eq] at h
    obtain h | h := h <;> simp [h, TokenKind.isPlain]
  · simp_all [Token.isPunct, TokenKind.isPlain]
  · simp_all [Token.isPunct, TokenKind.isPlain]

theorem canContinue_of_runs {prev : Token} {more us : List Token} (h : Runs prev more us) :
    ∀ t ∈ more, canContinue t := by
  induction more generalizing prev with
  | nil => simp
  | cons t more ih =>
    obtain ⟨hjoins, hmore⟩ := h
    simp only [joins, Bool.and_eq_true] at hjoins
    exact List.forall_mem_cons.mpr ⟨hjoins.2, ih hmore⟩

end Word

theorem Lexeme.kind_ne_endOfInput {config : LexerConfig} {cs : List Char} {l : Lexeme}
    (h : Lexeme.read? config cs = some l) : l.kind ≠ .endOfInput := by
  obtain h | ⟨_, h | ⟨_, h | ⟨_, h⟩⟩⟩ := Lexeme.read?_eq_some_iff.mp h
  · obtain ⟨q, hq, _⟩ := Lexeme.string?_eq_some h
    simp [hq]
  · rw [(Lexeme.number?_eq_some h).2]
    split <;> simp
  · simp [(Lexeme.identifier?_eq_some h).2]
  · obtain ⟨_, _, _, hk, _⟩ := Lexeme.punct?_eq_some h
    simp [hk]

-- ---------------------------------------------------------------------------
-- Rows of pieces that are a word
-- ---------------------------------------------------------------------------

/-- Only what follows the last token of a row can hold its end. -/
theorem exists_append_of_isEnd {ts pre us : List Token} {e : Token} (h : ts ++ [e] = pre ++ us)
    (hpre : ∀ t ∈ pre, t.isEnd = false) (he : e.isEnd) : ∃ vs, us = vs ++ [e] ∧ ts = pre ++ vs := by
  obtain ⟨vs, rfl, hvs⟩ | ⟨vs, rfl, rfl⟩ := List.append_eq_append_iff.mp h
  · cases vs with
    | nil => exact ⟨[], by simpa using hvs.symm, by simp⟩
    | cons v vs =>
      obtain ⟨rfl, _⟩ := List.cons.inj hvs
      simp [hpre e (by simp)] at he
  · exact ⟨vs, rfl, rfl⟩

/-- Tokens up to the end of the input are all tokens there are. -/
theorem eq_of_append_end {ts us vs : List Token} {e : Token} (h : ts ++ [e] = us ++ vs)
    (hts : ∀ t ∈ ts, t.isEnd = false) (hus : ∀ t ∈ us, t.isEnd = false) (he : e.isEnd)
    (hvs : (peek vs).isEnd) : us = ts ∧ vs = [e] := by
  obtain ⟨ws, rfl, rfl⟩ := exists_append_of_isEnd h hus he
  cases ws with
  | nil => simp
  | cons w ws =>
    have hw : w.isEnd = false := hts w (by simp)
    simp [hw] at hvs

namespace Piece

/-- Plain tokens do not have more characters than the pieces they are in. -/
theorem length_text_place_le {comments : Bool} {ps : List Piece} {rest : List Char}
    (h : Cut { comments } ps rest) (p : Position) (hp : ∀ t ∈ place p ps, t.kind.isPlain) :
    ((place p ps).map (·.text.toList)).flatten.length ≤ (charsOf ps).length := by
  induction ps generalizing p with
  | nil => simp
  | cons q ps ih =>
    obtain ⟨hfit, hcut⟩ := h
    cases q with
    | gap cs =>
      have hle := ih hcut _ hp
      simp only [place_gap, charsOf_cons, chars, List.length_append]
      omega
    | token kind text cs =>
      obtain ⟨hkind, hp⟩ := List.forall_mem_cons.mp hp
      obtain ⟨rfl, _⟩ := hfit.plain hkind
      have hle := ih hcut _ hp
      simp only [place_token, List.map_cons, List.flatten_cons, charsOf_cons, chars,
        List.length_append]
      omega

/-- Where plain tokens have all of the characters, there are no gaps. -/
theorem isPlain_of_length_text_place {comments : Bool} {ps : List Piece} {rest : List Char}
    (h : Cut { comments } ps rest) (p : Position) (hp : ∀ t ∈ place p ps, t.kind.isPlain)
    (hlength : ((place p ps).map (·.text.toList)).flatten.length = (charsOf ps).length) :
    ∀ q ∈ ps, q.isPlain := by
  induction ps generalizing p with
  | nil => simp
  | cons q ps ih =>
    obtain ⟨hfit, hcut⟩ := h
    cases q with
    | gap cs =>
      have hne := List.length_pos_iff.mpr hfit.1
      have hle := length_text_place_le hcut _ hp
      simp only [place_gap, charsOf_cons, chars, List.length_append] at hlength
      omega
    | token kind text cs =>
      obtain ⟨hkind, hp⟩ := List.forall_mem_cons.mp hp
      obtain ⟨rfl, _⟩ := hfit.plain hkind
      simp only [place_token, List.map_cons, List.flatten_cons, charsOf_cons, chars,
        List.length_append] at hlength
      exact List.forall_mem_cons.mpr ⟨hkind, ih hcut _ hp (by omega)⟩

theorem isEnd_of_mem_place {config : LexerConfig} {ps : List Piece} {rest : List Char}
    (h : Cut config ps rest) {p : Position} : ∀ t ∈ place p ps, t.isEnd = false := by
  induction ps generalizing p with
  | nil => simp
  | cons q ps ih =>
    obtain ⟨hfit, hcut⟩ := h
    cases q with
    | gap cs => exact ih hcut
    | token kind text cs =>
      refine List.forall_mem_cons.mpr ⟨?_, ih hcut⟩
      have hkind : kind ≠ .endOfInput := Lexeme.kind_ne_endOfInput hfit.2
      simp [Token.isEnd, hkind]

end Piece

/-- A word that a text spells is a row of plain tokens without gaps. -/
theorem Word.Spells.exists_row {w : Word} {s : String} (h : w.Spells s) :
    ∃ ps, Piece.charsOf ps = s.toList ∧ Piece.Cut { comments := false } ps [] ∧
      (∀ p ∈ ps, p.isPlain) ∧ w.tokens = Piece.place .start ps ∧ w.Formed := by
  obtain ⟨ts, htokens, hcomplete, htext⟩ := h
  rw [tokenize_eq_tokensAt] at htokens
  obtain ⟨ps, hchars, hcut, rfl⟩ := exists_cut_of_tokensAt htokens
  obtain ⟨us, hread, hend⟩ := Rule.complete_eq_ok.mp hcomplete
  obtain ⟨hts, hstart, hrun, hlone⟩ := Word.reads_rule.mp hread
  have hplain : ∀ t ∈ w.tokens, t.kind.isPlain :=
    List.forall_mem_cons.mpr ⟨Word.isPlain_of_canStart hstart,
      fun t ht => Word.isPlain_of_canContinue (Word.canContinue_of_runs hrun t ht)⟩
  have hnotEnd : ∀ t ∈ w.tokens, t.isEnd = false := by
    intro t ht
    have := hplain t ht
    cases hk : t.kind <;> simp_all [Token.isEnd, TokenKind.isPlain]
  have htokens := (eq_of_append_end hts (Piece.isEnd_of_mem_place hcut) hnotEnd rfl hend).1
  have hflat : s.toList = (w.tokens.map (·.text.toList)).flatten := by
    simp [← htext, Word.text, String.toList_join, List.flatMap, Function.comp_def]
  refine ⟨ps, hchars, hcut, ?_, htokens, hstart, Word.canContinue_of_runs hrun, hlone⟩
  refine Piece.isPlain_of_length_text_place hcut .start (htokens ▸ hplain) ?_
  rw [hchars, hflat, ← htokens]

-- ---------------------------------------------------------------------------
-- What stops a word
-- ---------------------------------------------------------------------------

/-- Does the text, or its end, stop every word before it? -/
def Stops (rest : List Char) : Bool :=
  rest.head?.all fun c => endsToken c && c != '/' && c != '+'

theorem bounded_of_stops {rest : List Char} (h : Stops rest) : Bounded rest := by
  cases rest <;> simp_all [Stops]

theorem Piece.offset_le_peek (q : Position) (ps : List Piece) :
    q.offset ≤ (peek (place q ps ++ [.endAt (q.after (charsOf ps))])).start.offset := by
  induction ps generalizing q with
  | nil => exact Nat.le_refl _
  | cons piece ps ih =>
    cases piece with
    | gap cs =>
      have := ih (q.after cs)
      simp only [place_gap, charsOf_cons, chars, Position.after_append]
      rw [Position.offset_after] at this
      omega
    | token kind text cs => exact Nat.le_refl _

/-- A text that stops words does not begin with a token that goes on with one. -/
theorem Lexeme.canContinue_of_stops {rest after : List Char} {kind : TokenKind} {text : String}
    (hstops : Stops rest) (h : Lexeme.read? {} rest = some ⟨kind, text.toList, after⟩)
    (start : Position) (stop : Nat) : Word.canContinue ⟨kind, text, start, stop⟩ = false := by
  cases rest with
  | nil =>
    have := Lexeme.length_of_read? h
    simp at this
  | cons c cs =>
    simp only [Stops, List.head?_cons, Option.all_some, endsToken, Bool.and_eq_true,
      Bool.not_eq_true', bne_iff_ne] at hstops
    obtain ⟨⟨⟨hpart, hpoint⟩, hslash⟩, hplus⟩ := hstops
    have hstart : isIdentifierStart c = false := by
      simpa using mt isIdentifierPart_of_start (by simp [hpart])
    have hdigit : c.isDigit = false := by
      simpa using mt isIdentifierStart_of_isDigit (by simp [hstart])
    have hminus : c ≠ '-' := by rintro rfl; simp [isIdentifierPart] at hpart
    have hstar : c ≠ '*' := by rintro rfl; simp [isIdentifierPart] at hpart
    obtain h | ⟨_, h | ⟨_, h | ⟨_, h⟩⟩⟩ := Lexeme.read?_eq_some_iff.mp h
    · obtain ⟨q, rfl, _⟩ := Lexeme.string?_eq_some h
      simp [Word.canContinue, Token.isIdentifier, Token.isNumber, Token.isPunct]
    · simp [Lexeme.number?, readNumber?, splitSign, splitDigits, hplus, hminus, hpoint, hdigit] at h
    · simp [Lexeme.identifier?, readIdentifier?, hstart] at h
    · obtain ⟨d, _, hd, rfl, htext⟩ := Lexeme.punct?_eq_some h
      obtain rfl := (List.cons.inj hd).1
      have htext : text = String.singleton c := by
        rw [← String.toList_inj, String.toList_singleton]
        exact htext
      simp [Word.canContinue, Token.isIdentifier, Token.isNumber, Token.isPunct, htext, hpoint,
        hslash, hminus, hstar]

/-- No word goes on into a text that stops words. -/
theorem Word.joins_of_stops {rest : List Char} {q : Position} {us : List Token} {t : Token}
    (hstops : Stops rest) (h : tokensAt {} q rest = .ok us) (ht : t.stop = q.offset) :
    joins t (peek us) = false := by
  obtain ⟨ps, rfl, hcut, rfl⟩ := exists_cut_of_tokensAt h
  cases ps with
  | nil => simp [joins, Token.touches, Token.isEnd, Token.endAt]
  | cons piece ps =>
    obtain ⟨hfit, _⟩ := hcut
    cases piece with
    | gap cs =>
      have hpos := byteCount_pos hfit.1
      have hle := Piece.offset_le_peek (q.after cs) ps
      rw [Position.offset_after] at hle
      have hne : t.stop ≠ (peek (Piece.place q (.gap cs :: ps) ++
          [.endAt (q.after (Piece.charsOf (.gap cs :: ps)))])).start.offset := by
        simp only [Piece.place_gap, Piece.charsOf_cons, Piece.chars, Position.after_append]
        omega
      simp only [joins, Token.touches, hne, decide_false, Bool.and_false, Bool.false_and]
    | token kind text cs =>
      have := Lexeme.canContinue_of_stops hstops
        (by simpa [Piece.chars] using hfit.2) q (q.after cs).offset
      simp [joins, this]

/-- The tokens of a row without gaps are read as the rest of a word. -/
theorem Word.runs_place {ps : List Piece} {p : Position} {prev : Token} {us : List Token}
    (hps : ∀ q ∈ ps, q.isPlain) (hgo : ∀ t ∈ Piece.place p ps, canContinue t)
    (hprev : prev.stop = p.offset)
    (hstop : ∀ t : Token, t.stop = (p.after (Piece.charsOf ps)).offset →
      joins t (peek us) = false) : Runs prev (Piece.place p ps) us := by
  induction ps generalizing p prev with
  | nil => exact hstop prev hprev
  | cons piece ps ih =>
    obtain ⟨hplain, hrest⟩ := List.forall_mem_cons.mp hps
    cases piece with
    | gap cs => cases hplain
    | token kind text cs =>
      obtain ⟨hfirst, hgo⟩ := List.forall_mem_cons.mp hgo
      simp only [Piece.charsOf_cons, Piece.chars, Position.after_append] at hstop
      refine ⟨?_, ih hrest hgo rfl hstop⟩
      have hend : kind ≠ .endOfInput := by rintro rfl; cases hplain
      simp [joins, Token.touches, Token.isEnd, hend, hprev, hfirst]

theorem Piece.endsInComment_iff {ps : List Piece} {p : Position} {t : Token} {ts : List Token}
    (hps : ∀ q ∈ ps, q.isPlain) (hcut : Cut { comments := false } ps [])
    (hts : place p ps = ts ++ [t]) : endsInComment ps = sameLetters t.text "rem" := by
  obtain rfl | ⟨init, last, rfl⟩ := List.eq_nil_or_concat ps
  · simp at hts
  · rw [List.concat_eq_append] at hps hcut hts ⊢
    simp only [List.forall_mem_append, List.forall_mem_singleton] at hps
    cases last with
    | gap cs => exact absurd hps.2 (by simp [isPlain])
    | token kind text cs =>
      obtain ⟨rfl, _⟩ := (cut_append.mp hcut).2.1.plain hps.2
      simp only [place_append, place_token, place_nil] at hts
      obtain ⟨_, ht⟩ := List.append_inj' hts rfl
      simp only [List.cons.injEq, and_true] at ht
      have hlast : endsInComment (init ++ [token kind text text.toList]) =
          spellsComment text.toList := by
        simp [endsInComment, chars]
      rw [hlast, ← ht]
      rfl

/-- What a text spells alone is cut in the same way in front of a text that bounds it. -/
theorem Word.Spells.exists_cut {w : Word} {s : String} {rest : List Char} (h : w.Spells s)
    (hb : Bounded rest) (hrem : w.endsInComment → rest.head?.any (!isBlank ·)) :
    ∃ ps, Piece.charsOf ps = s.toList ∧ Piece.Cut {} ps rest ∧ (∀ p ∈ ps, p.isPlain) ∧
      w.tokens = Piece.place .start ps ∧ w.Formed := by
  obtain ⟨ps, hchars, hcut, hplain, htokens, hformed⟩ := h.exists_row
  refine ⟨ps, hchars, hcut.extend hplain hb fun hend => hrem ?_, hplain, htokens, hformed⟩
  have hlast := (List.dropLast_append_getLast (List.cons_ne_nil w.first w.more)).symm
  exact (Piece.endsInComment_iff hplain hcut (htokens.symm.trans hlast)).symm.trans hend

/-- The tokens of a row without gaps are a word in front of a text that stops words. -/
theorem Word.Formed.reads {w : Word} {ps : List Piece} {q : Position} {rest : List Char}
    {us : List Token} (h : w.Formed) (hps : ∀ p ∈ ps, p.isPlain) (htokens : w.tokens = Piece.place q ps)
    (hstops : Stops rest) (hus : tokensAt {} (q.after (Piece.charsOf ps)) rest = .ok us) :
    rule.Reads (w.tokens ++ us) w us := by
  obtain ⟨hstart, hgo, hlone⟩ := h
  refine reads_rule.mpr ⟨rfl, hstart, ?_, hlone⟩
  cases ps with
  | nil => simp [tokens] at htokens
  | cons piece ps =>
    obtain ⟨hkind, hmorePlain⟩ := List.forall_mem_cons.mp hps
    cases piece with
    | gap cs => cases hkind
    | token kind text cs =>
      obtain ⟨hfirst, hmore⟩ := List.cons.inj htokens
      rw [hmore] at hgo ⊢
      refine runs_place hmorePlain hgo (by rw [hfirst]) fun t ht => joins_of_stops hstops hus ?_
      rw [ht, Piece.charsOf_cons, Piece.chars, Position.after_append]

/-- What a text spells alone, it spells in front of a text that stops words. -/
theorem Word.Spells.reads {w : Word} {s : String} {rest : List Char} (h : w.Spells s)
    (hstops : Stops rest) (hrem : w.endsInComment → rest.head?.any (!isBlank ·)) {p : Position}
    {us : List Token} (hus : tokensAt {} (p.after s.toList) rest = .ok us) :
    ∃ ts w', tokensAt {} p (s.toList ++ rest) = .ok ts ∧ rule.Reads ts w' us ∧ Like w' w := by
  obtain ⟨ps, hchars, hcut, hplain, htokens, hformed⟩ := h.exists_cut (bounded_of_stops hstops) hrem
  have hts := tokensAt_append hcut p
  rw [hchars, hus] at hts
  rw [← hchars] at hus
  cases ps with
  | nil => simp [tokens] at htokens
  | cons piece ps =>
    cases piece with
    | gap cs => simpa [Piece.isPlain] using hplain (.gap cs) List.mem_cons_self
    | token kind text cs =>
      let w' : Word := ⟨⟨kind, text, p, (p.after cs).offset⟩, Piece.place (p.after cs) ps⟩
      have hlike : Like w' w := by
        rw [Like, htokens]
        exact Piece.place_like (.token kind text cs :: ps) p .start
      exact ⟨_, w', hts, (hformed.of_like hlike).reads hplain rfl hstops hus, hlike⟩

end MetricLang
