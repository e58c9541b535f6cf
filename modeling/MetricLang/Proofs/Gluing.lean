-- SUMMARY: Words put together again: however the lexer cuts a word, its tokens are read as the word.
import MetricLang.Proofs.Compute
import MetricLang.Proofs.Lexed

/-!
# Words put together again

The lexer cuts a word where a number or an identifier ends, and that depends on what
comes next: `1.2.3` is two numbers that touch, `5.5x` a name, a point and a name.
Whatever the cuts, no token gets longer than the word (`exists_append_of_read?`), each
is one that words go on with, and none is missing (`exists_row_of_parts`). So the
tokens are read as the word again, up to the character that ends it.
-/

namespace MetricLang

-- ---------------------------------------------------------------------------
-- The characters of words
-- ---------------------------------------------------------------------------

namespace Word

/-- May a word begin with the character? -/
def isStartChar (c : Char) : Bool := isIdentifierStart c || c = '*'

/-- Can the characters be a word without a negation sign? -/
def isUnsigned : List Char → Bool
  | [] => false
  | c :: cs => isStartChar c && cs.all isPartChar

/-- Can the characters be a word? -/
def isWritten : List Char → Bool
  | '!' :: cs => isUnsigned cs
  | cs => isUnsigned cs

/-- The punctuation that ends words. -/
def isDelimiter (c : Char) : Bool :=
  [',', ')', '\x7d', '(', '\x7b', ':', '<', '>', '=', '~', '!'].contains c

theorem isPartChar_of_isStartChar {c : Char} (h : isStartChar c) : isPartChar c := by
  simp only [isStartChar, Bool.or_eq_true, decide_eq_true_eq] at h
  obtain h | rfl := h
  · simp [isPartChar, isIdentifierPart_of_start h]
  · decide

/-- A text that begins with a delimiter stops words, and no comment ends there. -/
theorem stops_of_isDelimiter {d : Char} (cs : List Char) (h : isDelimiter d) :
    Stops (d :: cs) ∧ isBlank d = false := by
  have hall : ∀ d ∈ [',', ')', '\x7d', '(', '\x7b', ':', '<', '>', '=', '~', '!'],
      (endsToken d && d != '/' && d != '+') && !isBlank d :=
    List.all_iff_forall_prop.mp (by decide)
  have hd := hall d (List.contains_iff_mem.mp h)
  rw [Bool.and_eq_true, Bool.not_eq_true'] at hd
  exact hd

end Word

/-- What stops words begins with no character of a number or an identifier. -/
theorem not_part_of_stops {x : Char} {xs : List Char} (h : Stops (x :: xs)) :
    isNumberChar x = false ∧ isIdentifierPart x = false := by
  simp only [Stops, List.head?_cons, Option.all_some, endsToken, Bool.and_eq_true,
    Bool.not_eq_true', bne_iff_ne] at h
  obtain ⟨⟨⟨hpart, hpoint⟩, _⟩, hplus⟩ := h
  have hdigit : x.isDigit = false := by
    rw [← Bool.not_eq_true]
    intro hdigit
    simp [isIdentifierPart_of_start (isIdentifierStart_of_isDigit hdigit)] at hpart
  have hminus : x ≠ '-' := by rintro rfl; simp [isIdentifierPart] at hpart
  exact ⟨by simp [isNumberChar, hdigit, hplus, hminus, hpoint], hpart⟩

-- ---------------------------------------------------------------------------
-- One token of a word
-- ---------------------------------------------------------------------------

namespace Lexeme

/-- Every character that words go on with begins a token. -/
theorem exists_read?_of_isPartChar {c : Char} (cs : List Char) (hc : Word.isPartChar c) :
    ∃ l, read? {} (c :: cs) = some l := by
  cases hread : read? {} (c :: cs) with
  | some l => exact ⟨l, rfl⟩
  | none =>
    exfalso
    simp only [read?, Option.orElse_eq_orElse, Option.orElse_eq_or, Option.or_eq_none_iff] at hread
    obtain ⟨_, _, hid, hpunct⟩ := hread
    have hmem := Word.mem_of_isPartChar hc (identifier?_eq_none_iff.mp hid)
    have hall : ∀ p ∈ ['.', '/', '-', '*'], ({} : LexerConfig).punctuation.toList.contains p :=
      List.all_iff_forall_prop.mp (by decide)
    rw [punct?, if_pos (List.contains_iff_mem.mp (hall c hmem))] at hpunct
    cases hpunct

/-- What begins a word is a token that may begin one. -/
theorem canStart_of_read? {c : Char} {cs after : List Char} {kind : TokenKind} {text : String}
    (hc : Word.isStartChar c) (h : read? {} (c :: cs) = some ⟨kind, text.toList, after⟩)
    (start : Position) (stop : Nat) : Word.canStart ⟨kind, text, start, stop⟩ := by
  have hplain := Word.isPlainChar_of_isPartChar (Word.isPartChar_of_isStartChar hc)
  obtain rfl | hnumber | ⟨rfl, rfl, hid⟩ := kind_of_isPlainChar hplain h
  · simp [Word.canStart, Token.isIdentifier]
  · simp [Word.canStart, Token.isNumber, hnumber]
  · simp only [Word.isStartChar, hid, Bool.false_or, decide_eq_true_eq] at hc
    simp [Word.canStart, Token.isPunct, hc]

/-- A token that begins with a plain character is that character, or is made of the
    characters of numbers and identifiers. -/
theorem made_of_read? {c : Char} {cs : List Char} {l : Lexeme} (hc : isPlainChar c)
    (h : read? {} (c :: cs) = some l) : l.kind.isPlain ∧
      ((∀ x ∈ l.text, isNumberChar x ∨ isIdentifierPart x) ∨ l.text = [c]) := by
  obtain hs | ⟨_, hn | ⟨_, hi | ⟨_, hp⟩⟩⟩ := read?_eq_some_iff.mp h
  · rw [string?_of_isPlainChar _ hc] at hs
    cases hs
  · obtain ⟨hread, hkind⟩ := number?_eq_some hn
    refine ⟨?_, .inl fun x hx => .inl (isNumberChar_of_mem_readNumber? hread x hx)⟩
    rw [hkind]
    split <;> rfl
  · obtain ⟨hread, hkind⟩ := identifier?_eq_some hi
    exact ⟨by rw [hkind]; rfl, .inl fun x hx => .inr (isIdentifierPart_of_readIdentifier? hread x hx)⟩
  · obtain ⟨d, _, hd, hkind, htext⟩ := punct?_eq_some hp
    rw [(List.cons.inj hd).1]
    exact ⟨by rw [hkind]; rfl, .inr htext⟩

/-- A token that begins in front of a text that stops words does not get into it. -/
theorem exists_append_of_read? {c : Char} {cs rest : List Char} {l : Lexeme}
    (hc : isPlainChar c) (hstops : Stops rest) (h : read? {} (c :: cs ++ rest) = some l) :
    l.kind.isPlain ∧ l.text ≠ [] ∧ ∃ after, c :: cs = l.text ++ after ∧ l.rest = after ++ rest := by
  obtain ⟨hplain, hmade⟩ := made_of_read? hc h
  have hparts := append_of_isPlain h hplain
  refine ⟨hplain, ?_, ?_⟩
  · intro hnil
    have hlength := length_of_read? h
    rw [hnil, List.nil_append] at hparts
    rw [hparts] at hlength
    exact Nat.lt_irrefl _ hlength
  · obtain ⟨xs, hcs, hrest⟩ | ⟨xs, htext, hrest⟩ := List.append_eq_append_iff.mp hparts
    · exact ⟨xs, hcs, hrest⟩
    · cases xs with
      | nil => exact ⟨[], by simpa using htext.symm, by simpa using hrest.symm⟩
      | cons x xs =>
        exfalso
        obtain hmade | hone := hmade
        · rw [hrest, List.cons_append] at hstops
          obtain ⟨hnumber, hpart⟩ := not_part_of_stops hstops
          have hx := hmade x (by simp [htext])
          simp [hnumber, hpart] at hx
        · have hlong := congrArg List.length htext
          simp [hone] at hlong

end Lexeme

/-- In front of a delimiter nothing in a word is skipped. -/
theorem readTrivia?_of_isPlainChar {c : Char} {cs rest : List Char}
    (hcs : ∀ x ∈ c :: cs, isPlainChar x) (hstops : Stops rest)
    (hblank : rest.head?.any (!isBlank ·)) : readTrivia? true (c :: cs ++ rest) = none := by
  refine readTrivia?_eq_none_iff.mpr ⟨?_, fun _ => ?_⟩
  · rw [List.cons_append, List.head?_cons, Option.all_some, Bool.not_eq_true']
    exact not_isBlank_of_isPlainChar (hcs c List.mem_cons_self)
  · exact readComment?_append_eq_none (List.cons_ne_nil c cs) hcs (bounded_of_stops hstops)
      fun _ => hblank

-- ---------------------------------------------------------------------------
-- All tokens of a word
-- ---------------------------------------------------------------------------

namespace Word

/-- However characters of words are cut, the cuts are all between them, and a word goes
    on with each token. -/
theorem exists_row_of_parts {cs rest : List Char} (hcs : ∀ c ∈ cs, isPartChar c)
    (hstops : Stops rest) (hblank : rest.head?.any (!isBlank ·)) :
    ∃ ps, Piece.charsOf ps = cs ∧ Piece.Cut {} ps rest ∧ (∀ p ∈ ps, p.isPlain) ∧
      ∀ q, ∀ t ∈ Piece.place q ps, canContinue t := by
  induction hn : cs.length using Nat.strongRecOn generalizing cs with
  | ind n ih =>
    cases cs with
    | nil => exact ⟨[], rfl, trivial, by simp, by simp⟩
    | cons c cs =>
      have hplain : ∀ x ∈ c :: cs, isPlainChar x := fun x hx => isPlainChar_of_isPartChar (hcs x hx)
      have hc := hcs c List.mem_cons_self
      obtain ⟨⟨kind, text, left⟩, hread⟩ := Lexeme.exists_read?_of_isPartChar (cs ++ rest) hc
      obtain ⟨hkind, hfilled, after, hsplit, rfl⟩ :=
        Lexeme.exists_append_of_read? (hplain c List.mem_cons_self) hstops hread
      dsimp only at hkind hfilled hsplit
      have hlength : after.length < n := by
        have := congrArg List.length hsplit
        have := List.length_pos_iff.mpr hfilled
        simp only [List.length_append] at *
        omega
      obtain ⟨ps, hps, hcut, hpsPlain, hgo⟩ := ih _ hlength
        (fun x hx => hcs x (by rw [hsplit]; exact List.mem_append_right text hx)) rfl
      have hread : Lexeme.read? {} (c :: (cs ++ rest)) =
          some ⟨kind, (String.ofList text).toList, after ++ rest⟩ := by
        rw [String.toList_ofList]
        exact hread
      refine ⟨.token kind (String.ofList text) text :: ps, by simp [Piece.chars, hps, hsplit],
        ⟨⟨?_, ?_⟩, hcut⟩, List.forall_mem_cons.mpr ⟨hkind, hpsPlain⟩, fun q => ?_⟩
      · rw [hps, ← List.append_assoc, ← hsplit]
        exact readTrivia?_of_isPlainChar hplain hstops hblank
      · rw [hps, ← List.append_assoc, ← hsplit]
        exact hread
      · exact List.forall_mem_cons.mpr
          ⟨canContinue_of_read? hc hread q _, hgo _⟩

/-- The first token of a row is one that may begin a word, if its first character is. -/
theorem exists_formed_of_row {c : Char} {cs rest : List Char} {ps : List Piece}
    (hc : isStartChar c) (hchars : Piece.charsOf ps = c :: cs) (hcut : Piece.Cut {} ps rest)
    (hgo : ∀ q, ∀ t ∈ Piece.place q ps, canContinue t) (hplain : ∀ p ∈ ps, p.isPlain)
    (q : Position) : ∃ w : Word, w.tokens = Piece.place q ps ∧ w.Formed := by
  cases ps with
  | nil => cases hchars
  | cons piece ps =>
    cases piece with
    | gap gs => simpa [Piece.isPlain] using hplain (.gap gs) List.mem_cons_self
    | token kind text taken =>
      have hread : Lexeme.read? {} (c :: (cs ++ rest)) =
          some ⟨kind, text.toList, Piece.charsOf ps ++ rest⟩ := by
        rw [← List.cons_append, ← hchars, Piece.charsOf_cons, List.append_assoc]
        exact hcut.1.2
      have hstart := Lexeme.canStart_of_read? hc hread q (q.after taken).offset
      refine ⟨⟨_, Piece.place (q.after taken) ps⟩, rfl, hstart,
        fun t ht => hgo q t (List.mem_cons_of_mem _ ht), ?_⟩
      rintro ⟨hnot, _⟩
      have := hgo q _ List.mem_cons_self
      simp_all [canContinue, Token.isPunct, Token.isIdentifier, Token.isNumber]

/-- However a word is cut, its tokens can be a word. -/
theorem exists_row_of_isWritten {cs rest : List Char} (hcs : isWritten cs)
    (hstops : Stops rest) (hblank : rest.head?.any (!isBlank ·)) :
    ∃ ps, Piece.charsOf ps = cs ∧ Piece.Cut {} ps rest ∧ (∀ p ∈ ps, p.isPlain) ∧
      ∀ q, ∃ w : Word, w.tokens = Piece.place q ps ∧ w.Formed := by
  have hunsigned : ∀ {cs}, isUnsigned cs → ∃ c ds, cs = c :: ds ∧ isStartChar c ∧
      ∀ x ∈ c :: ds, isPartChar x := by
    intro cs h
    cases cs with
    | nil => cases h
    | cons c ds =>
      simp only [isUnsigned, Bool.and_eq_true, List.all_eq_true] at h
      exact ⟨c, ds, rfl, h.1, List.forall_mem_cons.mpr ⟨isPartChar_of_isStartChar h.1, h.2⟩⟩
  unfold isWritten at hcs
  split at hcs
  · next cs =>
    obtain ⟨c, ds, rfl, _, hparts⟩ := hunsigned hcs
    obtain ⟨ps, hchars, hcut, hplain, hgo⟩ := exists_row_of_parts hparts hstops hblank
    refine ⟨.token .punct "!" ['!'] :: ps, by rw [Piece.charsOf_cons, hchars]; rfl, ⟨⟨?_, ?_⟩, hcut⟩,
      List.forall_mem_cons.mpr ⟨rfl, hplain⟩, fun q => ?_⟩
    · exact readTrivia?_eq_none_of_head (by decide) (by decide)
    · exact Lexeme.read?_eq_some_iff.mpr (.inr ⟨rfl, .inr ⟨rfl, .inr ⟨rfl, rfl⟩⟩⟩)
    · refine ⟨⟨_, Piece.place (q.after ['!']) ps⟩, rfl, by simp [canStart, Token.isPunct],
        fun t ht => hgo _ t ht, ?_⟩
      rintro ⟨_, hnone⟩
      cases ps with
      | nil => cases hchars
      | cons p ps =>
        cases p with
        | gap gs => simpa [Piece.isPlain] using hplain (.gap gs) List.mem_cons_self
        | token => cases hnone
  · obtain ⟨c, ds, rfl, hc, hparts⟩ := hunsigned hcs
    obtain ⟨ps, hchars, hcut, hplain, hgo⟩ := exists_row_of_parts hparts hstops hblank
    exact ⟨ps, hchars, hcut, hplain, exists_formed_of_row hc hchars hcut hgo hplain⟩

/-- Whatever tokens a text begins with that is a word up to a delimiter, they are read as
    that word, and the tokens from the delimiter on are left. -/
theorem reads_of_isWritten {w s : String} {d : Char} {ts : List Token} (hw : isWritten w.toList)
    (hd : isDelimiter d) (hts : tokenize {} (w ++ String.singleton d ++ s) = .ok ts) :
    ∃ word us, rule.Reads ts word us ∧ word.text = w ∧
      tokensAt {} (Position.start.after w.toList) (d :: s.toList) = .ok us := by
  obtain ⟨hstops, hblank⟩ := stops_of_isDelimiter s.toList hd
  obtain ⟨ps, hchars, hcut, hplain, hformed⟩ :=
    exists_row_of_isWritten hw hstops (by simp [hblank])
  have htext : (w ++ String.singleton d ++ s).toList = Piece.charsOf ps ++ d :: s.toList := by
    simp [hchars]
  rw [tokenize_eq_tokensAt, htext] at hts
  obtain ⟨us, hus, rfl⟩ := exists_of_tokensAt_append hcut hts
  obtain ⟨word, htokens, hword⟩ := hformed .start
  have hread := hword.reads hplain htokens hstops hus
  refine ⟨word, us, by rwa [htokens] at hread, ?_, by rwa [hchars] at hus⟩
  rw [← String.toList_inj, toList_text, htokens, Piece.flatten_place hcut hplain, hchars]

/-- A word with a number that has a sign and no digit before its point. -/
theorem reads_of_isWritten_signed : ∃ ts, isWritten "!a/-.5*x-1.2.3".toList ∧ isDelimiter ',' ∧
    tokenize {} ("!a/-.5*x-1.2.3" ++ String.singleton ',' ++ " y") = .ok ts ∧
    ∃ word us, rule.Reads ts word us ∧ word.text = "!a/-.5*x-1.2.3" ∧
      tokensAt {} (Position.start.after "!a/-.5*x-1.2.3".toList) (',' :: " y".toList) = .ok us := by
  have hcut : (cutWithin 30 .start
      ("!a/-.5*x-1.2.3" ++ String.singleton ',' ++ " y").toList).isSome := by decide +kernel
  obtain ⟨ts, hcut⟩ := Option.isSome_iff_exists.mp hcut
  have hts : tokenize {} ("!a/-.5*x-1.2.3" ++ String.singleton ',' ++ " y") = .ok ts :=
    tokensAt_of_cutWithin hcut
  have hw : isWritten "!a/-.5*x-1.2.3".toList := by decide
  exact ⟨ts, hw, by decide, hts, reads_of_isWritten hw (by decide) hts⟩

end Word

end MetricLang
