-- SUMMARY: Plain tokens, everything but strings: cut alike alone and in front of other text.
import Mathlib.Data.Bool.AllAny
import MetricLang.Proofs.Boundary

/-!
# Plain tokens

Plain tokens are identifiers, numbers and punctuation: they are written as they
read. A row of plain tokens without gaps is cut alike in front of any text that
does not run into it, and on its own (`Piece.Cut.extend`, `Piece.Cut.bare`).
Only a comment can tell the two apart: the letters of its word are an identifier
in front of a bracket, and no token at all in front of a blank.
-/

namespace MetricLang

def TokenKind.isPlain : TokenKind → Bool
  | .identifier | .integer | .float | .punct => true
  | .string _ | .endOfInput => false

/-- The characters that plain tokens are made of. -/
def isPlainChar (c : Char) : Bool :=
  isIdentifierPart c || ({} : LexerConfig).punctuation.toList.contains c

/-- Do the characters spell the word that begins comments? -/
def spellsComment (cs : List Char) : Bool := cs.map Char.toLower = ['r', 'e', 'm']

theorem not_isPlainChar_of_isBlank {c : Char} (h : isBlank c) : isPlainChar c = false := by
  simp only [isBlank, Bool.or_eq_true, decide_eq_true_eq] at h
  obtain ((rfl | rfl) | rfl) | rfl := h <;> decide

theorem not_isBlank_of_isPlainChar {c : Char} (h : isPlainChar c) : isBlank c = false := by
  refine Bool.eq_false_iff.mpr fun hblank => ?_
  exact Bool.false_ne_true ((not_isPlainChar_of_isBlank hblank).symm.trans h)

theorem not_isPlainChar_quote (q : Quote) : isPlainChar q.char = false := by
  cases q <;> decide

theorem isBlank_of_isLineEnd {c : Char} (h : isLineEnd c) : isBlank c := by
  simp only [isLineEnd, Bool.or_eq_true, decide_eq_true_eq] at h
  obtain rfl | rfl := h <;> rfl

-- ---------------------------------------------------------------------------
-- Strings
-- ---------------------------------------------------------------------------

/-- A string is read alike whatever follows it. -/
theorem Quote.readBody?_append_right {q : Quote} {cs value rest : List Char} (more : List Char)
    (h : q.readBody? cs = some (value, rest)) :
    q.readBody? (cs ++ more) = some (value, rest ++ more) := by
  fun_induction Quote.readBody? q cs generalizing value rest with
  | case1 => cases h
  | case2 c cs ih =>
    obtain ⟨⟨v, r⟩, hr, he⟩ := Option.map_eq_some_iff.mp h
    cases he
    simp [Quote.readBody?, ih hr]
  | case3 cs hslash =>
    cases h
    rw [List.cons_append, Quote.readBody?.eq_def]
    cases q <;> simp [Quote.char]
  | case4 => cases h
  | case5 c cs hslash hc hstop ih =>
    obtain ⟨⟨v, r⟩, hr, he⟩ := Option.map_eq_some_iff.mp h
    cases he
    obtain ⟨hslash', hfeed⟩ := not_or.mp hstop
    rw [List.cons_append, Quote.readBody?.eq_def]
    simp [hslash', hc, hfeed, ih hr]

namespace Lexeme

theorem string?_append_right {cs : List Char} {l : Lexeme} (more : List Char)
    (h : string? cs = some l) : (string? (cs ++ more)).isSome := by
  obtain ⟨q, _, hq⟩ := string?_eq_some h
  cases cs with
  | nil => cases hq
  | cons c cs =>
    simp only [Quote.read?] at hq
    split at hq
    · next hc =>
      have hmore := Quote.readBody?_append_right more hq
      cases q <;> simp [string?, Quote.read?, hc, hmore, Quote.char]
    · cases hq

/-- No string begins with a character that plain tokens are made of. -/
theorem string?_of_isPlainChar {c : Char} (cs : List Char) (h : isPlainChar c) :
    string? (c :: cs) = none := by
  have hq : ∀ q : Quote, c ≠ q.char := by
    rintro q rfl
    simp [not_isPlainChar_quote] at h
  simp [string?, Quote.read?, hq]

-- ---------------------------------------------------------------------------
-- One plain token
-- ---------------------------------------------------------------------------

theorem string?_of_isPlain {config : LexerConfig} {cs : List Char} {l : Lexeme}
    (h : read? config cs = some l) (hp : l.kind.isPlain) : string? cs = none := by
  obtain h | ⟨h, _⟩ := read?_eq_some_iff.mp h
  · obtain ⟨q, hq, _⟩ := string?_eq_some h
    simp [hq, TokenKind.isPlain] at hp
  · exact h

/-- A plain token is written as it reads. -/
theorem append_of_isPlain {config : LexerConfig} {cs : List Char} {l : Lexeme}
    (h : read? config cs = some l) (hp : l.kind.isPlain) : l.text ++ l.rest = cs := by
  have hs := string?_of_isPlain h hp
  obtain h | ⟨_, h | ⟨_, h | ⟨_, h⟩⟩⟩ := read?_eq_some_iff.mp h
  · simp [hs] at h
  · exact append_of_readNumber? (number?_eq_some h).1
  · exact append_of_readIdentifier? (identifier?_eq_some h).1
  · obtain ⟨c, _, rfl, _, hc⟩ := punct?_eq_some h
    simp [hc]

theorem number?_append_right {cs rest : List Char} (hne : cs ≠ []) (h : Parts cs rest) :
    number? (cs ++ rest) = (number? cs).map fun l => { l with rest := l.rest ++ rest } := by
  simp only [number?, readNumber?_append_right hne h, Option.map_map]
  rfl

theorem identifier?_append_right {cs rest : List Char} (hne : cs ≠ []) (h : Bounded rest) :
    identifier? (cs ++ rest) = (identifier? cs).map fun l => { l with rest := l.rest ++ rest } := by
  simp only [identifier?, readIdentifier?_append_right hne h, Option.map_map]
  rfl

theorem identifier?_eq_none_iff {c : Char} {cs : List Char} :
    identifier? (c :: cs) = none ↔ isIdentifierStart c = false := by
  simp [identifier?, readIdentifier?]

theorem punct?_append_right {punctuation : String} {cs : List Char} (hne : cs ≠ [])
    (rest : List Char) :
    punct? punctuation (cs ++ rest) =
      (punct? punctuation cs).map fun l => { l with rest := l.rest ++ rest } := by
  cases cs with
  | nil => exact absurd rfl hne
  | cons c cs =>
    simp only [List.cons_append, punct?]
    split <;> rfl

/-- A plain token that is read in front of more text is read as well where the text stops. -/
theorem read?_of_append {config : LexerConfig} {kind : TokenKind} {taken after rest : List Char}
    (h : read? config (taken ++ after ++ rest) = some ⟨kind, taken, after ++ rest⟩)
    (hp : kind.isPlain) (hparts : Parts (taken ++ after) rest) (hne : taken ++ after ≠ []) :
    read? config (taken ++ after) = some ⟨kind, taken, after⟩ := by
  have hs : string? (taken ++ after) = none := by
    rw [Option.eq_none_iff_forall_ne_some]
    intro l hl
    have := string?_append_right rest hl
    rw [string?_of_isPlain h hp] at this
    cases this
  have hrest : ∀ {l : Lexeme}, { l with rest := l.rest ++ rest } =
      (⟨kind, taken, after ++ rest⟩ : Lexeme) → l = ⟨kind, taken, after⟩ := by
    rintro ⟨k, t, r⟩ hl
    simpa using hl
  obtain h | ⟨_, h | ⟨hn, h | ⟨hi, h⟩⟩⟩ := read?_eq_some_iff.mp h
  · obtain ⟨q, rfl, _⟩ := string?_eq_some h
    cases hp
  · rw [number?_append_right hne hparts] at h
    obtain ⟨l, hl, he⟩ := Option.map_eq_some_iff.mp h
    exact read?_eq_some_iff.mpr (.inr ⟨hs, .inl (by rw [hl, hrest he])⟩)
  · rw [number?_append_right hne hparts, Option.map_eq_none_iff] at hn
    obtain ⟨hid, rfl⟩ := identifier?_eq_some h
    have hid := readIdentifier?_of_append hid
    exact read?_eq_some_iff.mpr (.inr ⟨hs, .inr ⟨hn, .inl (by simp [identifier?, hid])⟩⟩)
  · rw [number?_append_right hne hparts, Option.map_eq_none_iff] at hn
    rw [punct?_append_right hne] at h
    obtain ⟨l, hl, he⟩ := Option.map_eq_some_iff.mp h
    have hid : identifier? (taken ++ after) = none := by
      obtain ⟨c, cs, hc⟩ := List.exists_cons_of_ne_nil hne
      rw [hc, List.cons_append, identifier?_eq_none_iff] at hi
      rwa [hc, identifier?_eq_none_iff]
    exact read?_eq_some_iff.mpr (.inr ⟨hs, .inr ⟨hn, .inr ⟨hid, by rw [hl, hrest he]⟩⟩⟩)

/-- A plain token is read alike in front of a text that runs into no token before it. -/
theorem read?_append_right {config : LexerConfig} {kind : TokenKind} {taken after rest : List Char}
    (h : read? config (taken ++ after) = some ⟨kind, taken, after⟩) (hb : Bounded rest)
    (hne : taken ++ after ≠ []) (hs : string? (taken ++ after ++ rest) = none) :
    read? config (taken ++ after ++ rest) = some ⟨kind, taken, after ++ rest⟩ := by
  have hnumber := number?_append_right hne (parts_of_bounded hb)
  have hidentifier := identifier?_append_right hne hb
  have hpunct := @punct?_append_right config.punctuation (taken ++ after) hne rest
  obtain h | ⟨_, h | ⟨hn, h | ⟨hi, h⟩⟩⟩ := read?_eq_some_iff.mp h
  · have := string?_append_right rest h
    rw [hs] at this
    cases this
  · refine read?_eq_some_iff.mpr (.inr ⟨hs, .inl ?_⟩)
    rw [hnumber, h]
    rfl
  · refine read?_eq_some_iff.mpr (.inr ⟨hs, .inr ⟨by rw [hnumber, hn]; rfl, .inl ?_⟩⟩)
    rw [hidentifier, h]
    rfl
  · refine read?_eq_some_iff.mpr (.inr ⟨hs, .inr ⟨by rw [hnumber, hn]; rfl,
      .inr ⟨by rw [hidentifier, hi]; rfl, ?_⟩⟩⟩)
    rw [hpunct, h]
    rfl

end Lexeme

-- ---------------------------------------------------------------------------
-- The characters of plain tokens
-- ---------------------------------------------------------------------------

theorem isPlainChar_of_isIdentifierPart {c : Char} (h : isIdentifierPart c) : isPlainChar c := by
  simp [isPlainChar, h]

theorem isPlainChar_of_isDigit {c : Char} (h : c.isDigit) : isPlainChar c :=
  isPlainChar_of_isIdentifierPart (isIdentifierPart_of_start (isIdentifierStart_of_isDigit h))

/-- The characters that numbers are made of. -/
def isNumberChar (c : Char) : Bool := c.isDigit || ['+', '-', '.'].contains c

theorem isPlainChar_of_isNumberChar {c : Char} (h : isNumberChar c) : isPlainChar c := by
  simp only [isNumberChar, Bool.or_eq_true] at h
  obtain h | h := h
  · exact isPlainChar_of_isDigit h
  · have : ∀ c ∈ ['+', '-', '.'], isPlainChar c := List.all_iff_forall_prop.mp (by decide)
    exact this c (List.contains_iff_mem.mp h)

theorem isNumberChar_of_mem_splitSign {cs : List Char} {c : Char} (h : c ∈ (splitSign cs).1) :
    isNumberChar c := by
  unfold splitSign at h
  split at h
  · obtain rfl := List.mem_singleton.mp h; decide
  · obtain rfl := List.mem_singleton.mp h; decide
  · cases h

theorem isNumberChar_of_mem_splitDigits {cs : List Char} {c : Char}
    (h : c ∈ (splitDigits cs).1) : isNumberChar c := by
  have hrun : ∀ xs : List Char, c ∈ xs.takeWhile Char.isDigit → isNumberChar c :=
    fun xs hc => by simp [isNumberChar, List.mem_takeWhile_imp hc]
  unfold splitDigits at h
  split at h
  · next rest _ =>
    split at h
    · exact hrun cs h
    · next places _ =>
      simp only [List.mem_append, List.mem_cons] at h
      obtain h | rfl | h := h
      · exact hrun cs h
      · decide
      · exact hrun rest h
  · exact hrun cs h

theorem isNumberChar_of_mem_readNumber? {cs taken rest : List Char}
    (h : readNumber? cs = some (taken, rest)) : ∀ c ∈ taken, isNumberChar c := by
  intro c hc
  simp only [readNumber?] at h
  split at h
  · cases h
  · cases h
    obtain hc | hc := List.mem_append.mp hc
    · exact isNumberChar_of_mem_splitSign hc
    · exact isNumberChar_of_mem_splitDigits hc

theorem isIdentifierPart_of_readIdentifier? {cs taken rest : List Char}
    (h : readIdentifier? cs = some (taken, rest)) : ∀ c ∈ taken, isIdentifierPart c := by
  cases cs with
  | nil => cases h
  | cons c cs =>
    simp only [readIdentifier?] at h
    split at h
    · next hstart =>
      cases h
      exact List.forall_mem_cons.mpr
        ⟨isIdentifierPart_of_start hstart, fun _ hd => List.mem_takeWhile_imp hd⟩
    · cases h

theorem isPlainChar_of_mem_readIdentifier? {cs taken rest : List Char}
    (h : readIdentifier? cs = some (taken, rest)) : ∀ c ∈ taken, isPlainChar c :=
  fun c hc => isPlainChar_of_isIdentifierPart (isIdentifierPart_of_readIdentifier? h c hc)

theorem Lexeme.isPlainChar_of_mem {comments : Bool} {cs : List Char} {l : Lexeme}
    (h : Lexeme.read? { comments } cs = some l) (hp : l.kind.isPlain) :
    ∀ c ∈ l.text, isPlainChar c := by
  have hs := Lexeme.string?_of_isPlain h hp
  obtain h | ⟨_, h | ⟨_, h | ⟨_, h⟩⟩⟩ := Lexeme.read?_eq_some_iff.mp h
  · simp [hs] at h
  · exact fun c hc => isPlainChar_of_isNumberChar
      (isNumberChar_of_mem_readNumber? (Lexeme.number?_eq_some h).1 c hc)
  · exact isPlainChar_of_mem_readIdentifier? (Lexeme.identifier?_eq_some h).1
  · obtain ⟨c, hc, _, _, htext⟩ := Lexeme.punct?_eq_some h
    rw [htext]
    intro d hd
    rw [List.mem_singleton.mp hd, isPlainChar, Bool.or_eq_true]
    exact .inr (List.contains_iff_mem.mpr hc)

-- ---------------------------------------------------------------------------
-- Trivia
-- ---------------------------------------------------------------------------

theorem readBlanks?_eq_none_iff {cs : List Char} :
    readBlanks? cs = none ↔ cs.head?.all (!isBlank ·) := by
  cases cs with
  | nil => simp [readBlanks?]
  | cons c cs =>
    by_cases hc : isBlank c <;> simp [readBlanks?, hc]

theorem readTrivia?_eq_none_iff {comments : Bool} {cs : List Char} :
    readTrivia? comments cs = none ↔
      cs.head?.all (!isBlank ·) ∧ (comments → readComment? cs = none) := by
  rw [← readBlanks?_eq_none_iff]
  cases comments <;> simp [readTrivia?]

theorem isAlpha_of_toLower {c : Char} (h : c.toLower.isLower) : c.isAlpha := by
  have halpha : c.isAlpha = (c.isUpper || c.isLower) := rfl
  have hupper : c.isUpper = decide (c.val ≥ 'A'.val ∧ c.val ≤ 'Z'.val) := rfl
  rw [halpha]
  by_cases hc : c.isUpper
  · simp [hc]
  · have hsame : c.toLower = c := by
      delta Char.toLower
      rw [dif_neg]
      simpa [hupper] using hc
    rw [hsame] at h
    simp [h]

theorem isDigit_of_isAlpha {c : Char} (h : c.isAlpha) : c.isDigit = false := by
  have halpha : c.isAlpha = (decide (c.val ≥ 'A'.val ∧ c.val ≤ 'Z'.val) ||
    (decide (c.val ≥ 'a'.val) && decide (c.val ≤ 'z'.val))) := rfl
  simp only [halpha, Char.isDigit, UInt32.le_iff_toNat_le, Bool.or_eq_true, Bool.and_eq_true,
    decide_eq_true_eq, Bool.and_eq_false_iff, decide_eq_false_iff_not, ge_iff_le] at h ⊢
  have : 'A'.val.toNat = 65 ∧ 'Z'.val.toNat = 90 ∧ 'a'.val.toNat = 97 ∧ 'z'.val.toNat = 122 ∧
    '0'.val.toNat = 48 ∧ '9'.val.toNat = 57 := by decide
  omega

/-- No number begins with a letter. -/
theorem readNumber?_of_isAlpha {c : Char} (cs : List Char) (h : c.isAlpha) :
    readNumber? (c :: cs) = none := by
  have hne : ∀ d : Char, ¬ d.isAlpha → c ≠ d := by rintro d hd rfl; exact hd h
  have hplus := hne '+' (by decide)
  have hminus := hne '-' (by decide)
  have hpoint := hne '.' (by decide)
  simp [readNumber?, splitSign, splitDigits, hplus, hminus, hpoint, isDigit_of_isAlpha h]

theorem isIdentifierStart_of_isAlpha {c : Char} (h : c.isAlpha) : isIdentifierStart c := by
  simp [isIdentifierStart, Char.isAlphanum, h]

/-- What begins with a letter is an identifier. -/
theorem Lexeme.identifier?_of_isAlpha {comments : Bool} {c : Char} {cs : List Char} {l : Lexeme}
    (h : c.isAlpha) (hl : Lexeme.read? { comments } (c :: cs) = some l) :
    Lexeme.identifier? (c :: cs) = some l := by
  have hstart := isIdentifierStart_of_isAlpha h
  have hplain := isPlainChar_of_isIdentifierPart (isIdentifierPart_of_start hstart)
  obtain hl | ⟨_, hl | ⟨_, hl | ⟨hid, _⟩⟩⟩ := Lexeme.read?_eq_some_iff.mp hl
  · simp [Lexeme.string?_of_isPlainChar cs hplain] at hl
  · simp [Lexeme.number?, readNumber?_of_isAlpha cs h] at hl
  · exact hl
  · simp [Lexeme.identifier?_eq_none_iff, hstart] at hid

theorem isAlpha_of_spellsComment {cs : List Char} (h : spellsComment cs) : ∀ c ∈ cs, c.isAlpha := by
  intro c hc
  refine isAlpha_of_toLower ?_
  have hmem : c.toLower ∈ cs.map Char.toLower := List.mem_map_of_mem hc
  rw [of_decide_eq_true h] at hmem
  have : ∀ d ∈ ['r', 'e', 'm'], d.isLower := List.all_iff_forall_prop.mp (by decide)
  exact this _ hmem

/-- The word that begins comments is one token where nothing follows it. -/
theorem Lexeme.rest_of_spellsComment {comments : Bool} {cs : List Char} {l : Lexeme}
    (h : spellsComment cs) (hl : Lexeme.read? { comments } cs = some l) : l.rest = [] := by
  have halpha := isAlpha_of_spellsComment h
  cases cs with
  | nil => simp [spellsComment] at h
  | cons c cs =>
    obtain ⟨hc, hcs⟩ := List.forall_mem_cons.mp halpha
    have hid := (Lexeme.identifier?_eq_some (identifier?_of_isAlpha hc hl)).1
    simp only [readIdentifier?, isIdentifierStart_of_isAlpha hc, if_true, Option.some.injEq,
      Prod.mk.injEq] at hid
    rw [← hid.2, List.dropWhile_eq_nil_iff]
    exact fun d hd => isIdentifierPart_of_start (isIdentifierStart_of_isAlpha (hcs d hd))

/-- Plain characters are no comment in front of a text that runs into no token, unless
    they spell the word for comments and the text goes on with a blank or not at all. -/
theorem readComment?_append_eq_none {cs rest : List Char} (hne : cs ≠ [])
    (hcs : ∀ c ∈ cs, isPlainChar c) (hb : Bounded rest)
    (hrem : spellsComment cs → rest.head?.any (!isBlank ·)) : readComment? (cs ++ rest) = none := by
  have hletter : ∀ d ∈ rest.head?, d.toLower ≠ 'e' ∧ d.toLower ≠ 'm' := by
    intro d hd
    have hpart : isIdentifierPart d = false := by cases rest <;> simp_all [endsToken]
    have hletter : ∀ c : Char, c.isLower → d.toLower ≠ c := by
      rintro c hc rfl
      simp [isIdentifierPart, isIdentifierStart, Char.isAlphanum, isAlpha_of_toLower hc] at hpart
    exact ⟨hletter 'e' rfl, hletter 'm' rfl⟩
  obtain _ | ⟨r, _ | ⟨e, _ | ⟨m, _ | ⟨d, ds⟩⟩⟩⟩ := cs
  · exact absurd rfl hne
  · cases rest with
    | nil => rfl
    | cons e ds => cases ds <;> simp_all [readComment?]
  · cases rest with
    | nil => rfl
    | cons m ds => simp_all [readComment?]
  · cases rest with
    | nil => simp_all [readComment?, spellsComment]
    | cons d ds => simp_all [readComment?, spellsComment]
  · have hd : isBlank d = false := not_isBlank_of_isPlainChar (hcs d (by simp))
    simp [readComment?, hd]

-- ---------------------------------------------------------------------------
-- Rows of plain tokens
-- ---------------------------------------------------------------------------

namespace Piece

def isPlain : Piece → Bool
  | .gap _ => false
  | .token kind _ _ => kind.isPlain

theorem Fits.plain {comments : Bool} {after : List Char} {kind : TokenKind} {text : String}
    {cs : List Char} (h : (token kind text cs).Fits { comments } after) (hp : kind.isPlain) :
    cs = text.toList ∧ cs ≠ [] ∧ ∀ c ∈ cs, isPlainChar c := by
  have hcs : text.toList ++ after = cs ++ after := Lexeme.append_of_isPlain h.2 hp
  have hcs : cs = text.toList := (List.append_cancel_right hcs).symm
  refine ⟨hcs, ?_, ?_⟩
  · rintro rfl
    have := Lexeme.length_of_read? h.2
    simp at this
  · rw [hcs]
    exact Lexeme.isPlainChar_of_mem h.2 hp

theorem Cut.isPlainChar_of_mem {comments : Bool} {ps : List Piece} {rest : List Char}
    (h : Cut { comments } ps rest) (hp : ∀ p ∈ ps, p.isPlain) :
    ∀ c ∈ charsOf ps, isPlainChar c := by
  induction ps with
  | nil => simp
  | cons p ps ih =>
    obtain ⟨hp, hps⟩ := List.forall_mem_cons.mp hp
    cases p with
    | gap cs => cases hp
    | token kind text cs =>
      intro c hc
      obtain hc | hc := List.mem_append.mp hc
      · exact (h.1.plain hp).2.2 c hc
      · exact ih h.2 hps c hc

theorem Cut.charsOf_ne_nil {comments : Bool} {p : Piece} {ps : List Piece} {rest : List Char}
    (h : Cut { comments } (p :: ps) rest) (hp : p.isPlain) : charsOf (p :: ps) ≠ [] := by
  cases p with
  | gap cs => cases hp
  | token kind text cs => exact List.append_ne_nil_of_left_ne_nil (h.1.plain hp).2.1 _

/-- A number or an identifier does not end with a digit in front of a letter. -/
theorem Fits.parts {comments : Bool} {rest : List Char} {kind : TokenKind} {text : String}
    {cs : List Char} (h : (token kind text cs).Fits { comments } rest) (hp : kind.isPlain)
    (hrest : rest.head?.all fun d => !d.isDigit && d != '.') : Parts cs rest := by
  suffices rest.head?.any isIdentifierStart → ¬ cs.getLast?.any Char.isDigit by
    cases rest with
    | nil => rfl
    | cons d ds => cases hd : isIdentifierStart d <;> simp_all [Parts]
  obtain ⟨hcs, hne, hplain⟩ := h.plain hp
  intro hstart hdigit
  have hs := Lexeme.string?_of_isPlain h.2 hp
  obtain hr | ⟨_, hr | ⟨_, hr | ⟨_, hr⟩⟩⟩ := Lexeme.read?_eq_some_iff.mp h.2
  · simp [hs] at hr
  · have hnumber := (Lexeme.number?_eq_some hr).1
    simp only [readNumber?] at hnumber
    split at hnumber
    · cases hnumber
    · next hstop =>
      simp only [Option.some.injEq, Prod.mk.injEq] at hnumber
      rw [hnumber.2] at hstop
      exact hstop (.inr hstart)
  · obtain ⟨d, ds, rfl⟩ := List.exists_cons_of_ne_nil hne
    have hid := (Lexeme.identifier?_eq_some hr).1
    simp only [List.cons_append, readIdentifier?] at hid
    split at hid
    · simp only [Option.some.injEq, Prod.mk.injEq] at hid
      have hhead := head?_dropWhile_all isIdentifierPart (ds ++ rest)
      rw [hid.2] at hhead
      cases rest with
      | nil => cases hstart
      | cons e es => simp_all [isIdentifierPart]
    · cases hid
  · obtain ⟨c, hc, hcons, _, htext⟩ := Lexeme.punct?_eq_some hr
    rw [hcs, show text.toList = [c] from htext] at hdigit
    have : ∀ c ∈ ({} : LexerConfig).punctuation.toList, ¬ c.isDigit :=
      List.all_iff_forall_prop.mp (by decide)
    exact this c hc (by simpa using hdigit)

theorem Cut.parts {comments : Bool} {ps : List Piece} {rest : List Char}
    (h : Cut { comments } ps rest) (hp : ∀ p ∈ ps, p.isPlain)
    (hrest : rest.head?.all fun d => !d.isDigit && d != '.') : Parts (charsOf ps) rest := by
  induction ps with
  | nil =>
    cases rest with
    | nil => rfl
    | cons d ds => simp_all [Parts]
  | cons p ps ih =>
    obtain ⟨hkind, hps⟩ := List.forall_mem_cons.mp hp
    cases p with
    | gap cs => cases hkind
    | token kind text cs =>
      cases ps with
      | nil => simpa [chars] using Fits.parts (by simpa using h.1) hkind hrest
      | cons q ps =>
        have hne := Cut.charsOf_ne_nil h.2 (hps q List.mem_cons_self)
        have ih := ih h.2 hps
        simp only [Parts] at ih ⊢
        rwa [charsOf_cons, List.getLast?_append_of_ne_nil _ hne]

/-- Plain tokens in front of more text are also cut where the text stops, and without
    comments. -/
theorem Cut.bare {comments : Bool} {ps : List Piece} {rest : List Char}
    (h : Cut { comments } ps rest) (hp : ∀ p ∈ ps, p.isPlain)
    (hrest : rest.head?.all fun d => !d.isDigit && d != '.') :
    Cut { comments := false } ps [] := by
  induction ps with
  | nil => trivial
  | cons p ps ih =>
    have hparts := Cut.parts h hp hrest
    have hne := Cut.charsOf_ne_nil h (hp p List.mem_cons_self)
    obtain ⟨hp, hps⟩ := List.forall_mem_cons.mp hp
    cases p with
    | gap cs => cases hp
    | token kind text cs =>
      obtain ⟨⟨htrivia, hread⟩, hcut⟩ := h
      obtain ⟨rfl, hcs, hplain⟩ := Fits.plain ⟨htrivia, hread⟩ hp
      refine ⟨⟨?_, ?_⟩, ih hcut hps⟩
      · obtain ⟨c, cs, hc⟩ := List.exists_cons_of_ne_nil hcs
        have := (readTrivia?_eq_none_iff.mp htrivia).1
        exact readTrivia?_eq_none_iff.mpr ⟨by simp_all, by simp⟩
      · rw [List.append_nil]
        exact Lexeme.read?_of_append (by rwa [List.append_assoc]) hp hparts hne

/-- Is the last token written like the word that begins comments? -/
def endsInComment (ps : List Piece) : Bool := ps.getLast?.any fun p => spellsComment p.chars

/-- Plain tokens that are cut where the text stops are also cut in front of a text that
    runs into no token. -/
theorem Cut.extend {ps : List Piece} {rest : List Char}
    (h : Cut { comments := false } ps []) (hp : ∀ p ∈ ps, p.isPlain) (hb : Bounded rest)
    (hrem : endsInComment ps → rest.head?.any (!isBlank ·)) : Cut {} ps rest := by
  induction ps with
  | nil => trivial
  | cons p ps ih =>
    have hchars := Cut.isPlainChar_of_mem h hp
    have hne := Cut.charsOf_ne_nil h (hp p List.mem_cons_self)
    obtain ⟨hp, hps⟩ := List.forall_mem_cons.mp hp
    cases p with
    | gap cs => cases hp
    | token kind text cs =>
      obtain ⟨⟨htrivia, hread⟩, hcut⟩ := h
      obtain ⟨rfl, hcs, hplain⟩ := Fits.plain ⟨htrivia, hread⟩ hp
      have hread : Lexeme.read? {} (text.toList ++ charsOf ps) =
          some ⟨kind, text.toList, charsOf ps⟩ := by rwa [List.append_nil] at hread
      refine ⟨⟨?_, ?_⟩, ih hcut hps fun hend => hrem ?_⟩
      · rw [← List.append_assoc]
        refine readTrivia?_eq_none_iff.mpr
          ⟨?_, fun _ => readComment?_append_eq_none hne hchars hb fun hspell => hrem ?_⟩
        · obtain ⟨c, cs, hc⟩ := List.exists_cons_of_ne_nil hcs
          have := (readTrivia?_eq_none_iff.mp htrivia).1
          simp_all
        · have hend := Lexeme.rest_of_spellsComment hspell hread
          cases ps with
          | nil => simpa [endsInComment, chars] using hspell
          | cons q ps => exact absurd hend (Cut.charsOf_ne_nil hcut (hps q List.mem_cons_self))
      · rw [← List.append_assoc]
        refine Lexeme.read?_append_right hread hb hne ?_
        obtain ⟨c, cs, hc⟩ := List.exists_cons_of_ne_nil hcs
        rw [hc]
        exact Lexeme.string?_of_isPlainChar _ (hplain c (by simp [hc]))
      · cases ps with
        | nil => cases hend
        | cons q ps => simpa [endsInComment] using hend

end Piece

end MetricLang
