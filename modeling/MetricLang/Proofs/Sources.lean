-- SUMMARY: What is read prints as its tokens are written, but for layout.
import MetricLang.Proofs.Blanks
import MetricLang.Proofs.Compute
import MetricLang.Proofs.ExpressionReads
import MetricLang.Proofs.ReadLegible

/-!
# Printed texts and the tokens they come from

Printing what was read loses nothing and adds nothing but blanks, if numbers and
keywords are spelled as they print. `Shows s ts us` says that the text `s` is
printed for the tokens that were taken from `ts` to leave `us`. Every rule has one
theorem, which says it of what the rule reads.
-/

namespace MetricLang

/-- Is the token spelled as it prints, if it is a number that can be read or a keyword? -/
structure Token.Canonical (t : Token) : Prop where
  number : t.isNumber → ∀ d, Double.read? t.text.toList = some d → d.text = t.text
  keyword : ∀ k : Keyword, t.isKeyword k.spelling → t.text = k.spelling

theorem Token.canonical_iff {t : Token} : t.Canonical ↔
    (t.isNumber → (Double.read? t.text.toList).all (·.text = t.text)) ∧
      ∀ k ∈ Keyword.all, t.isKeyword k.spelling → t.text = k.spelling := by
  have hall : ∀ k : Keyword, k ∈ Keyword.all := by
    intro k
    cases k <;> decide
  constructor
  · rintro ⟨hnumber, hkeyword⟩
    refine ⟨fun ht => ?_, fun k _ => hkeyword k⟩
    rw [Option.all_eq_true_iff_get]
    exact fun h => decide_eq_true (hnumber ht _ (Option.some_get h).symm)
  · rintro ⟨hnumber, hkeyword⟩
    refine ⟨fun ht d hd => ?_, fun k => hkeyword k (hall k)⟩
    simpa [hd] using hnumber ht

instance (t : Token) : Decidable t.Canonical := decidable_of_iff' _ Token.canonical_iff

/-- Tokens as they are written, one after the other. -/
def sources (ts : List Token) : List Char := ts.flatMap (·.source.toList)

@[simp] theorem sources_nil : sources [] = [] := rfl

@[simp] theorem sources_cons (t : Token) (ts : List Token) :
    sources (t :: ts) = t.source.toList ++ sources ts := rfl

@[simp] theorem sources_append (ts us : List Token) :
    sources (ts ++ us) = sources ts ++ sources us := by
  simp [sources]

/-- Is the character punctuation of which no other token has any outside quotes? -/
def isMark (c : Char) : Bool := isSolid c && endsToken c

def marks (cs : List Char) : Nat := cs.countP isMark

@[simp] theorem marks_nil : marks [] = 0 := rfl

@[simp] theorem marks_append (cs ds : List Char) : marks (cs ++ ds) = marks cs + marks ds :=
  List.countP_append

theorem marks_eq_zero {cs : List Char} (h : ∀ c ∈ cs, isMark c = false) : marks cs = 0 :=
  List.countP_eq_zero.mpr fun c hc => by simp [h c hc]

theorem not_isMark_of_isAlpha {c : Char} (h : c.isAlpha) : isMark c = false := by
  have hends : endsToken c = false := by
    simp [endsToken, isIdentifierPart, isIdentifierStart, Char.isAlphanum, h]
  simp [isMark, hends]

theorem not_isMark_of_isNumberChar {c : Char} (h : isNumberChar c) : isMark c = false := by
  simp only [isNumberChar, Bool.or_eq_true, List.contains_iff_mem, List.mem_cons, List.not_mem_nil,
    or_false] at h
  obtain h | rfl | rfl | rfl := h
  · simp [isMark, endsToken, isIdentifierPart, isIdentifierStart, Char.isAlphanum, h]
  · decide
  · decide
  · decide

/-- Are the tokens written with the characters, but for how numbers and keywords are
    spelled? The marks are the same whatever the spelling. -/
structure Respells (cs : List Char) (ts : List Token) : Prop where
  marks : marks cs = marks (sources ts)
  canonical : (∀ t ∈ ts, t.Canonical) → cs = sources ts

namespace Respells

variable {cs ds : List Char} {ts us : List Token}

theorem sources (ts : List Token) : Respells (sources ts) ts := ⟨rfl, fun _ => rfl⟩

theorem append (h : Respells cs ts) (h' : Respells ds us) : Respells (cs ++ ds) (ts ++ us) := by
  refine ⟨by simp [h.marks, h'.marks], fun hcanonical => ?_⟩
  obtain ⟨hts, hus⟩ := List.forall_mem_append.mp hcanonical
  rw [sources_append, h.canonical hts, h'.canonical hus]

end Respells

/-- The tokens of `ts` before `us` are tokens before the end, and the text is what they
    print as, but for blanks. -/
def Shows (s : String) (ts us : List Token) : Prop :=
  ∃ pre, ts = pre ++ us ∧ (∀ t ∈ pre, t.isEnd = false) ∧
    (Lexed ts → ∃ cs, Unspaces s cs ∧ Respells cs pre)

-- ---------------------------------------------------------------------------
-- Tokens
-- ---------------------------------------------------------------------------

theorem Token.source_of_isIdentifier {t : Token} (h : t.isIdentifier) : t.source = t.text := by
  simp_all [isIdentifier, source]

theorem Token.source_of_isNumber {t : Token} (h : t.isNumber) : t.source = t.text := by
  simp only [isNumber, decide_eq_true_eq] at h
  obtain h | h := h <;> simp [source, h]

theorem Token.source_of_isPunct {t : Token} {c : Char} (h : t.isPunct c) :
    t.source = String.singleton c := by
  simp_all [isPunct, source]

theorem Token.source_of_isPlain {t : Token} (h : t.kind.isPlain) : t.source = t.text := by
  unfold source
  split
  · simp_all [TokenKind.isPlain]
  · rfl

theorem Keyword.isAlpha_of_ofText? {k : Keyword} {s : String} (h : ofText? s = some k) :
    ∀ c ∈ s.toList, c.isAlpha := by
  intro c hc
  cases hletter : c.isAlpha with
  | true => rfl
  | false => simp [ofText?_of_mem hc hletter] at h

theorem Quote.ofChar?_of_isPlainChar {c : Char} (h : isPlainChar c) : ofChar? c = none := by
  have hquote : ∀ q : Quote, c ≠ q.char := by
    rintro q rfl
    simp [not_isPlainChar_quote] at h
  simp [ofChar?, hquote]

theorem unspaces_of_isPlainChar {s : String} (h : ∀ c ∈ s.toList, isPlainChar c) :
    Unspaces s s.toList := by
  refine Unspaces.of_forall_mem fun c hc => ⟨?_, Quote.ofChar?_of_isPlainChar (h c hc)⟩
  rintro rfl
  exact absurd (h _ hc) (by decide)

theorem Lexed.isPlainChar_of_mem {t : Token} {us : List Token} (h : Lexed (t :: us))
    (ht : t.kind.isPlain) : ∀ c ∈ t.text.toList, isPlainChar c := by
  have hend : t.isEnd = false := by
    cases hk : t.kind <;> simp_all [Token.isEnd, TokenKind.isPlain]
  obtain ⟨q, kind, text, taken, rest, rfl, hfit, _⟩ := h.exists_text hend
  obtain ⟨rfl, _, hplain⟩ := hfit.plain ht
  exact hplain

theorem Lexed.readNumber? {t : Token} {us : List Token} (h : Lexed (t :: us)) (ht : t.isNumber) :
    ∃ rest, MetricLang.readNumber? (t.text.toList ++ rest) = some (t.text.toList, rest) := by
  obtain ⟨_, kind, text, taken, rest, rfl, hfit, _⟩ := h.exists_text (Token.isEnd_of_isNumber ht)
  have hkind : kind = .integer ∨ kind = .float := by simpa [Token.isNumber] using ht
  obtain ⟨rfl, _⟩ := hfit.plain (by obtain rfl | rfl := hkind <;> rfl)
  exact ⟨rest, Lexeme.readNumber?_of_kind hfit.2 hkind⟩

theorem Lexed.isNumberChar_of_mem {t : Token} {us : List Token} (h : Lexed (t :: us))
    (ht : t.isNumber) : ∀ c ∈ t.text.toList, isNumberChar c := by
  obtain ⟨_, hread⟩ := h.readNumber? ht
  exact isNumberChar_of_mem_readNumber? hread

theorem Double.isNumberChar_of_mem_text {d : Double} (h : d.isFinite) :
    ∀ c ∈ d.text.toList, isNumberChar c := by
  obtain ⟨_, hw, hnumber, _⟩ := exists_word h
  exact hw.isNumberChar_of_mem hnumber

/-- A token of a text is written without blanks outside quotes. -/
theorem Lexed.unspaces_source {t : Token} {us : List Token} (h : Lexed (t :: us))
    (ht : t.isEnd = false) : Unspaces t.source t.source.toList := by
  cases hkind : t.kind with
  | string q =>
    have hsource : t.source = q.wrap t.text := by simp [Token.source, hkind]
    exact hsource ▸ .wrap q t.text
  | endOfInput => simp [Token.isEnd, hkind] at ht
  | identifier | integer | float | punct =>
    have hplain : t.kind.isPlain := by rw [hkind]; rfl
    exact Token.source_of_isPlain hplain ▸ unspaces_of_isPlainChar (h.isPlainChar_of_mem hplain)

namespace Shows

variable {s s' : String} {t : Token} {ts vs us : List Token}

theorem nil (ts : List Token) : Shows "" ts ts :=
  ⟨[], rfl, by simp, fun _ => ⟨[], .nil, .sources []⟩⟩

/-- Two ways to write a text are told to be the same by computing them. -/
theorem of_eq (h : Shows s ts us) (heq : s = s') : Shows s' ts us := heq ▸ h

theorem append (h : Shows s ts vs) (h' : Shows s' vs us) : Shows (s ++ s') ts us := by
  obtain ⟨pre, rfl, hends, hs⟩ := h
  obtain ⟨pre', rfl, hends', hs'⟩ := h'
  refine ⟨pre ++ pre', (List.append_assoc ..).symm, List.forall_mem_append.mpr ⟨hends, hends'⟩, ?_⟩
  intro hlexed
  obtain ⟨cs, hcs, hpre⟩ := hs hlexed
  obtain ⟨cs', hcs', hpre'⟩ := hs' (hlexed.suffix (List.suffix_append _ _))
  exact ⟨cs ++ cs', hcs.append hcs', hpre.append hpre'⟩

theorem blank (h : Shows s ts us) : Shows (" " ++ s) ts us := by
  obtain ⟨pre, hts, hends, hs⟩ := h
  refine ⟨pre, hts, hends, fun hlexed => ?_⟩
  obtain ⟨cs, hcs, hpre⟩ := hs hlexed
  exact ⟨cs, Unspaces.blank.append hcs, hpre⟩

theorem blank_right (h : Shows s ts us) : Shows (s ++ " ") ts us := by
  obtain ⟨pre, hts, hends, hs⟩ := h
  refine ⟨pre, hts, hends, fun hlexed => ?_⟩
  obtain ⟨cs, hcs, hpre⟩ := hs hlexed
  exact ⟨cs, by simpa using hcs.append Unspaces.blank, hpre⟩

theorem token (ht : t.isEnd = false) : Shows t.source (t :: us) us := by
  refine ⟨[t], rfl, by simpa using ht, fun hlexed => ⟨_, hlexed.unspaces_source ht, ?_⟩⟩
  simpa using Respells.sources [t]

theorem identifier (ht : t.isIdentifier) : Shows t.text (t :: us) us :=
  Token.source_of_isIdentifier ht ▸ token (Token.isEnd_of_isIdentifier ht)

theorem punct {c : Char} (ht : t.isPunct c) : Shows (String.singleton c) (t :: us) us :=
  Token.source_of_isPunct ht ▸ token (Token.isEnd_of_isPunct ht)

/-- A text without marks prints for a token without marks if that is written like it when
    it is spelled as it prints. -/
theorem of_canonical (ht : t.isEnd = false) (hs : t.Canonical → t.source = s)
    (hplain : ∀ c ∈ s.toList, isPlainChar c) (hmarks : ∀ c ∈ s.toList, isMark c = false)
    (htoken : Lexed (t :: us) → ∀ c ∈ t.source.toList, isMark c = false) :
    Shows s (t :: us) us := by
  refine ⟨[t], rfl, by simpa using ht, fun hlexed => ⟨_, unspaces_of_isPlainChar hplain, ?_⟩⟩
  refine ⟨by simp [marks_eq_zero hmarks, marks_eq_zero (htoken hlexed)], fun hcanonical => ?_⟩
  simp [← hs (hcanonical t List.mem_cons_self)]

theorem keyword {k : Keyword} (ht : t.isKeyword k.spelling) : Shows k.spelling (t :: us) us := by
  have hsource := Token.source_of_isIdentifier (Token.isIdentifier_of_isKeyword ht)
  have hspelling : ∀ c ∈ k.spelling.toList, c.isAlpha :=
    Keyword.isAlpha_of_ofText? (Keyword.ofText?_spelling k)
  have htext : ∀ c ∈ t.text.toList, c.isAlpha :=
    Keyword.isAlpha_of_ofText? (Keyword.ofText?_of_isKeyword ht)
  exact of_canonical (Token.isEnd_of_isKeyword ht)
    (fun hcanonical => hsource.trans (hcanonical.keyword k ht))
    (fun c hc => isPlainChar_of_isIdentifierPart
      (isIdentifierPart_of_start (isIdentifierStart_of_isAlpha (hspelling c hc))))
    (fun c hc => not_isMark_of_isAlpha (hspelling c hc))
    (fun _ c hc => not_isMark_of_isAlpha (htext c (hsource ▸ hc)))

theorem number {d : Double} (ht : t.isNumber) (hd : Double.read? t.text.toList = some d) :
    Shows d.text (t :: us) us := by
  have hsource := Token.source_of_isNumber ht
  have hchars := Double.isNumberChar_of_mem_text (Double.isFinite_of_read? hd)
  exact of_canonical (Token.isEnd_of_isNumber ht)
    (fun hcanonical => hsource.trans (hcanonical.number ht d hd).symm)
    (fun c hc => isPlainChar_of_isNumberChar (hchars c hc))
    (fun c hc => not_isMark_of_isNumberChar (hchars c hc))
    (fun hlexed c hc => not_isMark_of_isNumberChar (hlexed.isNumberChar_of_mem ht c (hsource ▸ hc)))

theorem tokens (pre : List Token) (h : ∀ t ∈ pre, t.isEnd = false) :
    Shows (String.join (pre.map (·.source))) (pre ++ us) us := by
  induction pre with
  | nil => exact nil us
  | cons t pre ih =>
    obtain ⟨ht, hpre⟩ := List.forall_mem_cons.mp h
    rw [List.map_cons, String.join_cons]
    exact (token ht).append (ih hpre)

end Shows

-- ---------------------------------------------------------------------------
-- Words and values
-- ---------------------------------------------------------------------------

namespace Word

variable {ts us : List Token} {w : Word}

theorem isEnd_of_isPlain {t : Token} (h : t.kind.isPlain) : t.isEnd = false := by
  cases hk : t.kind <;> simp_all [Token.isEnd, TokenKind.isPlain]

theorem Reads.isPlain (h : rule.Reads ts w us) : ∀ t ∈ w.tokens, t.kind.isPlain := by
  obtain ⟨_, hstart, hruns, _⟩ := reads_rule.mp h
  exact List.forall_mem_cons.mpr ⟨isPlain_of_canStart hstart,
    fun t ht => isPlain_of_canContinue (canContinue_of_runs hruns t ht)⟩

theorem Reads.shows (h : rule.Reads ts w us) : Shows w.text ts us := by
  have hplain := Reads.isPlain h
  obtain ⟨rfl, _⟩ := reads_rule.mp h
  have htext : w.tokens.map (·.text) = w.tokens.map (·.source) :=
    List.map_congr_left fun t ht => (Token.source_of_isPlain (hplain t ht)).symm
  rw [Word.text, htext]
  exact .tokens _ fun t ht => isEnd_of_isPlain (hplain t ht)

/-- What follows an identifier does not go on with it. -/
theorem head_of_identifier {text : String} {cs after : List Char}
    (h : (Piece.token .identifier text cs).Fits {} after) :
    after.head?.all (!isIdentifierPart ·) := by
  rcases Lexeme.kind_cases h.2 with ⟨_, hkind, _⟩ | ⟨hkind, _⟩ | ⟨_, hread⟩ | ⟨hkind, _⟩
  · cases hkind
  · rcases hkind with hkind | hkind <;> cases hkind
  · exact head_of_readIdentifier? hread
  · cases hkind

/-- A word of letters is one identifier. -/
theorem single_of_row {q : Position} {ps : List Piece} {after : List Char}
    (hcut : Piece.Cut {} ps after) (hplain : ∀ p ∈ ps, p.isPlain) (htokens : w.tokens = Piece.place q ps)
    (hletters : ∀ c ∈ w.text.toList, c.isAlpha) : w.first.isIdentifier ∧ w.more = [] := by
  rw [toList_text, htokens, Piece.flatten_place hcut hplain] at hletters
  cases ps with
  | nil => simp [tokens] at htokens
  | cons piece ps =>
    obtain ⟨hfirst, hps⟩ := List.forall_mem_cons.mp hplain
    cases piece with
    | gap cs => cases hfirst
    | token kind text cs =>
      obtain ⟨hfit, hcut⟩ := hcut
      obtain ⟨hcs, hne, _⟩ := hfit.plain hfirst
      obtain ⟨c, cs, rfl⟩ := List.exists_cons_of_ne_nil hne
      simp only [Piece.charsOf_cons, Piece.chars, List.forall_mem_append] at hletters
      obtain ⟨hread, hkind⟩ := Lexeme.identifier?_eq_some
        (Lexeme.identifier?_of_isAlpha (hletters.1 c List.mem_cons_self) hfit.2)
      obtain rfl : kind = .identifier := hkind
      have hstop := head_of_identifier hfit
      have hnil : ps = [] := by
        cases ps with
        | nil => rfl
        | cons piece ps =>
          obtain ⟨d, ds, hds⟩ := List.exists_cons_of_ne_nil
            (hcut.charsOf_ne_nil (hps piece List.mem_cons_self))
          have hd := isIdentifierPart_of_start
            (isIdentifierStart_of_isAlpha (hletters.2 d (hds ▸ List.mem_cons_self)))
          simp [hds, hd] at hstop
      subst hnil
      simp only [tokens, Piece.place_token, Piece.place_nil, List.cons.injEq] at htokens
      exact ⟨by simp [htokens.1, Token.isIdentifier], htokens.2⟩

theorem Reads.single_of_isAlpha (h : Lexed ts) (hw : rule.Reads ts w us)
    (hletters : ∀ c ∈ w.text.toList, c.isAlpha) : w.first.isIdentifier ∧ w.more = [] := by
  obtain ⟨q, ps, after, hcut, hplain, htokens, _⟩ := Reads.exists_row h hw
  exact single_of_row hcut hplain htokens hletters

end Word

/-- A word that spells a keyword prints as the keyword. -/
theorem Word.Reads.shows_keyword {ts us : List Token} {w : Word} {k : Keyword}
    (h : rule.Reads ts w us) (hk : Keyword.ofText? w.text = some k) : Shows k.spelling ts us := by
  have hplain := Reads.isPlain h
  have hts := (reads_rule.mp h).1
  refine ⟨w.tokens, hts, fun t ht => isEnd_of_isPlain (hplain t ht), fun hlexed => ?_⟩
  obtain ⟨hid, hmore⟩ := Reads.single_of_isAlpha hlexed h (Keyword.isAlpha_of_ofText? hk)
  have htext : w.text = w.first.text := by simp [Word.text, tokens, hmore]
  have hword : w.first.isKeyword k.spelling := by
    rw [Token.isKeyword, hid, ← htext, sameLetters_comm, Bool.true_and]
    simpa using List.find?_some hk
  have hfirst : Shows k.spelling (w.first :: us) us := .keyword hword
  obtain ⟨pre, hpre, _, hs⟩ := hfirst
  obtain rfl : [w.first] = pre := List.append_cancel_right hpre
  rw [tokens, hmore] at hts ⊢
  subst hts
  exact hs hlexed

namespace Value

variable {ts us : List Token} {v : Value}

theorem ArgumentReads.shows (h : ArgumentReads ts v us) : Shows v.text ts us := by
  cases h with
  | @string q t us hkind =>
    have hsource : t.source = (Value.string t.text q).text := by simp [Token.source, hkind, text]
    exact hsource ▸ .token (by simp [Token.isEnd, hkind])
  | @word ts us w hw =>
    have hshows := Word.Reads.shows hw
    unfold ofWord
    split
    · next b hb =>
      obtain ⟨k, hk, hb⟩ := Option.bind_eq_some_iff.mp hb
      have htext : (Value.boolean b).text = k.spelling := by
        cases k <;> cases hb <;> rfl
      exact htext ▸ Word.Reads.shows_keyword hw hk
    · split
      · next d hd =>
        split at hd
        · next hnumber =>
          simp only [Word.isNumber, Bool.and_eq_true, decide_eq_true_eq] at hnumber
          obtain ⟨hn, hmore⟩ := hnumber
          obtain ⟨rfl, _⟩ := Word.reads_rule.mp hw
          simp only [Word.text, Word.tokens, hmore] at hd ⊢
          exact .number hn (by simpa using hd)
        · cases hd
      · split
        · exact hshows
        · exact hshows

end Value

namespace Connective

variable {ts us : List Token} {c : Connective}

theorem WordReads.shows (h : WordReads ts c us) : Shows c.spelling ts us := by
  cases h with
  | and hfirst _ => exact .keyword (k := .and) hfirst
  | andNot hfirst hsecond =>
    exact ((Shows.keyword hfirst).append (Shows.keyword hsecond).blank).of_eq (by decide)
  | or hfirst => exact .keyword (k := .or) hfirst
  | isIn hfirst => exact .keyword (k := .isIn) hfirst

theorem WordReads.shows_text (h : WordReads ts c us) : Shows c.text ts us := by
  have hne : c ≠ .comma := h.ne_comma
  have htext : c.text = " " ++ c.spelling ++ " " := by cases c <;> first | rfl | contradiction
  rw [htext]
  exact h.shows.blank.blank_right

theorem Reads.shows (h : Reads ts c us) : Shows c.text ts us := by
  cases h with
  | comma hcomma => exact .punct (c := ',') hcomma
  | word hc => exact hc.shows_text

end Connective

theorem Value.Reads.shows {ts us : List Token} {v : Value} (h : Reads ts v us) :
    Shows v.text ts us := by
  cases h with
  | connective hc => exact hc.shows
  | argument _ hv => exact hv.shows

/-- Items print with something between them that is a comma but for blanks. -/
theorem Rule.ItemsRead.shows {item : Rule α} {close : Char} (comma : String) (text : α → String)
    (hcomma : ∀ {t : Token} {us : List Token}, t.isPunct ',' → Shows comma (t :: us) us)
    (hitem : ∀ {ts x us}, item.Reads ts x us → Shows (text x) ts us) {ts us : List Token}
    {xs : List α} (h : ItemsRead close item ts xs us) :
    Shows (String.join (xs.map (comma ++ text ·)) ++ String.singleton close) ts us := by
  induction h with
  | nil hclosed => exact .punct hclosed
  | cons _ ht hfirst _ ih =>
    rw [List.map_cons, String.join_cons, String.append_assoc]
    exact ((hcomma ht).append (hitem hfirst)).append ih

theorem Value.textTail_eq (vs : List Value) : textTail vs = String.join (vs.map (", " ++ ·.text)) := by
  induction vs with
  | nil => rfl
  | cons v vs ih => simp [textTail, ih]

theorem Value.textList_cons (v : Value) (vs : List Value) :
    textList (v :: vs) = v.text ++ String.join (vs.map ("," ++ ·.text)) := by
  induction vs generalizing v with
  | nil => simp [textList]
  | cons w vs ih => simp [textList, ih, String.append_assoc]

theorem Value.shows_textTail {ts us : List Token} {vs : List Value}
    (h : Rule.ItemsRead ')' Value.argument ts vs us) : Shows (textTail vs ++ ")") ts us := by
  have hcomma : ", " = String.singleton ',' ++ " " := by decide
  have hclose : ")" = String.singleton ')' := by decide
  rw [textTail_eq, hcomma, hclose]
  exact Rule.ItemsRead.shows (String.singleton ',' ++ " ") Value.text
    (fun ht => (Shows.punct ht).blank_right) (fun hv => (Value.reads_argument.mp hv).shows) h

-- ---------------------------------------------------------------------------
-- Filters
-- ---------------------------------------------------------------------------

theorem Relation.shows_touched {prev t : Token} {c : Char} {us : List Token}
    (h : touched prev c (t :: us)) : Shows (String.singleton c) (t :: us) us := by
  obtain ⟨u, vs, heq, hu, _⟩ := exists_of_touched h
  cases heq
  exact .punct hu

theorem Relation.Reads.shows {ts us : List Token} {r : Relation} (h : Reads ts r us) :
    Shows r.text ts us := by
  cases h with
  | equal hcolon _ => exact .punct (c := ':') hcolon
  | greater hcolon hsign _ =>
    exact ((Shows.punct hcolon).append (shows_touched hsign)).of_eq (by decide)
  | less hcolon hsign _ =>
    exact ((Shows.punct hcolon).append (shows_touched hsign)).of_eq (by decide)
  | greaterEqual hcolon hsign hequals =>
    obtain ⟨u, vs, heq, hu, _⟩ := exists_of_touched hsign
    cases heq
    exact (((Shows.punct hcolon).append (.punct hu)).append (shows_touched hequals)).of_eq
      (by decide)
  | lessEqual hcolon hsign hequals =>
    obtain ⟨u, vs, heq, hu, _⟩ := exists_of_touched hsign
    cases heq
    exact (((Shows.punct hcolon).append (.punct hu)).append (shows_touched hequals)).of_eq
      (by decide)
  | regex hcolon hsign =>
    exact ((Shows.punct hcolon).append (shows_touched hsign)).of_eq (by decide)
  | isIn hword => exact (Shows.keyword hword).blank.blank_right.of_eq (by decide)
  | notIn hfirst hsecond =>
    exact ((Shows.keyword hfirst).append (Shows.keyword hsecond).blank).blank.blank_right.of_eq
      (by decide)
  | andNot hfirst hsecond =>
    exact ((Shows.keyword hfirst).append (Shows.keyword hsecond).blank).blank.blank_right.of_eq
      (by decide)

namespace ValueList

variable {ts us : List Token} {items : List Value} {connectives : List Connective}

theorem TailReads.shows (h : TailReads ts items connectives us) :
    ∃ v vs, items = v :: vs ∧ Shows (v.text ++ textTail vs connectives ++ ")") ts us := by
  induction h with
  | last hitem hclosed =>
    exact ⟨_, [], rfl, by simpa [textTail] using hitem.shows.append (Shows.punct hclosed)⟩
  | @cons ts _ _ us v c items connectives hitem hc htail ih =>
    obtain ⟨w, vs, rfl, hshows⟩ := ih
    refine ⟨v, w :: vs, rfl, ?_⟩
    simpa [textTail, String.append_assoc] using (hitem.shows.append hc.shows).append hshows

theorem Reads.shows {l : ValueList} (h : Reads ts l us) : Shows l.text ts us := by
  cases h with
  | empty hopened hclosed => exact (Shows.punct hopened).append (Shows.punct hclosed)
  | items hopened htail =>
    obtain ⟨v, vs, rfl, hshows⟩ := htail.shows
    simpa [text, String.append_assoc] using (Shows.punct hopened).append hshows

end ValueList

theorem FilterValue.Reads.shows {ts us : List Token} {v : FilterValue} (h : Reads ts v us) :
    Shows v.text ts us := by
  cases h with
  | single hv => exact hv.shows
  | list hl => exact hl.shows

namespace Condition

variable {ts us : List Token} {c : Condition} {negative : Bool}

theorem PositiveReads.shows (h : PositiveReads negative ts c us) : c.negative = negative ∧
    Shows (c.key ++ c.relation.text ++ c.value.text) ts us := by
  obtain ⟨_, hkey, hrelation, hvalue⟩ := h
  exact ⟨rfl, ((Word.Reads.shows hkey).append hrelation.shows).append hvalue.shows⟩

theorem Reads.shows (h : Reads ts c us) : Shows c.text ts us := by
  cases h with
  | positive hc =>
    obtain ⟨hnegative, hshows⟩ := hc.shows
    simpa [text, hnegative] using hshows
  | negative hsign hc =>
    obtain ⟨hnegative, hshows⟩ := hc.shows
    simpa [text, hnegative, String.append_assoc] using (Shows.punct hsign).append hshows

end Condition

theorem Param.SequenceReads.shows {ts us : List Token} {ps : List Param}
    (h : SequenceReads ts ps us) : Shows (textList ps) ts us := by
  induction h with
  | nil _ => exact .nil _
  | group hopened _ hclosed _ ih ih' =>
    exact (((Shows.punct hopened).append ih).append (Shows.punct hclosed)).append ih'
  | connective hc _ ih => exact hc.shows.append ih
  | star hstar _ ih => exact (Shows.punct hstar).append ih
  | condition hc _ ih => exact hc.shows.append ih

-- ---------------------------------------------------------------------------
-- Queries
-- ---------------------------------------------------------------------------

namespace Grouping

theorem EntryReads.shows {ts us : List Token} {e : String} (h : EntryReads ts e us) :
    Shows e ts us := by
  cases h with
  | star hstar _ => exact .punct (c := '*') hstar
  | name hw _ => exact Word.Reads.shows hw

theorem textEntries_cons (e : String) (es : List String) :
    textEntries (e :: es) = e ++ String.join (es.map ("," ++ ·)) := by
  induction es generalizing e with
  | nil => simp [textEntries]
  | cons f es ih => simp [textEntries, ih, String.append_assoc]

theorem Reads.shows {ts us : List Token} {g : Grouping} (h : Reads ts g us) :
    Shows g.text ts us := by
  obtain ⟨hword, hopened, hfirst, hmore⟩ := h
  have hitems := Rule.ItemsRead.shows "," (fun e => e) Shows.punct
    (fun he => (reads_entryRule.mp he).shows) hmore
  have := ((Shows.keyword hword).append (Shows.punct hopened).blank).append
    (hfirst.shows.append hitems)
  simpa [text, textEntries_cons, String.append_assoc] using this

end Grouping

namespace FunctionCall

variable {ts us : List Token}

theorem ArgumentsRead.shows {args : List Value} (h : ArgumentsRead ts args us) :
    Shows ("(" ++ Value.textList args ++ ")") ts us := by
  cases h with
  | none hopened hclosed =>
    exact ((Shows.punct hopened).append (Shows.punct hclosed)).of_eq (by decide)
  | some hopened hfirst hmore =>
    have hitems := Rule.ItemsRead.shows "," Value.text Shows.punct
      (fun hv => (Value.reads_argument.mp hv).shows) hmore
    have := ((Shows.punct hopened).append hfirst.shows).append hitems
    simpa [Value.textList_cons, String.append_assoc] using this

theorem Reads.shows {f : FunctionCall} (h : Reads ts f us) : Shows f.text ts us := by
  obtain ⟨hname, hargs⟩ := h
  simpa [text, String.append_assoc] using (Shows.identifier hname).append hargs.shows

end FunctionCall

namespace Aggregator

variable {ts us : List Token}

theorem ConditionReads.shows {depth : Nat} {cs : List Token} (h : ConditionReads depth ts cs us) :
    Shows (conditionText cs ++ ")") ts us := by
  induction h with
  | close hclosed => exact .punct hclosed
  | @cons depth t ts us cs hinside _ _ ih =>
    have ht : t.isEnd = false := by
      simp only [endsCondition, Bool.or_eq_false_iff] at hinside
      exact hinside.1.1
    have htoken : Shows t.source (t :: ts) ts := .token ht
    have happend := htoken.append ih
    cases cs with
    | nil => simpa [conditionText] using happend
    | cons u cs =>
      by_cases htouches : t.touches u
      · simpa [conditionText, htouches, String.append_assoc] using happend
      · have happend := htoken.append ih.blank
        simpa [conditionText, htouches, String.append_assoc] using happend

theorem Reads.shows {a : Aggregator} (h : Reads ts a us) : Shows (a.text ++ ":") ts us := by
  cases h with
  | plain hname hcolon => exact (Shows.identifier hname).append (.punct (c := ':') hcolon)
  | condition hname hopened _ hinside hcolon =>
    have := ((Shows.identifier hname).append (Shows.punct hopened)).append
      (hinside.shows.append (Shows.punct hcolon))
    simpa [text, String.append_assoc] using this

end Aggregator

namespace Selection

variable {ts us : List Token}

theorem GroupingReads.shows {g : Option Grouping} (h : GroupingReads ts g us) :
    Shows (textGrouping g) ts us := by
  cases h with
  | none _ => exact .nil ts
  | some hg =>
    have hfilled : ∀ {g : Grouping}, Grouping.Reads ts g us → g.isEmpty = false := by
      rintro _ ⟨⟩
      rfl
    simpa [textGrouping, hfilled hg] using hg.shows.blank

theorem FunctionsRead.shows {fs : List FunctionCall} (h : FunctionsRead ts fs us) :
    Shows (textFunctions fs) ts us := by
  induction h with
  | nil _ => exact .nil _
  | cons hpoint hf _ ih => exact ((Shows.punct hpoint).append hf.shows).append ih

theorem Reads.shows {s : Selection} (h : Reads ts s us) : Shows s.text ts us := by
  obtain ⟨ha, hw, _, ht, hf, hu, hg, hfs⟩ := h
  exact ((((((ha.shows.append (Word.Reads.shows hw)).append (.punct ht)).append hf.shows).append
    (.punct hu)).append hg.shows).append hfs.shows)

end Selection

theorem Query.Reads.shows {ts us : List Token} {q : Query} (h : Reads ts q us) :
    Shows q.text ts us := by
  induction h with
  | selection hs => exact hs.shows
  | call hname hopened _ hargs ih =>
    have := (((Shows.identifier hname).append (Shows.punct hopened)).append ih).append
      (Value.shows_textTail hargs)
    simpa [text, String.append_assoc] using this

-- ---------------------------------------------------------------------------
-- Expressions
-- ---------------------------------------------------------------------------

theorem Operator.shows_textBetween {binds : Bool} {op : Operator} {t : Token} {us : List Token}
    (h : IsAt binds op t) : Shows op.textBetween (t :: us) us :=
  (Shows.punct h.2).blank.blank_right

/-- Digits begin with no sign. -/
theorem unsigned_splitDigits (cs : List Char) : Double.Unsigned (splitDigits cs).1 := by
  have hdigit : ∀ {c : Char}, c.isDigit → c ≠ '+' ∧ c ≠ '-' := by
    rintro c hc
    constructor <;> rintro rfl <;> cases hc
  have hwhole : Double.Unsigned (cs.takeWhile Char.isDigit) := by
    cases hcs : cs.takeWhile Char.isDigit with
    | nil => rfl
    | cons c _ =>
      have hc := hdigit (List.mem_takeWhile_imp (hcs ▸ List.mem_cons_self))
      simp [Double.Unsigned, hc]
  unfold splitDigits
  split
  · split
    · exact hwhole
    · cases hcs : cs.takeWhile Char.isDigit with
      | nil => rfl
      | cons c _ =>
        rw [hcs] at hwhole
        exact hwhole
  · exact hwhole

/-- What follows the sign of a number token begins with no other sign. -/
theorem Lexed.unsigned_of_isNumber {t : Token} {us : List Token} {sign : Char} {cs : List Char}
    (h : Lexed (t :: us)) (ht : t.isNumber) (hsign : sign = '+' ∨ sign = '-')
    (htext : t.text.toList = sign :: cs) : Double.Unsigned cs := by
  obtain ⟨rest, hread⟩ := h.readNumber? ht
  have hsplit : splitSign (sign :: cs ++ rest) = ([sign], cs ++ rest) := by
    obtain rfl | rfl := hsign <;> rfl
  simp only [htext, MetricLang.readNumber?, hsplit] at hread
  split at hread
  · cases hread
  · simp only [Option.some.injEq, Prod.mk.injEq, List.cons_append, List.nil_append,
      List.cons.injEq, true_and] at hread
    rw [← hread.1]
    exact unsigned_splitDigits _

theorem Operator.ofSigned?_eq_some {t : Token} {op : Operator} {n : Double}
    (h : ofSigned? t = some (op, n)) : ∃ sign digits, (sign = '+' ∨ sign = '-') ∧
      op.symbol = sign ∧ t.text.toList = sign :: digits ∧ Double.read? digits = some n := by
  unfold ofSigned? at h
  split at h
  · split at h
    · next digits htext =>
      obtain ⟨d, hd, heq⟩ := Option.map_eq_some_iff.mp h
      cases heq
      exact ⟨'+', digits, .inl rfl, rfl, htext, hd⟩
    · next digits htext =>
      obtain ⟨d, hd, heq⟩ := Option.map_eq_some_iff.mp h
      cases heq
      exact ⟨'-', digits, .inr rfl, rfl, htext, hd⟩
    · cases h
  · cases h

/-- A signed number prints as the operator and the number that it stands for. -/
theorem Operator.shows_signed {t : Token} {us : List Token} {op : Operator} {n : Double}
    (h : ofSigned? t = some (op, n)) : Shows (op.textBetween ++ n.text) (t :: us) us := by
  have ht := isNumber_of_ofSigned? h
  obtain ⟨sign, digits, hsign, hopsymbol, htext, hread⟩ := ofSigned?_eq_some h
  have hfinite := Double.isFinite_of_read? hread
  have hsource := Token.source_of_isNumber ht
  have hop : ∀ c ∈ op.text.toList, isPlainChar c ∧ isMark c = false := by
    rw [Operator.text, String.toList_singleton, hopsymbol, List.forall_mem_singleton]
    obtain rfl | rfl := hsign <;> decide
  have hn := Double.isNumberChar_of_mem_text hfinite
  refine ⟨[t], rfl, by simpa using Token.isEnd_of_isNumber ht, fun hlexed =>
    ⟨op.text.toList ++ n.text.toList, ?_, ?_, fun hcanonical => ?_⟩⟩
  · have hunspaces := unspaces_of_isPlainChar fun c hc => (hop c hc).1
    have hdigits := unspaces_of_isPlainChar fun c hc => isPlainChar_of_isNumberChar (hn c hc)
    simpa [textBetween] using ((Unspaces.blank.append hunspaces).append Unspaces.blank).append hdigits
  · have htoken := hlexed.isNumberChar_of_mem ht
    rw [marks_append, marks_eq_zero fun c hc => (hop c hc).2,
      marks_eq_zero fun c hc => not_isMark_of_isNumberChar (hn c hc), sources_cons, hsource,
      sources_nil, List.append_nil, marks_eq_zero fun c hc => not_isMark_of_isNumberChar (htoken c hc)]
  · have hunsigned := hlexed.unsigned_of_isNumber ht hsign htext
    have hsigned : Double.read? t.text.toList = some (n.withSign (sign = '-')) := by
      rw [htext, Double.read?_sign hsign hunsigned, hread]
      rfl
    have hsame := (hcanonical t List.mem_cons_self).number ht _ hsigned
    have hdigits := Double.text_of_withSign hfinite (Double.negative_of_read? hunsigned hread)
      hsign (hsame ▸ htext)
    simp [hsource, htext, hdigits, Operator.text, hopsymbol]

/-- A phrase prints as its tokens are written. The end of a part is what its text has
    more than the text of what had begun. -/
def Phrase.IsShown : Phrase → List Token → List Token → Prop
  | .operand v, ts, us => Shows v.text ts us
  | .term t, ts, us => Shows t.text ts us
  | .factors s t, ts, us => ∃ more, t.text = s.text ++ more ∧ Shows more ts us
  | .expression e, ts, us => Shows e.text ts us
  | .terms d e, ts, us => ∃ more, e.text = d.text ++ more ∧ Shows more ts us

theorem Phrase.Reads.shows {p : Phrase} {ts us : List Token} (h : p.Reads ts us) :
    p.IsShown ts us := by
  induction h with
  | number ht hd => exact .number ht hd
  | group hopened _ hclosed ih =>
    exact ((Shows.punct hopened).append ih).append (.punct (c := ')') hclosed)
  | query hq => exact hq.shows
  | call _ hname hopened _ hargs ih =>
    have := (((Shows.identifier hname).append (Shows.punct hopened)).append ih).append
      (Value.shows_textTail hargs)
    simpa [IsShown, Operand.text, Operand.textWith, Expression.text, String.append_assoc] using this
  | @term ts vs us v t _ _ ih ih' =>
    obtain ⟨more, htext, hmore⟩ := ih'
    change Shows t.text ts us
    exact htext ▸ Shows.append ih hmore
  | factorsEnd _ => exact ⟨"", by simp, .nil _⟩
  | @factor o ts vs us op v s t hop _ _ ih ih' =>
    obtain ⟨more, htext, hmore⟩ := ih'
    refine ⟨op.textBetween ++ v.text ++ more, ?_,
      ((Operator.shows_textBetween hop).append ih).append hmore⟩
    rw [htext]
    simp [Term.text, Term.textWith, Operand.text, String.append_assoc]
  | @expression ts vs us t e _ _ ih ih' =>
    obtain ⟨more, htext, hmore⟩ := ih'
    change Shows e.text ts us
    exact htext ▸ Shows.append ih hmore
  | termsEnd _ _ => exact ⟨"", by simp, .nil _⟩
  | @sum o ts vs us op t d e hop _ _ ih ih' =>
    obtain ⟨more, htext, hmore⟩ := ih'
    refine ⟨op.textBetween ++ t.text ++ more, ?_,
      ((Operator.shows_textBetween hop).append ih).append hmore⟩
    rw [htext]
    simp [Expression.text, Expression.textWith, Term.text, String.append_assoc]
  | @signed o ts vs us op n t d e hsigned _ _ ih ih' =>
    obtain ⟨factors, hfactors, ih⟩ := ih
    obtain ⟨more, htext, hmore⟩ := ih'
    refine ⟨op.textBetween ++ n.text ++ factors ++ more, ?_,
      ((Operator.shows_signed hsigned).append ih).append hmore⟩
    have hterm : t.text = n.text ++ factors := hfactors
    rw [htext]
    simp only [Expression.text, Expression.textWith, String.append_assoc]
    rw [show t.textWith Query.text = n.text ++ factors from hterm, String.append_assoc]

-- ---------------------------------------------------------------------------
-- Monitors
-- ---------------------------------------------------------------------------

theorem Comparator.Reads.shows {ts us : List Token} {c : Comparator} (h : Reads ts c us) :
    Shows c.text ts us := by
  cases h with
  | greater hsign _ => exact .punct (c := '>') hsign
  | greaterEqual hsign hequals =>
    exact ((Shows.punct hsign).append (Relation.shows_touched hequals)).of_eq (by decide)
  | less hsign _ => exact .punct (c := '<') hsign
  | lessEqual hsign hequals =>
    exact ((Shows.punct hsign).append (Relation.shows_touched hequals)).of_eq (by decide)

theorem Monitor.Reads.shows {ts us : List Token} {m : Monitor} (h : Reads ts m us) :
    Shows m.text ts us := by
  obtain ⟨ht, hu, hwindow, hv, hw, hq, hc, hn, hd⟩ := h
  have hhead := (((Shows.identifier ht).append (Shows.punct hu)).append
    (Word.Reads.shows hwindow)).append ((Shows.punct hv).append (Shows.punct hw))
  have htail := (hc.shows.blank.blank_right).append (Shows.number hn hd)
  simpa [text, String.append_assoc] using (hhead.append hq.shows).append htail

-- ---------------------------------------------------------------------------
-- Whole texts
-- ---------------------------------------------------------------------------

/-- The tokens of a text are those of a line, and only the last one is the end. -/
theorem lexed_of_tokensOf {text : String} {ts : List Token} (h : tokensOf {} text = .ok ts) :
    Lexed ts ∧ ∃ init p, ts = init ++ [.endAt p] ∧ ∀ t ∈ init, t.isEnd = false := by
  unfold tokensOf at h
  rw [tokenize_eq_tokensAt] at h
  cases hts : tokensAt {} .start (withoutLineBreaks text).toList with
  | error e =>
    rw [hts] at h
    cases h
  | ok us =>
    rw [hts] at h
    cases h
    refine ⟨⟨_, _, _, ?_, hts, List.suffix_refl _⟩, ?_⟩
    · intro c hc
      rw [withoutLineBreaks, String.toList_ofList, List.mem_filter] at hc
      simpa using hc.2
    · obtain ⟨ps, _, hcut, rfl⟩ := exists_cut_of_tokensAt hts
      exact ⟨_, _, rfl, Piece.isEnd_of_mem_place hcut⟩

/-- A rule of which all that it reads is shown loses nothing of a text. -/
theorem withoutBlanks_of_readText {error : SyntaxError → ParseError} {rule : Rule α}
    (textOf : α → String)
    (hshows : ∀ {ts x us}, rule.Reads ts x us → Shows (textOf x) ts us) {text : String}
    {ts : List Token} {x : α} (hts : tokensOf {} text = .ok ts)
    (hcanonical : ∀ t ∈ ts, t.Canonical) (h : readText {} error rule text = .ok x) :
    withoutBlanks (textOf x) = String.join (ts.map (·.source)) := by
  obtain ⟨hlexed, init, p, rfl, hinit⟩ := lexed_of_tokensOf hts
  obtain ⟨us, hread, hend⟩ := Rule.complete_eq_ok.mp ((readText_eq_ok hts).mp h)
  obtain ⟨pre, heq, hpre, hs⟩ := hshows hread
  obtain ⟨rfl, rfl⟩ := eq_of_append_end heq hinit hpre rfl hend
  obtain ⟨cs, hunspaces, hrespells⟩ := hs hlexed
  have hsources := hrespells.canonical fun t ht => hcanonical t (List.mem_append_left _ ht)
  rw [hunspaces.withoutBlanks_eq, hsources, ← String.toList_inj]
  simp [sources, String.toList_join, Token.endAt, Token.source, List.flatMap_map]

/-- Printing what was read loses, doubles and moves nothing but layout: for a text that is
    spelled as it prints, the printed text without the blanks outside quoted strings is
    the text of the tokens, one after the other. -/
theorem withoutBlanks_text {text : String} {ts : List Token} (hts : tokensOf {} text = .ok ts)
    (hcanonical : ∀ t ∈ ts, t.Canonical) :
    (∀ q, readQuery text = .ok q → withoutBlanks q.text = String.join (ts.map (·.source))) ∧
    (∀ f, readFilter text = .ok f → withoutBlanks f.text = String.join (ts.map (·.source))) ∧
    (∀ e, readExpression text = .ok e → withoutBlanks e.text = String.join (ts.map (·.source))) ∧
    ∀ m, readMonitor text = .ok m → withoutBlanks m.text = String.join (ts.map (·.source)) :=
  ⟨fun _ => withoutBlanks_of_readText Query.text
      (fun h => (Query.reads_rule.mp h).shows) hts hcanonical,
    fun _ => withoutBlanks_of_readText Filter.text
      (fun h => (Filter.reads_rule.mp h).shows) hts hcanonical,
    fun _ => withoutBlanks_of_readText Expression.text
      (fun h => Phrase.Reads.shows (Expression.reads_rule.mp h)) hts hcanonical,
    fun _ => withoutBlanks_of_readText Monitor.text
      (fun h => (Monitor.reads_rule.mp h).shows) hts hcanonical⟩

/-- For instance a group, of which the blanks are not kept. -/
theorem withoutBlanks_text_group : let text := "( *  OR * )"
    ∃ ts f, tokensOf {} text = .ok ts ∧ (∀ t ∈ ts, t.Canonical) ∧ readFilter text = .ok f ∧
      withoutBlanks f.text = "(*OR*)" := by
  have hline : IsLine "( *  OR * )" := by decide
  generalize hts : [⟨.punct, "(", ⟨0, 1, 1⟩, 1⟩, ⟨.punct, "*", ⟨2, 1, 3⟩, 3⟩,
    ⟨.identifier, "OR", ⟨5, 1, 6⟩, 7⟩, ⟨.punct, "*", ⟨8, 1, 9⟩, 9⟩, ⟨.punct, ")", ⟨10, 1, 11⟩, 11⟩,
    Token.endAt ⟨11, 1, 12⟩] = ts
  have hcut : cutWithin 20 .start "( *  OR * )".toList = some ts := by
    rw [← hts]
    decide +kernel
  have hcanonical : ∀ t ∈ ts, t.Canonical := by
    rw [← hts]
    decide +kernel
  have hread : Filter.rule.Reads ts (.ofParam (.group [.star, .connective .or, .star]))
      [Token.endAt ⟨11, 1, 12⟩] := by
    rw [← hts, Filter.reads_rule]
    exact .group rfl (.star rfl (.connective (.word (.or rfl)) (.star rfl (.nil rfl)))) rfl (.nil rfl)
  have hf : readFilter "( *  OR * )" = .ok (.ofParam (.group [.star, .connective .or, .star])) :=
    readText_of_reads hline (tokensAt_of_cutWithin hcut) hread rfl
  have htext := (withoutBlanks_text (tokensOf_of_cutWithin hline hcut) hcanonical).2.1 _ hf
  refine ⟨ts, _, tokensOf_of_cutWithin hline hcut, hcanonical, hf, htext.trans ?_⟩
  rw [← hts]
  decide +kernel

end MetricLang
