-- SUMMARY: Texts as pieces: tokens as they are written, and what is skipped between them.
import MetricLang.Token.Lexer

/-!
# Pieces

A text that can be cut into tokens is a row of pieces: the tokens as they are
written, and the gaps between them. Pieces know nothing of their place, so the
same pieces stand for the same text wherever it begins. `Piece.Cut` says that
the lexer cuts a text right where its pieces meet; `tokensAt_append` and
`exists_cut_of_tokensAt` say that this is all there is to cutting a text.
-/

namespace MetricLang

/-- A token as it is written, or characters that are skipped. -/
inductive Piece where
  | gap (chars : List Char)
  | token (kind : TokenKind) (text : String) (chars : List Char)

namespace Piece

def chars : Piece → List Char
  | .gap cs => cs
  | .token _ _ cs => cs

/-- The characters of pieces in a row. -/
def charsOf (ps : List Piece) : List Char := ps.flatMap chars

@[simp] theorem charsOf_nil : charsOf [] = [] := rfl
@[simp] theorem charsOf_cons (p : Piece) (ps : List Piece) :
    charsOf (p :: ps) = p.chars ++ charsOf ps := rfl
@[simp] theorem charsOf_append (ps qs : List Piece) :
    charsOf (ps ++ qs) = charsOf ps ++ charsOf qs := by simp [charsOf]

/-- The tokens of pieces of which the first begins at `p`. -/
def place (p : Position) : List Piece → List Token
  | [] => []
  | .gap cs :: ps => place (p.after cs) ps
  | .token kind text cs :: ps =>
    ⟨kind, text, p, (p.after cs).offset⟩ :: place (p.after cs) ps

@[simp] theorem place_nil (p : Position) : place p [] = [] := rfl
@[simp] theorem place_gap (p : Position) (cs : List Char) (ps : List Piece) :
    place p (.gap cs :: ps) = place (p.after cs) ps := rfl
@[simp] theorem place_token (p : Position) (kind : TokenKind) (text : String) (cs : List Char)
    (ps : List Piece) :
    place p (.token kind text cs :: ps) =
      ⟨kind, text, p, (p.after cs).offset⟩ :: place (p.after cs) ps := rfl

theorem place_append (p : Position) (ps qs : List Piece) :
    place p (ps ++ qs) = place p ps ++ place (p.after (charsOf ps)) qs := by
  induction ps generalizing p with
  | nil => rfl
  | cons piece ps ih =>
    cases piece <;> simp [chars, Position.after_append, ih]

-- ---------------------------------------------------------------------------
-- Where the lexer cuts
-- ---------------------------------------------------------------------------

/-- Does the lexer cut a text behind the piece, when `after` follows it? -/
def Fits (config : LexerConfig) (after : List Char) : Piece → Prop
  | .gap cs => cs ≠ [] ∧
      skipTrivia config.comments (cs ++ after) = skipTrivia config.comments after
  | .token kind text cs => readTrivia? config.comments (cs ++ after) = none ∧
      Lexeme.read? config (cs ++ after) = some ⟨kind, text.toList, after⟩

/-- Does the lexer cut a text behind each of the pieces, when `rest` follows them? -/
def Cut (config : LexerConfig) : List Piece → List Char → Prop
  | [], _ => True
  | p :: ps, rest => p.Fits config (charsOf ps ++ rest) ∧ Cut config ps rest

@[simp] theorem cut_nil (config : LexerConfig) (rest : List Char) : Cut config [] rest := trivial

@[simp] theorem cut_cons {config : LexerConfig} {p : Piece} {ps : List Piece} {rest : List Char} :
    Cut config (p :: ps) rest ↔ p.Fits config (charsOf ps ++ rest) ∧ Cut config ps rest := .rfl

theorem cut_append {config : LexerConfig} {ps qs : List Piece} {rest : List Char} :
    Cut config (ps ++ qs) rest ↔ Cut config ps (charsOf qs ++ rest) ∧ Cut config qs rest := by
  induction ps with
  | nil => simp
  | cons p ps ih => simp [ih, and_assoc]

end Piece

-- ---------------------------------------------------------------------------
-- Tokens of a text that begins anywhere
-- ---------------------------------------------------------------------------

/-- All tokens of a text that begins at `p`, the end of the input last. -/
def tokensAt (config : LexerConfig) (p : Position) (cs : List Char) :
    Except LexError (List Token) :=
  match (TokenStream.mk config cs p).drain with
  | ⟨_, some e, _⟩ => .error e
  | ⟨ts, none, last⟩ => .ok (ts ++ [.endAt last.position])

theorem tokenize_eq_tokensAt (config : LexerConfig) (text : String) :
    tokenize config text = tokensAt config .start text.toList := rfl

theorem skipTrivia_of_none {comments : Bool} {cs : List Char}
    (h : readTrivia? comments cs = none) : skipTrivia comments cs = cs := by
  rw [skipTrivia]
  split
  · rfl
  · next hr => rw [h] at hr; cases hr

theorem skipTrivia_of_some {comments : Bool} {cs taken rest : List Char}
    (h : readTrivia? comments cs = some (taken, rest)) :
    skipTrivia comments cs = skipTrivia comments rest := by
  rw [skipTrivia]
  split
  · next hr => rw [h] at hr; cases hr
  · next hr => rw [h] at hr; cases hr; rfl

namespace TokenStream

theorem drain_congr {s s' : TokenStream} (h : s.next = s'.next) : s.drain = s'.drain := by
  rw [drain_eq, drain_eq, h]

/-- A gap at the start of a stream makes no difference. -/
theorem next_gap {config : LexerConfig} {p : Position} {cs after : List Char}
    (h : skipTrivia config.comments (cs ++ after) = skipTrivia config.comments after) :
    next ⟨config, cs ++ after, p⟩ = next ⟨config, after, p.after cs⟩ := by
  obtain ⟨taken, ht⟩ := skipTrivia_suffix config.comments after
  have hpos : p.ofRest (cs ++ after) (skipTrivia config.comments after) =
      (p.after cs).ofRest after (skipTrivia config.comments after) := by
    generalize skipTrivia config.comments after = rest at ht
    subst ht
    rw [Position.ofRest_append, ← List.append_assoc, Position.ofRest_append,
      Position.after_append]
  simp only [next, skip, moveTo, h, hpos]

/-- A token at the start of a stream is what the next step yields. -/
theorem next_token {config : LexerConfig} {p : Position} {kind : TokenKind} {text : String}
    {cs after : List Char} (hne : cs ++ after ≠ [])
    (ht : readTrivia? config.comments (cs ++ after) = none)
    (hr : Lexeme.read? config (cs ++ after) = some ⟨kind, text.toList, after⟩) :
    next ⟨config, cs ++ after, p⟩ =
      .token ⟨kind, text, p, (p.after cs).offset⟩ ⟨config, after, p.after cs⟩ := by
  have hpos : p.ofRest (cs ++ after) (cs ++ after) = p := by
    simpa using Position.ofRest_append p [] (cs ++ after)
  have hskip : skip ⟨config, cs ++ after, p⟩ = ⟨config, cs ++ after, p⟩ := by
    simp only [skip, moveTo, skipTrivia_of_none ht, hpos]
  obtain ⟨c, ds, hc⟩ := List.exists_cons_of_ne_nil hne
  rw [next, hskip]
  simp only [cut, hc]
  rw [← hc, hr]
  simp [moveTo, Position.ofRest_append]

end TokenStream

theorem Piece.Fits.token_ne_nil {config : LexerConfig} {after : List Char} {kind : TokenKind}
    {text : String} {cs : List Char} (h : (Piece.token kind text cs).Fits config after) :
    cs ++ after ≠ [] := by
  intro hnil
  have := Lexeme.length_of_read? h.2
  simp [hnil] at this

/-- Tokens of pieces come first, then the tokens of what follows them. -/
theorem tokensAt_append {config : LexerConfig} {ps : List Piece} {rest : List Char}
    (h : Piece.Cut config ps rest) (p : Position) :
    tokensAt config p (Piece.charsOf ps ++ rest) =
      (tokensAt config (p.after (Piece.charsOf ps)) rest).map (Piece.place p ps ++ ·) := by
  induction ps generalizing p with
  | nil =>
    cases hts : tokensAt config p rest <;> simp [Except.map, hts]
  | cons piece ps ih =>
    obtain ⟨hfit, hcut⟩ := h
    cases piece with
    | gap cs =>
      have hdrain := TokenStream.drain_congr (TokenStream.next_gap (p := p) hfit.2)
      simp only [Piece.charsOf_cons, Piece.chars, List.append_assoc, Piece.place_gap,
        Position.after_append]
      rw [← ih hcut (p.after cs), tokensAt, hdrain, tokensAt]
    | token kind text cs =>
      have hnext := TokenStream.next_token (p := p) hfit.token_ne_nil hfit.1 hfit.2
      have ih := ih hcut (p.after cs)
      simp only [Piece.charsOf_cons, Piece.chars, List.append_assoc, Piece.place_token,
        Position.after_append]
      rw [tokensAt, TokenStream.drain_eq, hnext]
      simp only [tokensAt] at ih ⊢
      generalize (TokenStream.drain ⟨config, Piece.charsOf ps ++ rest, p.after cs⟩) = d at ih ⊢
      obtain ⟨ts, failure, last⟩ := d
      generalize (TokenStream.drain ⟨config, rest, _⟩) = d' at ih ⊢
      obtain ⟨us, failure', last'⟩ := d'
      cases failure <;> cases failure' <;> simp_all [Except.map]

-- ---------------------------------------------------------------------------
-- Every text that can be cut has pieces
-- ---------------------------------------------------------------------------

theorem exists_of_tokensAt_append {config : LexerConfig} {ps : List Piece} {rest : List Char}
    {p : Position} {ts : List Token} (h : Piece.Cut config ps rest)
    (hts : tokensAt config p (Piece.charsOf ps ++ rest) = .ok ts) :
    ∃ us, tokensAt config (p.after (Piece.charsOf ps)) rest = .ok us ∧ ts = Piece.place p ps ++ us := by
  rw [tokensAt_append h] at hts
  cases hus : tokensAt config (p.after (Piece.charsOf ps)) rest with
  | ok us =>
    rw [hus] at hts
    cases hts
    exact ⟨us, rfl, rfl⟩
  | error e => simp [hus, Except.map] at hts

theorem Quote.suffix_of_readBody? {q : Quote} {cs value rest : List Char}
    (h : q.readBody? cs = some (value, rest)) : rest <:+ cs := by
  fun_induction Quote.readBody? q cs generalizing value rest with
  | case1 => cases h
  | case2 c cs ih =>
    obtain ⟨⟨v, r⟩, hr, he⟩ := Option.map_eq_some_iff.mp h
    cases he
    exact (ih hr).trans (List.suffix_append ['\\', c] cs)
  | case3 c cs =>
    cases h
    exact List.suffix_cons _ _
  | case4 => cases h
  | case5 c cs _ _ _ ih =>
    obtain ⟨⟨v, r⟩, hr, he⟩ := Option.map_eq_some_iff.mp h
    cases he
    exact (ih hr).trans (List.suffix_cons c cs)

theorem Quote.suffix_of_read? {q : Quote} {cs value rest : List Char}
    (h : q.read? cs = some (value, rest)) : rest <:+ cs := by
  cases cs with
  | nil => cases h
  | cons c cs =>
    simp only [Quote.read?] at h
    split at h
    · exact (Quote.suffix_of_readBody? h).trans (List.suffix_cons c cs)
    · cases h

namespace Lexeme

theorem read?_eq_some_iff {config : LexerConfig} {cs : List Char} {l : Lexeme} :
    read? config cs = some l ↔ string? cs = some l ∨
      string? cs = none ∧ (number? cs = some l ∨
        number? cs = none ∧ (identifier? cs = some l ∨
          identifier? cs = none ∧ punct? config.punctuation cs = some l)) := by
  simp [read?, Option.or_eq_some_iff]

theorem string?_eq_some {cs : List Char} {l : Lexeme} (h : string? cs = some l) :
    ∃ q : Quote, l.kind = .string q ∧ q.read? cs = some (l.text, l.rest) := by
  simp only [string?, Option.orElse_eq_orElse, Option.orElse_eq_or, Option.or_eq_some_iff,
    Option.map_eq_some_iff] at h
  obtain ⟨⟨value, rest⟩, hr, rfl⟩ | ⟨_, ⟨value, rest⟩, hr, rfl⟩ := h
  · exact ⟨.double, rfl, hr⟩
  · exact ⟨.single, rfl, hr⟩

theorem number?_eq_some {cs : List Char} {l : Lexeme} (h : number? cs = some l) :
    readNumber? cs = some (l.text, l.rest) ∧
      l.kind = if '.' ∈ l.text then .float else .integer := by
  obtain ⟨⟨text, rest⟩, hr, rfl⟩ := Option.map_eq_some_iff.mp h
  exact ⟨hr, rfl⟩

theorem identifier?_eq_some {cs : List Char} {l : Lexeme} (h : identifier? cs = some l) :
    readIdentifier? cs = some (l.text, l.rest) ∧ l.kind = .identifier := by
  obtain ⟨⟨text, rest⟩, hr, rfl⟩ := Option.map_eq_some_iff.mp h
  exact ⟨hr, rfl⟩

theorem punct?_eq_some {punctuation : String} {cs : List Char} {l : Lexeme}
    (h : punct? punctuation cs = some l) :
    ∃ c ∈ punctuation.toList, cs = c :: l.rest ∧ l.kind = .punct ∧ l.text = [c] := by
  cases cs with
  | nil => cases h
  | cons c cs =>
    simp only [punct?] at h
    split at h
    · next hc => cases h; exact ⟨c, hc, rfl, rfl, rfl⟩
    · cases h

/-- Each kind of token is read by its own recogniser. -/
theorem kind_cases {config : LexerConfig} {cs : List Char} {l : Lexeme}
    (h : read? config cs = some l) :
    (∃ q : Quote, l.kind = .string q ∧ q.read? cs = some (l.text, l.rest)) ∨
      ((l.kind = .integer ∨ l.kind = .float) ∧ readNumber? cs = some (l.text, l.rest)) ∨
      (l.kind = .identifier ∧ readIdentifier? cs = some (l.text, l.rest)) ∨
      (l.kind = .punct ∧ ∃ c ∈ config.punctuation.toList, cs = c :: l.rest ∧ l.text = [c]) := by
  obtain h | ⟨_, h | ⟨_, h | ⟨_, h⟩⟩⟩ := read?_eq_some_iff.mp h
  · exact .inl (string?_eq_some h)
  · obtain ⟨hread, hkind⟩ := number?_eq_some h
    refine .inr (.inl ⟨?_, hread⟩)
    split at hkind
    · exact .inr hkind
    · exact .inl hkind
  · obtain ⟨hread, hkind⟩ := identifier?_eq_some h
    exact .inr (.inr (.inl ⟨hkind, hread⟩))
  · obtain ⟨c, hc, hcs, hkind, htext⟩ := punct?_eq_some h
    exact .inr (.inr (.inr ⟨hkind, c, hc, hcs, htext⟩))

theorem suffix_of_read? {config : LexerConfig} {cs : List Char} {l : Lexeme}
    (h : read? config cs = some l) : l.rest <:+ cs := by
  obtain h | ⟨_, h | ⟨_, h | ⟨_, h⟩⟩⟩ := read?_eq_some_iff.mp h
  · obtain ⟨q, _, hq⟩ := string?_eq_some h
    exact Quote.suffix_of_read? hq
  · exact ⟨_, append_of_readNumber? (number?_eq_some h).1⟩
  · exact ⟨_, append_of_readIdentifier? (identifier?_eq_some h).1⟩
  · obtain ⟨c, _, rfl, _⟩ := punct?_eq_some h
    exact List.suffix_cons c l.rest

end Lexeme

theorem readTrivia?_skipTrivia (comments : Bool) (cs : List Char) :
    readTrivia? comments (skipTrivia comments cs) = none := by
  fun_induction skipTrivia comments cs with
  | case1 cs h => exact h
  | case2 _ _ _ _ ih => exact ih

@[simp] theorem skipTrivia_skipTrivia (comments : Bool) (cs : List Char) :
    skipTrivia comments (skipTrivia comments cs) = skipTrivia comments cs :=
  skipTrivia_of_none (readTrivia?_skipTrivia comments cs)

/-- What is skipped at the start of a text is at most one gap. -/
theorem exists_gap {config : LexerConfig} {cs taken : List Char}
    (h : taken ++ skipTrivia config.comments cs = cs) :
    ∃ gs, Piece.charsOf gs = taken ∧ Piece.Cut config gs (skipTrivia config.comments cs) ∧
      ∀ p, Piece.place p gs = [] := by
  by_cases hne : taken = []
  · exact ⟨[], hne.symm, trivial, fun _ => rfl⟩
  · refine ⟨[.gap taken], by simp [Piece.chars], ⟨⟨hne, ?_⟩, trivial⟩, fun _ => rfl⟩
    rw [Piece.charsOf_nil, List.nil_append, h, skipTrivia_skipTrivia]

theorem exists_cut_of_drain {config : LexerConfig} {p : Position} {cs : List Char}
    {ts : List Token} {last : TokenStream}
    (h : TokenStream.drain ⟨config, cs, p⟩ = ⟨ts, none, last⟩) :
    ∃ ps, Piece.charsOf ps = cs ∧ Piece.Cut config ps [] ∧ ts = Piece.place p ps ∧
      last.position = p.after cs := by
  induction hn : cs.length using Nat.strongRecOn generalizing cs p ts with
  | ind n ih =>
    obtain ⟨taken, htaken⟩ := skipTrivia_suffix config.comments cs
    obtain ⟨gs, hgs, hcut, hplace⟩ := exists_gap htaken
    have hskip : TokenStream.skip ⟨config, cs, p⟩ =
        ⟨config, skipTrivia config.comments cs, p.after taken⟩ := by
      simp only [TokenStream.skip, TokenStream.moveTo]
      rw [← Position.ofRest_append p taken (skipTrivia config.comments cs), htaken]
    have htrivia := readTrivia?_skipTrivia config.comments cs
    rw [TokenStream.drain_eq, TokenStream.next, hskip, TokenStream.cut] at h
    generalize skipTrivia config.comments cs = rest at *
    cases rest with
    | nil =>
      cases h
      refine ⟨gs, by simpa [hgs] using htaken, hcut, (hplace p).symm, ?_⟩
      simp only [← htaken, List.append_nil]
    | cons c ds =>
      cases hl : Lexeme.read? config (c :: ds) with
      | none => simp [hl] at h
      | some l =>
        obtain ⟨text, htext⟩ := Lexeme.suffix_of_read? hl
        have hpos : (p.after taken).ofRest (c :: ds) l.rest = (p.after taken).after text := by
          rw [← htext, Position.ofRest_append]
        simp only [hl, TokenStream.moveTo, hpos] at h
        generalize hd : TokenStream.drain ⟨config, l.rest, _⟩ = d at h
        obtain ⟨us, failure, last'⟩ := d
        simp only [TokenStream.Drained.mk.injEq] at h
        obtain ⟨rfl, rfl, rfl⟩ := h
        have hlt : l.rest.length < n := by
          have := congrArg List.length htaken
          have := Lexeme.length_of_read? hl
          simp only [List.length_append] at *
          omega
        obtain ⟨ps, hps, hpscut, rfl, hlast⟩ := ih _ hlt hd rfl
        refine ⟨gs ++ .token l.kind (String.ofList l.text) text :: ps, ?_, ?_, ?_, ?_⟩
        · simp [hgs, hps, Piece.chars, htext, htaken]
        · refine Piece.cut_append.mpr ⟨?_, ⟨?_, ?_⟩, hpscut⟩
          · simpa [Piece.chars, hps, htext] using hcut
          · simpa [hps, htext] using htrivia
          · simpa [hps, htext] using hl
        · simp [Piece.place_append, hplace, hgs]
        · rw [hlast, ← Position.after_append, ← Position.after_append, htext, htaken]

/-- The tokens of a text are those of its pieces. -/
theorem exists_cut_of_tokensAt {config : LexerConfig} {p : Position} {cs : List Char}
    {ts : List Token} (h : tokensAt config p cs = .ok ts) :
    ∃ ps, Piece.charsOf ps = cs ∧ Piece.Cut config ps [] ∧
      ts = Piece.place p ps ++ [.endAt (p.after cs)] := by
  rw [tokensAt] at h
  split at h
  · cases h
  · next hd =>
    cases h
    obtain ⟨ps, hps, hcut, rfl, hlast⟩ := exists_cut_of_drain hd
    exact ⟨ps, hps, hcut, by rw [hlast]⟩

@[simp] theorem tokensAt_nil (config : LexerConfig) (p : Position) :
    tokensAt config p [] = .ok [.endAt p] := by
  have hskip : skipTrivia config.comments [] = [] :=
    List.suffix_nil.mp (skipTrivia_suffix config.comments [])
  rw [tokensAt, TokenStream.drain_eq, TokenStream.next, TokenStream.skip]
  simp [TokenStream.moveTo, hskip, TokenStream.cut, Position.ofRest]

end MetricLang
