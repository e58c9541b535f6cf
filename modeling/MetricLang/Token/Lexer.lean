-- SUMMARY: Cutting a text into tokens, one at a time or all at once.
import MetricLang.Text.Printable
import MetricLang.Token.Basic
import MetricLang.Token.Identifier
import MetricLang.Token.Trivia

/-!
# The lexer

A token stream is the part of a text that is still to be cut, with its place in
the text. Each step skips trivia and cuts off one token: a string, else a
number, else an identifier, else one character of the punctuation set. A text
that begins with none of these ends the stream with an error.
-/

namespace MetricLang

/-- What counts as a token of its own and what is skipped. -/
structure LexerConfig where
  punctuation : String := "\x7b\x7d(),.:!*/+-<>=~"
  comments : Bool := true
  deriving DecidableEq

namespace LexerConfig

/-- The same, with comments read as ordinary text. -/
def withoutComments (config : LexerConfig) : LexerConfig := { config with comments := false }

end LexerConfig

/-- Why a text cannot be cut into tokens. -/
inductive LexError where
  | unexpectedCharacter (c : Char) (line column : Nat)
  | unterminatedString (line column : Nat)
  deriving DecidableEq

namespace LexError

def line : LexError → Nat
  | .unexpectedCharacter _ line _ => line
  | .unterminatedString line _ => line

def column : LexError → Nat
  | .unexpectedCharacter _ _ column => column
  | .unterminatedString _ column => column

/-- The error at a text that begins with `c` and with no token. -/
def atStart (c : Char) (p : Position) : LexError :=
  if c = Quote.double.char ∨ c = Quote.single.char then .unterminatedString p.line p.column
  else .unexpectedCharacter c p.line p.column

def message : LexError → String
  | .unexpectedCharacter c line column =>
    "unexpected character " ++ quoteChar c ++ s!" at line {line}, column {column}"
  | .unterminatedString line column =>
    s!"unterminated string literal at line {line}, column {column}"

end LexError

-- ---------------------------------------------------------------------------
-- One token
-- ---------------------------------------------------------------------------

/-- A token without its place: what it is, and the characters after it. -/
structure Lexeme where
  kind : TokenKind
  text : List Char
  rest : List Char

namespace Lexeme

/-- Reads a string in either kind of quotes. -/
def string? (cs : List Char) : Option Lexeme :=
  (Quote.double.read? cs).map (fun (value, rest) => ⟨.string .double, value, rest⟩)
    <|> (Quote.single.read? cs).map (fun (value, rest) => ⟨.string .single, value, rest⟩)

/-- Reads a number, which is a float if it has a point. -/
def number? (cs : List Char) : Option Lexeme :=
  (readNumber? cs).map fun (text, rest) =>
    ⟨if '.' ∈ text then .float else .integer, text, rest⟩

def identifier? (cs : List Char) : Option Lexeme :=
  (readIdentifier? cs).map fun (text, rest) => ⟨.identifier, text, rest⟩

/-- Reads one character of the punctuation set. -/
def punct? (punctuation : String) : List Char → Option Lexeme
  | [] => none
  | c :: cs => if c ∈ punctuation.toList then some ⟨.punct, [c], cs⟩ else none

/-- Reads the token that a text begins with. -/
def read? (config : LexerConfig) (cs : List Char) : Option Lexeme :=
  string? cs <|> number? cs <|> identifier? cs <|> punct? config.punctuation cs

theorem length_of_string? {cs : List Char} {l : Lexeme} (h : string? cs = some l) :
    l.rest.length < cs.length := by
  have key : ∀ q : Quote, ∀ value rest, q.read? cs = some (value, rest) →
      rest.length < cs.length := by
    intro q value rest hq
    cases cs with
    | nil => cases hq
    | cons c cs =>
      simp only [Quote.read?] at hq
      split at hq
      · have := Quote.length_readBody? hq
        simp only [List.length_cons]
        omega
      · cases hq
  unfold string? at h
  cases hd : Quote.double.read? cs with
  | some r =>
    rw [hd] at h
    cases h
    exact key _ _ _ hd
  | none =>
    rw [hd] at h
    obtain ⟨r, hr, he⟩ := Option.map_eq_some_iff.mp h
    cases he
    exact key _ _ _ hr

theorem length_of_number? {cs : List Char} {l : Lexeme} (h : number? cs = some l) :
    l.rest.length < cs.length := by
  obtain ⟨r, hr, he⟩ := Option.map_eq_some_iff.mp h
  have := List.length_pos_iff.mpr (ne_nil_of_readNumber? hr)
  have := congrArg List.length (append_of_readNumber? hr)
  cases he
  simp only [List.length_append] at *
  omega

theorem length_of_identifier? {cs : List Char} {l : Lexeme} (h : identifier? cs = some l) :
    l.rest.length < cs.length := by
  obtain ⟨r, hr, he⟩ := Option.map_eq_some_iff.mp h
  have := List.length_pos_iff.mpr (ne_nil_of_readIdentifier? hr)
  have := congrArg List.length (append_of_readIdentifier? hr)
  cases he
  simp only [List.length_append] at *
  omega

theorem length_of_punct? {punctuation : String} {cs : List Char} {l : Lexeme}
    (h : punct? punctuation cs = some l) : l.rest.length < cs.length := by
  cases cs with
  | nil => cases h
  | cons c cs =>
    simp only [punct?] at h
    split at h
    · cases h
      simp
    · cases h

/-- Every token has at least one character. -/
theorem length_of_read? {config : LexerConfig} {cs : List Char} {l : Lexeme}
    (h : read? config cs = some l) : l.rest.length < cs.length := by
  simp only [read?, Option.orElse_eq_orElse, Option.orElse_eq_or, Option.or_eq_some_iff] at h
  rcases h with h | ⟨_, h | ⟨_, h | ⟨_, h⟩⟩⟩
  · exact length_of_string? h
  · exact length_of_number? h
  · exact length_of_identifier? h
  · exact length_of_punct? h

end Lexeme

-- ---------------------------------------------------------------------------
-- The stream of tokens
-- ---------------------------------------------------------------------------

/-- The part of a text still to be cut, and where it begins. -/
structure TokenStream where
  config : LexerConfig
  rest : List Char
  position : Position

namespace TokenStream

/-- The stream of a whole text. -/
def ofText (config : LexerConfig) (text : String) : TokenStream :=
  ⟨config, text.toList, .start⟩

/-- The same stream where `rest` begins. -/
def moveTo (s : TokenStream) (rest : List Char) : TokenStream :=
  { s with rest, position := s.position.ofRest s.rest rest }

/-- The stream after the trivia it begins with. -/
def skip (s : TokenStream) : TokenStream := s.moveTo (skipTrivia s.config.comments s.rest)

/-- What one step on a stream finds, and the stream after it. -/
inductive Step where
  | finished (last : TokenStream)
  | failed (error : LexError) (last : TokenStream)
  | token (token : Token) (more : TokenStream)

/-- Cuts a token off at the start of a stream that begins with no trivia. After an
    error nothing is left, but the stream stays where the error is. -/
def cut (s : TokenStream) : Step :=
  match s.rest with
  | [] => .finished s
  | c :: cs =>
    match Lexeme.read? s.config (c :: cs) with
    | none => .failed (.atStart c s.position) { s with rest := [] }
    | some l =>
      let more := s.moveTo l.rest
      .token ⟨l.kind, String.ofList l.text, s.position, more.position.offset⟩ more

/-- Cuts off the next token. -/
def next (s : TokenStream) : Step := s.skip.cut

theorem length_of_cut {s more : TokenStream} {t : Token} (h : s.cut = .token t more) :
    more.rest.length < s.rest.length := by
  unfold cut at h
  split at h
  · cases h
  · next c cs hc =>
    split at h
    · cases h
    · next l hl =>
      cases h
      rw [hc]
      exact Lexeme.length_of_read? hl

theorem length_of_next {s more : TokenStream} {t : Token} (h : s.next = .token t more) :
    more.rest.length < s.rest.length :=
  Nat.lt_of_lt_of_le (length_of_cut h) (skipTrivia_suffix _ _).length_le

/-- What cutting up a whole stream yields: the tokens up to the end or to an
    error, the error if there is one, and the stream after the last step. -/
structure Drained where
  tokens : List Token
  failure : Option LexError
  last : TokenStream

/-- Cuts off tokens until none is left or one fails. -/
def drain (s : TokenStream) : Drained :=
  match _h : s.next with
  | .finished last => ⟨[], none, last⟩
  | .failed e last => ⟨[], some e, last⟩
  | .token t more =>
    let drained := more.drain
    { drained with tokens := t :: drained.tokens }
termination_by s.rest.length
decreasing_by all_goals exact length_of_next _h

theorem drain_eq (s : TokenStream) :
    s.drain = match s.next with
      | .finished last => ⟨[], none, last⟩
      | .failed e last => ⟨[], some e, last⟩
      | .token t more => { more.drain with tokens := t :: more.drain.tokens } := by
  rw [drain]
  split <;> simp [*]

end TokenStream

/-- All tokens of a text, the end of the input last. -/
def tokenize (config : LexerConfig) (text : String) : Except LexError (List Token) :=
  match (TokenStream.ofText config text).drain with
  | ⟨_, some e, _⟩ => .error e
  | ⟨ts, none, last⟩ => .ok (ts ++ [.endAt last.position])

end MetricLang
