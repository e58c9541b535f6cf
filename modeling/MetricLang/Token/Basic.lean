-- SUMMARY: Tokens: their kinds, their text, and the questions that rules ask of them.
import MetricLang.Text.Letters
import MetricLang.Text.Position
import MetricLang.Token.Quoted

/-!
# Tokens

A token keeps where it begins and where it ends, because some rules depend on
whether two tokens touch. The text of a string token is what the string means;
the text of every other token is how it was written.
-/

namespace MetricLang

inductive TokenKind where
  | identifier
  | integer
  | float
  | string (quote : Quote)
  | punct
  | endOfInput
  deriving DecidableEq

/-- A piece of a text. `stop` is the byte offset just after it. -/
structure Token where
  kind : TokenKind
  text : String
  start : Position
  stop : Nat
  deriving DecidableEq

namespace Token

/-- The token that stands for the end of a text. -/
def endAt (p : Position) : Token := ⟨.endOfInput, "", p, p.offset⟩

/-- What stands in for a token where there is none. -/
def absent : Token := endAt .start

def isEnd (t : Token) : Bool := t.kind = .endOfInput

def isIdentifier (t : Token) : Bool := t.kind = .identifier

def isNumber (t : Token) : Bool := t.kind = .integer ∨ t.kind = .float

def isPunct (c : Char) (t : Token) : Bool := t.kind = .punct ∧ t.text = String.singleton c

/-- Is the token the given word, in any case? -/
def isKeyword (word : String) (t : Token) : Bool := t.isIdentifier && sameLetters t.text word

/-- Does `next` begin right where `t` ends? Nothing touches the end of the input. -/
def touches (t next : Token) : Bool := !next.isEnd && t.stop = next.start.offset

/-- How the token is written. -/
def source (t : Token) : String :=
  match t.kind with
  | .string q => q.wrap t.text
  | _ => t.text

/-- How a message names the token. -/
def describe (t : Token) : String :=
  match t.kind with
  | .endOfInput => "end of input"
  | .string q => q.wrap t.text
  | _ => "`" ++ t.text ++ "`"

end Token

end MetricLang
