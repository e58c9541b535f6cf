-- SUMMARY: Reading whole texts: the entry points of the library and their errors.
import MetricLang.Token.Lexer
import MetricLang.Expression.Formula
import MetricLang.Expression.Grammar
import MetricLang.Monitor

/-!
# Reading texts

Each entry point cuts a text into tokens, without its line breaks, and reads all
of them by one rule. Line breaks are taken out first, so they neither separate
tokens nor end comments.
-/

namespace MetricLang

/-- What stands alone: a query, or an expression that is more than a query. -/
inductive Statement where
  | query (value : Query)
  | expression (value : Expression)
  deriving BEq

namespace Statement

def text : Statement → String
  | .query q => q.text
  | .expression e => e.text

def query? : Statement → Option Query
  | .query q => some q
  | .expression _ => none

def expression? : Statement → Option Expression
  | .query _ => none
  | .expression e => some e

def isExpression (s : Statement) : Bool := s.expression?.isSome

end Statement

-- ---------------------------------------------------------------------------
-- Errors
-- ---------------------------------------------------------------------------

/-- Why a text cannot be read: its characters, or its tokens as what was wanted.
    `statement` is for texts that could be a query or an expression. -/
inductive ParseError where
  | lex (error : LexError)
  | filter (error : SyntaxError)
  | query (error : SyntaxError)
  | expression (error : SyntaxError)
  | monitor (error : SyntaxError)
  | statement (inner : ParseError)
  deriving DecidableEq

namespace ParseError

def message : ParseError → String
  | .lex e => "lex error: " ++ e.message
  | .filter e => "invalid metric filter: " ++ e.message
  | .query e => "invalid metric query: " ++ e.message
  | .expression e => "invalid metric expression: " ++ e.message
  | .monitor e => "invalid metric monitor: " ++ e.message
  | .statement inner => "not a metric query or expression: " ++ inner.message

def syntaxError? : ParseError → Option SyntaxError
  | .lex _ => none
  | .filter e | .query e | .expression e | .monitor e => some e
  | .statement inner => inner.syntaxError?

/-- Line and column of the error. -/
def lineColumn : ParseError → Nat × Nat
  | .lex e => (e.line, e.column)
  | .filter e | .query e | .expression e | .monitor e => (e.position.line, e.position.column)
  | .statement inner => inner.lineColumn

end ParseError

-- ---------------------------------------------------------------------------
-- Entry points
-- ---------------------------------------------------------------------------

/-- The text without its line breaks. -/
def withoutLineBreaks (text : String) : String :=
  String.ofList (text.toList.filter (!isLineEnd ·))

/-- The tokens that the entry points read. -/
def tokensOf (config : LexerConfig) (text : String) : Except ParseError (List Token) :=
  (tokenize config (withoutLineBreaks text)).mapError .lex

/-- Reads a whole text by one rule. -/
def readText (config : LexerConfig) (error : SyntaxError → ParseError) (rule : Rule α)
    (text : String) : Except ParseError α := do
  let ts ← tokensOf config text
  (rule.complete ts).mapError error

def readFilter (text : String) (config : LexerConfig := {}) : Except ParseError Filter :=
  readText config .filter Filter.rule text

def readQuery (text : String) (config : LexerConfig := {}) : Except ParseError Query :=
  readText config .query Query.rule text

def readExpression (text : String) (config : LexerConfig := {}) : Except ParseError Expression :=
  readText config .expression Expression.rule text

def readMonitor (text : String) (config : LexerConfig := {}) : Except ParseError Monitor :=
  readText config .monitor Monitor.rule text

/-- Reads tokens as a query if they are one, else as an expression. -/
def statementOf (ts : List Token) : Except ParseError Statement :=
  match Rule.complete Query.rule ts with
  | .ok q => .ok (.query q)
  | .error _ =>
    match Rule.complete Expression.rule ts with
    | .ok e => .ok (.expression e)
    | .error e => .error (.statement (.expression e))

def readStatement (text : String) (config : LexerConfig := {}) : Except ParseError Statement := do
  let ts ← (tokensOf config text).mapError .statement
  statementOf ts

end MetricLang
