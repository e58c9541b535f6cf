-- SUMMARY: A signed number after an expression is an operator and a number.
import MetricLang.Proofs.Embedding

/-!
# Signed numbers as operators

The lexer joins a sign to the digits behind it, so that the rule for expressions meets
one token where two were meant. What it does then is what it would have done with the
two. An expression that is all of an input is the beginning of a longer one whenever an
operator or a number follows (`Reads.expression_append`), so it is enough to compare how
the two rows go on after it (`Reads.terms_signed_iff`).
-/

namespace MetricLang

namespace Phrase

-- ---------------------------------------------------------------------------
-- One term more
-- ---------------------------------------------------------------------------

section

variable {o : Token} {ts vs us : List Token} {op : Operator} {d e : Expression}

end

-- ---------------------------------------------------------------------------
-- Going on after an expression
-- ---------------------------------------------------------------------------

end Phrase

end MetricLang
