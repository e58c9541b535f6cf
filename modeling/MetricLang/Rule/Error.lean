-- SUMMARY: Syntax errors: what was looked for, what went wrong and where, and the wording of both.
import MetricLang.Token.Basic

/-!
# Syntax errors

An error is a cause at a position. Most causes are that a rule looked for one
thing and found another token; the others name a mistake that deserves words of
its own. The wording of all of them is here.
-/

namespace MetricLang

/-- What a rule can look for. -/
inductive Expected where
  | punct (c : Char)
  | keyword (spelling : String)
  | identifier
  | word
  | key
  | connective
  | relation
  | listItemEnd
  | groupingEnd
  | argumentEnd
  | operandEnd
  | aggregator
  | conditionEnd
  | metricName
  | comparator
  | threshold
  deriving DecidableEq

def Expected.describe : Expected → String
  | .punct c => "`" ++ String.singleton c ++ "`"
  | .keyword spelling => "`" ++ spelling ++ "`"
  | .identifier => "an identifier"
  | .word => "a name or value"
  | .key => "a tag key"
  | .connective => "`,`, `AND`, `OR` or `IN`"
  | .relation => "a filter separator"
  | .listItemEnd => "`,`, `OR` or `)` in value list"
  | .groupingEnd => "`,` or `\x7d` in grouping"
  | .argumentEnd => "`,` or `)`"
  | .operandEnd => "an operator, `,` or `)`"
  | .aggregator => "an aggregator such as `sum:`"
  | .conditionEnd => "`)` to close the aggregator condition"
  | .metricName => "a metric name"
  | .comparator => "a comparator (`>`, `>=`, `<` or `<=`)"
  | .threshold => "a numeric threshold"

/-- What went wrong. A bracket that is never closed is named by its place. -/
inductive Cause where
  | expected (what : Expected) (found : Token)
  | trailing (found : Token)
  | loneNegation
  | missingRelation (key : String)
  | unclosedGroup (opened : Position)
  | unclosedList (opened : Position)
  | gluedWildcard
  | missingFilter (metric : String)
  | missingAggregator
  | emptyCondition
  | numberRange
  | thresholdRange
  | other (message : String)
  deriving DecidableEq

def Cause.message : Cause → String
  | .expected what found => "expected " ++ what.describe ++ ", found " ++ found.describe
  | .trailing found => "unexpected " ++ found.describe ++ " after the end of the query"
  | .loneNegation => "expected a name after `!`"
  | .missingRelation key =>
    "missing filter separator after `" ++ key
      ++ "`: expected `:`, `:>`, `:<`, `:>=`, `:<=`, `:~`, `IN`, `NOT IN` or `AND NOT`"
  | .unclosedGroup opened =>
    "unbalanced parentheses: `(` at " ++ opened.text ++ " is never closed"
  | .unclosedList opened => "unclosed value list: `(` at " ++ opened.text ++ " is never closed"
  | .gluedWildcard => "a grouping wildcard must be `*` on its own"
  | .missingFilter metric =>
    "filters are required after `" ++ metric ++ "` (use `\x7b*\x7d` to select everything)"
  | .missingAggregator => "metric query must be prefixed with an aggregator such as `sum:`"
  | .emptyCondition => "empty aggregator condition"
  | .numberRange => "number out of range"
  | .thresholdRange => "threshold out of range"
  | .other message => message

structure SyntaxError where
  cause : Cause
  position : Position
  deriving DecidableEq

namespace SyntaxError

/-- The error that `found` is not what was looked for. -/
def expected (what : Expected) (found : Token) : SyntaxError :=
  ⟨.expected what found, found.start⟩

/-- What went wrong, without the place. -/
def reason (e : SyntaxError) : String := e.cause.message

def message (e : SyntaxError) : String := e.reason ++ " at " ++ e.position.text

/-- Of two failed attempts at the same place, the one that got further; the first
    if neither did. -/
def furthest (e other : SyntaxError) : SyntaxError :=
  if e.position.offset < other.position.offset then other else e

end SyntaxError

end MetricLang
