-- SUMMARY: The rules that read aggregators, selections and queries.
import MetricLang.Filter.Grammar
import MetricLang.Query.Basic

/-!
# Reading queries

A query is read as a selection if it can be, else as a call; if it is neither,
the attempt that got further explains why. The condition of an aggregator may
hold any tokens with balanced parentheses and no braces, and is kept as text.
-/

namespace MetricLang

-- ---------------------------------------------------------------------------
-- Aggregators
-- ---------------------------------------------------------------------------

namespace Aggregator

/-- Reads up to the parenthesis that closes a condition, past those that close
    one of the `depth` parentheses opened inside it. -/
def conditionTokens (depth : Nat) : Rule (List Token)
  | [] => .error (.expected .conditionEnd .absent)
  | t :: ts =>
    if t.isEnd || t.isPunct '\x7b' || t.isPunct '\x7d' then .error (.expected .conditionEnd t)
    else
      let inner := if t.isPunct '(' then depth + 1 else if t.isPunct ')' then depth - 1 else depth
      if t.isPunct ')' && depth = 0 then .ok (.ofTail [] ts)
      else do
        let more ← conditionTokens inner ts
        return ⟨t :: more.value, more.rest, Nat.lt_succ_of_lt more.rest_lt⟩

/-- Tokens as they are written, with one space between those that do not touch. -/
def conditionText : List Token → String
  | [] => ""
  | [t] => t.source
  | t :: u :: ts => t.source ++ (if t.touches u then "" else " ") ++ conditionText (u :: ts)

/-- Reads what follows the parenthesis that opens a condition. -/
def conditionTail : Rule String := fun ts =>
  match Probe.punct ')' ts with
  | some closed => .error ⟨.emptyCondition, closed.value.start⟩
  | none => do
    let tokens ← conditionTokens 0 ts
    return tokens.map conditionText

/-- The brace after a metric name, where the tokens begin like a selection
    without an aggregator. -/
def bareBrace? (ts : List Token) : Option Token :=
  match metricName ts with
  | .error _ => none
  | .ok name => if (peek name.rest).isPunct '\x7b' then some (peek name.rest) else none

def rule : Rule Aggregator := fun ts => do
  let name ← Rule.expect .aggregator (·.isIdentifier) ts
  match name.next? (Probe.punct '(') with
  | some opened =>
    let condition ← opened.next conditionTail
    let colon ← condition.next (Rule.punct ':')
    return colon.as ⟨name.value.text, some condition.value⟩
  | none =>
    match name.next (Rule.punct ':') with
    | .ok colon => return colon.as ⟨name.value.text, none⟩
    | .error e =>
      match bareBrace? ts with
      | some brace => throw ⟨.missingAggregator, brace.start⟩
      | none => throw e

end Aggregator

-- ---------------------------------------------------------------------------
-- Selections
-- ---------------------------------------------------------------------------

namespace Selection

/-- Reads on after `x`: a grouping if the word for it comes next. -/
def groupingAfter (x : Read n α) : Except SyntaxError (Read n (Option Grouping)) :=
  if (peek x.rest).isKeyword Keyword.groupBy.spelling then do
    let g ← x.next Grouping.rule
    return g.map some
  else .ok (x.as none)

/-- Reads on after `s` as long as there are functions. -/
def extend (s : Read n Selection) : Except SyntaxError (Read n Selection) :=
  match Probe.punct '.' s.rest with
  | none => .ok s
  | some point => do
    let f ← point.next FunctionCall.rule
    have := f.rest_lt
    extend ((s.andThen f).map s.value.withFunction)
termination_by s.rest.length

def rule : Rule Selection := fun ts => do
  let aggregator ← Aggregator.rule ts
  let metric ← aggregator.next metricName
  match metric.next? (Probe.punct '\x7b') with
  | none => throw ⟨.missingFilter metric.value, (peek metric.rest).start⟩
  | some opened =>
    let filter ← opened.next Filter.rule
    let closed ← filter.next (Rule.punct '\x7d')
    let grouping ← groupingAfter closed
    extend (grouping.map fun g => ⟨some aggregator.value, metric.value, filter.value, g, []⟩)

end Selection

-- ---------------------------------------------------------------------------
-- Queries
-- ---------------------------------------------------------------------------

namespace Query

mutual

def rule (ts : List Token) : Except SyntaxError (Read ts.length Query) :=
  match Selection.rule ts with
  | .ok s => .ok (s.map .selection)
  | .error e =>
    match callRule ts with
    | .ok c => .ok c
    | .error other => .error (e.furthest other)
termination_by 2 * ts.length + 1

/-- Reads a call of a function on a query. -/
def callRule (ts : List Token) : Except SyntaxError (Read ts.length Query) := do
  let name ← Rule.identifier ts
  let opened ← name.next (Rule.punct '(')
  have := opened.rest_lt
  let body ← rule opened.rest
  let args ← (opened.andThen body).next (Rule.moreItems ')' .argumentEnd Value.argument)
  return args.map (.call name.value.text body.value)
termination_by 2 * ts.length

end

end Query

end MetricLang
