-- SUMMARY: Monitors: a query over a window of time, compared with a threshold.
import MetricLang.Query.Grammar

/-!
# Monitors

A monitor aggregates a query over an evaluation window and raises an alarm when
the result passes the threshold.
-/

namespace MetricLang

inductive Comparator where
  | greater
  | greaterEqual
  | less
  | lessEqual
  deriving DecidableEq

namespace Comparator

def text : Comparator → String
  | .greater => ">"
  | .greaterEqual => ">="
  | .less => "<"
  | .lessEqual => "<="

def rule : Rule Comparator := fun ts =>
  match Probe.punct '>' ts with
  | some gt => .ok (gt.ifJoined '=' .greaterEqual .greater)
  | none =>
    match Probe.punct '<' ts with
    | some lt => .ok (lt.ifJoined '=' .lessEqual .less)
    | none => .error (.expected .comparator (peek ts))

end Comparator

structure Monitor where
  aggregation : String
  window : String
  query : Query
  comparator : Comparator
  threshold : Double
  deriving BEq

namespace Monitor

def text (m : Monitor) : String :=
  m.aggregation ++ "(" ++ m.window ++ "):" ++ m.query.text
    ++ " " ++ m.comparator.text ++ " " ++ m.threshold.text

/-- Reads the number that a query is compared with. -/
def thresholdRule : Rule Double := fun ts => do
  let t ← Rule.expect .threshold (·.isNumber) ts
  match Double.read? t.value.text.toList with
  | some d => return t.as d
  | none => throw ⟨.thresholdRange, t.value.start⟩

def rule : Rule Monitor := fun ts => do
  let aggregation ← Rule.identifier ts
  let opened ← aggregation.next (Rule.punct '(')
  let window ← opened.next Word.rule
  let closed ← window.next (Rule.punct ')')
  let colon ← closed.next (Rule.punct ':')
  let query ← colon.next Query.rule
  let comparator ← query.next Comparator.rule
  let threshold ← comparator.next thresholdRule
  return threshold.map fun d =>
    ⟨aggregation.value.text, window.value.text, query.value, comparator.value, d⟩

end Monitor

end MetricLang
