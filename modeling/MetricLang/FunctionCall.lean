-- SUMMARY: Function calls: a name with arguments in parentheses.
import MetricLang.Value

/-!
# Function calls

The functions at the end of a query take values only, so a call is a name and a
list of values, which may be empty.
-/

namespace MetricLang

structure FunctionCall where
  name : String
  args : List Value
  deriving BEq

namespace FunctionCall

def text (c : FunctionCall) : String := c.name ++ "(" ++ Value.textList c.args ++ ")"

/-- Reads arguments with their parentheses. -/
def argumentsRule : Rule (List Value) := fun ts => do
  let opened ← Rule.punct '(' ts
  match opened.next? (Probe.punct ')') with
  | some closed => return closed.as []
  | none =>
    let first ← opened.next Value.argument
    let more ← first.next (Rule.moreItems ')' .argumentEnd Value.argument)
    return more.map (first.value :: ·)

def rule : Rule FunctionCall := fun ts => do
  let name ← Rule.identifier ts
  let args ← name.next argumentsRule
  return args.map fun args => ⟨name.value.text, args⟩

end FunctionCall

end MetricLang
