-- SUMMARY: The rules that read expressions.
import MetricLang.Expression.Basic
import MetricLang.Query.Grammar

/-!
# Reading expressions

The lexer joins a sign to the number after it, also where the sign is meant as
an operator: in `1 -2` the second number is the operator and an operand. An
operand that is neither a number nor in parentheses is read as a query if it can
be, else as a call around an expression; if it is neither, the attempt that got
further explains why.
-/

namespace MetricLang

namespace Operator

/-- Takes an operator that begins a new term. -/
def additiveProbe : Probe Operator := fun ts =>
  match Probe.punct '+' ts with
  | some t => some (t.as .add)
  | none => (Probe.punct '-' ts).map (·.as .sub)

/-- Takes an operator that goes on with a term. -/
def multiplicativeProbe : Probe Operator := fun ts =>
  match Probe.punct '*' ts with
  | some t => some (t.as .mul)
  | none => (Probe.punct '/' ts).map (·.as .div)

/-- The operator and the number that a signed number stands for. -/
def ofSigned? (t : Token) : Option (Operator × Double) :=
  if t.isNumber then
    match t.text.toList with
    | '+' :: digits => (Double.read? digits).map (.add, ·)
    | '-' :: digits => (Double.read? digits).map (.sub, ·)
    | _ => none
  else none

/-- Takes a signed number where an operator can stand. -/
def signedProbe : Probe (Operator × Double)
  | [] => none
  | t :: ts => (ofSigned? t).map fun signed => .ofTail signed ts

end Operator

/-- Reads a number. -/
def Operand.numberOf (t : Token) : Except SyntaxError Operand :=
  match Double.read? t.text.toList with
  | some d => .ok (.number d)
  | none => .error ⟨.numberRange, t.start⟩

mutual

def Operand.rule (ts : List Token) : Except SyntaxError (Read ts.length Operand) :=
  match Probe.take (·.isNumber) ts with
  | some n => do
    let v ← Operand.numberOf n.value
    return n.as v
  | none =>
    match Probe.punct '(' ts with
    | some opened => do
      have := opened.rest_lt
      let body ← Expression.rule opened.rest
      let closed ← (opened.andThen body).next (Rule.punct ')')
      return closed.as (.group body.value)
    | none =>
      match Query.rule ts with
      | .ok q => .ok (q.map .query)
      | .error e =>
        match Operand.callRule ts with
        | .ok c => .ok c
        | .error other => .error (e.furthest other)
termination_by 4 * ts.length + 1

/-- Reads a call of a function on an expression. -/
def Operand.callRule (ts : List Token) : Except SyntaxError (Read ts.length Operand) := do
  let name ← Rule.identifier ts
  let opened ← name.next (Rule.punct '(')
  have := opened.rest_lt
  let body ← Expression.rule opened.rest
  let args ← (opened.andThen body).next (Rule.moreItems ')' .operandEnd Value.argument)
  return args.map (.call name.value.text body.value)
termination_by 4 * ts.length

/-- Reads on after `t` as long as its operators bind operands. -/
def Term.extend {n : Nat} (t : Read n Term) : Except SyntaxError (Read n Term) :=
  match Operator.multiplicativeProbe t.rest with
  | none => .ok t
  | some op => do
    have := op.rest_lt
    let v ← Operand.rule op.rest
    have := v.rest_lt
    Term.extend ((t.andThen (op.andThen v)).map (.snoc t.value op.value))
termination_by 4 * t.rest.length + 2

def Term.rule (ts : List Token) : Except SyntaxError (Read ts.length Term) := do
  let v ← Operand.rule ts
  have := v.rest_lt
  Term.extend (v.map .single)
termination_by 4 * ts.length + 2

/-- Reads on after `e` as long as there are terms. -/
def Expression.extend {n : Nat} (e : Read n Expression) : Except SyntaxError (Read n Expression) :=
  match Operator.additiveProbe e.rest with
  | some op => do
    have := op.rest_lt
    let t ← Term.rule op.rest
    have := t.rest_lt
    Expression.extend ((e.andThen (op.andThen t)).map (.snoc e.value op.value))
  | none =>
    match Operator.signedProbe e.rest with
    | some signed => do
      have := signed.rest_lt
      let t ← Term.extend (signed.as (.single (.number signed.value.2)))
      have := t.rest_lt
      Expression.extend ((e.andThen t).map (.snoc e.value signed.value.1))
    | none => .ok e
termination_by 4 * e.rest.length + 3

def Expression.rule (ts : List Token) : Except SyntaxError (Read ts.length Expression) := do
  let t ← Term.rule ts
  have := t.rest_lt
  Expression.extend (t.map .single)
termination_by 4 * ts.length + 3

end

end MetricLang
