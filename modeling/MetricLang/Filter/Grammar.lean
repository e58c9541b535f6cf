-- SUMMARY: The rules that read filters.
import MetricLang.Filter.Basic

/-!
# Reading filters

Params follow each other without separators of their own, up to the end of the
input or a closing bracket. A group that meets another end than its own
parenthesis was never closed.
-/

namespace MetricLang

-- ---------------------------------------------------------------------------
-- Relations
-- ---------------------------------------------------------------------------

namespace Relation

/-- Reads on after a colon: what touches it says which relation it is. -/
def afterColon (colon : Read n Token) : Read n Relation :=
  match colon.next? (Probe.adjacentPunct colon.value '>') with
  | some gt => gt.ifJoined '=' .greaterEqual .greater
  | none =>
    match colon.next? (Probe.adjacentPunct colon.value '<') with
    | some lt => lt.ifJoined '=' .lessEqual .less
    | none => colon.ifJoined '~' .regex .equal

/-- Takes two keywords in a row. -/
def wordsProbe (first second : Keyword) : Probe Token := fun ts => do
  let x ← Probe.keyword first ts
  x.next? (Probe.keyword second)

/-- Takes a relation that is spelled in words. -/
def wordProbe : Probe Relation := fun ts =>
  match Probe.keyword .isIn ts with
  | some x => some (x.as .isIn)
  | none =>
    match wordsProbe .not .isIn ts with
    | some x => some (x.as .notIn)
    | none => (wordsProbe .and .not ts).map (·.as .andNot)

def rule : Rule Relation := fun ts =>
  match Probe.punct ':' ts with
  | some colon => .ok (afterColon colon)
  | none =>
    match wordProbe ts with
    | some x => .ok x
    | none => .error (.expected .relation (peek ts))

end Relation

-- ---------------------------------------------------------------------------
-- Values
-- ---------------------------------------------------------------------------

namespace ValueList

/-- Reads the rest of a value list that was opened at `opened`, of which `l` is
    read: a value, then the end of the list or a connective and more. -/
def more (opened : Position) (l : ValueList) (ts : List Token) :
    Except SyntaxError (Read ts.length ValueList) := do
  let item ← Value.rule ts
  let l := { l with items := l.items ++ [item.value] }
  match item.next? (Probe.punct ')') with
  | some closed => return closed.as l
  | none =>
    let found := peek item.rest
    if found.isEnd || found.isPunct '\x7d' then throw ⟨.unclosedList opened, found.start⟩
    else
      match item.next Connective.rule with
      | .error _ => throw (.expected .listItemEnd found)
      | .ok c =>
        have := c.rest_lt
        let tail ← more opened { l with connectives := l.connectives ++ [c.value] } c.rest
        return c.andThen tail
termination_by ts.length

def rule : Rule ValueList := fun ts => do
  let opened ← Rule.punct '(' ts
  match opened.next? (Probe.punct ')') with
  | some closed => return closed.as ⟨[], []⟩
  | none => opened.next (more opened.value.start ⟨[], []⟩)

end ValueList

def FilterValue.rule : Rule FilterValue := fun ts =>
  if (peek ts).isPunct '(' then do
    let l ← ValueList.rule ts
    return l.map .list
  else do
    let v ← Value.rule ts
    return v.map .single

-- ---------------------------------------------------------------------------
-- Conditions
-- ---------------------------------------------------------------------------

namespace Condition

/-- May a tag key begin with the token? The operators of filters may not. -/
def startsKey (t : Token) : Bool :=
  (t.isIdentifier || t.isNumber) && !(Keyword.ofText? t.text).any Keyword.isOperator

def keyRule : Rule String := fun ts =>
  if startsKey (peek ts) then do
    let w ← Word.rule ts
    return w.map Word.text
  else .error (.expected .key (peek ts))

/-- Reads a condition without its negation sign. -/
def positiveRule (negative : Bool) : Rule Condition := fun ts => do
  let key ← keyRule ts
  match key.next Relation.rule with
  | .error _ => throw ⟨.missingRelation key.value, (peek key.rest).start⟩
  | .ok relation =>
    let value ← relation.next FilterValue.rule
    return value.map fun v => ⟨negative, key.value, relation.value, v⟩

def rule : Rule Condition := fun ts =>
  match Probe.punct '!' ts with
  | some sign => sign.next (positiveRule true)
  | none => positiveRule false ts

end Condition

-- ---------------------------------------------------------------------------
-- Params and filters
-- ---------------------------------------------------------------------------

namespace Param

/-- Does a sequence of params end before the token? -/
def endsBefore (t : Token) : Bool := t.isEnd || t.isPunct '\x7d' || t.isPunct ')'

mutual

def rule (ts : List Token) : Except SyntaxError (Read ts.length Param) :=
  match Probe.punct '(' ts with
  | some opened => do
    have := opened.rest_lt
    let params ← groupTail opened.value.start opened.rest
    return (opened.andThen params).map .group
  | none =>
    match Connective.rule ts with
    | .ok c => .ok (c.map .connective)
    | .error _ =>
      match Probe.punct '*' ts with
      | some s => .ok (s.as .star)
      | none => do
        let c ← Condition.rule ts
        return c.map .condition
termination_by 2 * ts.length

/-- Reads the rest of a group that was opened at `opened`. -/
def groupTail (opened : Position) (ts : List Token) :
    Except SyntaxError (Read ts.length (List Param)) :=
  match Probe.punct ')' ts with
  | some closed => .ok (closed.as [])
  | none =>
    if endsBefore (peek ts) then .error ⟨.unclosedGroup opened, (peek ts).start⟩
    else do
      let p ← rule ts
      have := p.rest_lt
      let more ← groupTail opened p.rest
      return (p.andThen more).map (p.value :: ·)
termination_by 2 * ts.length + 1

end

/-- Reads a group of params in parentheses. -/
def groupRule : Rule (List Param) := fun ts => do
  let opened ← Rule.punct '(' ts
  opened.next (groupTail opened.value.start)

end Param

namespace Filter

/-- Reads on after `f` as long as there are params. -/
def extend (f : Read n Filter) : Except SyntaxError (Read n Filter) :=
  if Param.endsBefore (peek f.rest) then .ok f
  else do
    let p ← Param.rule f.rest
    have := p.rest_lt
    extend ((f.andThen p).map f.value.push)
termination_by f.rest.length

def rule : Rule Filter := fun ts => do
  let first ← Param.rule ts
  extend (first.map .ofParam)

end Filter

end MetricLang
