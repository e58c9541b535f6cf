-- SUMMARY: Values and the connectives between them: how they print and how they are read.
import MetricLang.Double.Decimal
import MetricLang.Rule.Word

/-!
# Values

A value is what a tag is compared with or what a function is given. A word
stands for a truth value, a number, a pattern with stars or a plain identifier,
in that order. Where a filter expects a value, a connective may stand in its
place.
-/

namespace MetricLang

-- ---------------------------------------------------------------------------
-- Connectives
-- ---------------------------------------------------------------------------

/-- What joins two conditions or two values. -/
inductive Connective where
  | comma
  | andNot
  | and
  | or
  | isIn
  deriving DecidableEq

namespace Connective

def spelling : Connective → String
  | .comma => ","
  | .andNot => "AND NOT"
  | .and => "AND"
  | .or => "OR"
  | .isIn => "IN"

/-- How a connective is printed between two things: words stand apart from both. -/
def text : Connective → String
  | .comma => ","
  | c => " " ++ c.spelling ++ " "

/-- Takes a connective that is spelled as a word. -/
def keywordProbe : Probe Connective := fun ts =>
  match Probe.keyword .and ts with
  | some a =>
    match a.next? (Probe.keyword .not) with
    | some both => some (both.as .andNot)
    | none => some (a.as .and)
  | none =>
    match Probe.keyword .or ts with
    | some o => some (o.as .or)
    | none => (Probe.keyword .isIn ts).map (·.as .isIn)

def rule : Rule Connective := fun ts =>
  match Probe.punct ',' ts with
  | some c => .ok (c.as .comma)
  | none =>
    match keywordProbe ts with
    | some c => .ok c
    | none => .error (.expected .connective (peek ts))

end Connective

-- ---------------------------------------------------------------------------
-- Values
-- ---------------------------------------------------------------------------

inductive Value where
  | boolean (value : Bool)
  | identifier (name : String)
  | string (value : String) (quote : Quote)
  | number (value : Double)
  | wildcard (pattern : String)
  | connective (value : Connective)
  deriving BEq

namespace Value

def text : Value → String
  | .boolean true => Keyword.isTrue.spelling
  | .boolean false => Keyword.isFalse.spelling
  | .identifier name => name
  | .string value quote => quote.wrap value
  | .number value => value.text
  | .wildcard pattern => pattern
  | .connective c => c.spelling

/-- How values print in a list: with a comma between them. -/
def textList : List Value → String
  | [] => ""
  | [v] => v.text
  | v :: w :: vs => v.text ++ "," ++ textList (w :: vs)

/-- How values print after something else in a list: each after a comma and a space. -/
def textTail : List Value → String
  | [] => ""
  | v :: vs => ", " ++ v.text ++ textTail vs

/-- What a word stands for. -/
def ofWord (w : Word) : Value :=
  match (Keyword.ofText? w.text).bind Keyword.boolean? with
  | some b => .boolean b
  | none =>
    match if w.isNumber then Double.read? w.text.toList else none with
    | some d => .number d
    | none => if '*' ∈ w.text.toList then .wildcard w.text else .identifier w.text

/-- Reads a string or a word. -/
def argument : Rule Value
  | ⟨.string quote, value, _, _⟩ :: ts => .ok (.ofTail (.string value quote) ts)
  | ts => do
    let w ← Word.rule ts
    return w.map ofWord

/-- Reads a value of a filter. -/
def rule : Rule Value := fun ts =>
  match Connective.keywordProbe ts with
  | some c => .ok (c.map .connective)
  | none => argument ts

end Value

end MetricLang
