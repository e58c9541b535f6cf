-- SUMMARY: Formulas: an expression with a variable for each distinct query.
import MetricLang.Expression.Basic

/-!
# Formulas

The queries of an expression are told apart by their text. Each distinct one
gets a variable, in the order in which they first print: a to z, then aa, ab and
so on. The formula is the expression printed with the variables.
-/

namespace MetricLang

/-- An expression printed with variables, and the text each variable stands for. -/
structure Formula where
  text : String
  bindings : List (String × String)
  deriving DecidableEq

namespace Formula

/-- The digits of a variable name: letters count from one, so that there is no
    digit zero and every name but the empty one is a number. -/
def variableLetters : Nat → List Char
  | 0 => []
  | n + 1 => variableLetters (n / 26) ++ [Char.ofNat ('a'.toNat + n % 26)]
decreasing_by omega

/-- The name of the variable with the given index. -/
def variableName (index : Nat) : String := String.ofList (variableLetters (index + 1))

/-- Names texts by their place in a list. -/
def nameTexts (texts : List String) : List (String × String) :=
  texts.zipIdx.map fun (text, i) => (variableName i, text)

/-- The variable that stands for a text, or else the text itself. -/
def variableOf (bindings : List (String × String)) (text : String) : String :=
  match bindings.find? (·.2 = text) with
  | some (name, _) => name
  | none => text

end Formula

namespace Expression

/-- The texts of the queries in an expression, each once, in the order they first
    print. -/
def queries (e : Expression) : List String := (e.leaves.map Query.text).eraseDups

def formula (e : Expression) : Formula :=
  let bindings := Formula.nameTexts e.queries
  ⟨e.textWith fun q => Formula.variableOf bindings q.text, bindings⟩

end Expression

end MetricLang
