-- SUMMARY: Arithmetic expressions over queries: their shape, building them, and how they print.
import MetricLang.Query.Basic

/-!
# Expressions

An expression is a sum of terms and a term is a product of operands, both
leaning to the left, so that reading order is order of evaluation. Operands are
numbers, queries, calls around an expression and expressions in parentheses.
`Expression.append` puts operators where they bind; a tree made by hand may hold
any operator at either level.
-/

namespace MetricLang

inductive Operator where
  | add
  | sub
  | mul
  | div
  deriving DecidableEq

namespace Operator

def symbol : Operator → Char
  | .add => '+'
  | .sub => '-'
  | .mul => '*'
  | .div => '/'

def text (op : Operator) : String := String.singleton op.symbol

/-- Does the operator bind the operands of a term? -/
def isMultiplicative : Operator → Bool
  | .mul | .div => true
  | .add | .sub => false

end Operator

mutual

inductive Operand where
  | number (value : Double)
  | query (value : Query)
  | call (name : String) (body : Expression) (args : List Value)
  | group (body : Expression)

inductive Term where
  | single (value : Operand)
  | snoc (init : Term) (op : Operator) (last : Operand)

inductive Expression where
  | single (value : Term)
  | snoc (init : Expression) (op : Operator) (last : Term)

end

-- ---------------------------------------------------------------------------
-- Printing
-- ---------------------------------------------------------------------------

/-- What stands between two operands. -/
def Operator.textBetween (op : Operator) : String := " " ++ op.text ++ " "

mutual

/-- The text of an operand, with each query printed by `leaf`. -/
def Operand.textWith (leaf : Query → String) : Operand → String
  | .number d => d.text
  | .query q => leaf q
  | .call name body args => name ++ "(" ++ body.textWith leaf ++ Value.textTail args ++ ")"
  | .group body => "(" ++ body.textWith leaf ++ ")"

def Term.textWith (leaf : Query → String) : Term → String
  | .single v => v.textWith leaf
  | .snoc init op last => init.textWith leaf ++ op.textBetween ++ last.textWith leaf

def Expression.textWith (leaf : Query → String) : Expression → String
  | .single t => t.textWith leaf
  | .snoc init op last => init.textWith leaf ++ op.textBetween ++ last.textWith leaf

end

def Operand.text (v : Operand) : String := v.textWith Query.text

def Term.text (t : Term) : String := t.textWith Query.text

def Expression.text (e : Expression) : String := e.textWith Query.text

-- ---------------------------------------------------------------------------
-- Queries inside
-- ---------------------------------------------------------------------------

mutual

/-- The queries in an operand, in the order they print. -/
def Operand.leaves : Operand → List Query
  | .number _ => []
  | .query q => [q]
  | .call _ body _ => body.leaves
  | .group body => body.leaves

def Term.leaves : Term → List Query
  | .single v => v.leaves
  | .snoc init _ last => init.leaves ++ last.leaves

def Expression.leaves : Expression → List Query
  | .single t => t.leaves
  | .snoc init _ last => init.leaves ++ last.leaves

end

-- ---------------------------------------------------------------------------
-- Equality
-- ---------------------------------------------------------------------------

mutual

/-- Equality, with numbers compared as numbers. -/
def Operand.equal : Operand → Operand → Bool
  | .number a, .number b => a == b
  | .query p, .query q => p == q
  | .call f d as, .call g e bs => f = g && d.equal e && as == bs
  | .group d, .group e => d.equal e
  | _, _ => false

def Term.equal : Term → Term → Bool
  | .single v, .single w => v.equal w
  | .snoc s o v, .snoc t p w => s.equal t && o = p && v.equal w
  | _, _ => false

def Expression.equal : Expression → Expression → Bool
  | .single s, .single t => s.equal t
  | .snoc d o s, .snoc e p t => d.equal e && o = p && s.equal t
  | _, _ => false

end

instance : BEq Operand := ⟨Operand.equal⟩
instance : BEq Term := ⟨Term.equal⟩
instance : BEq Expression := ⟨Expression.equal⟩

-- ---------------------------------------------------------------------------
-- Building
-- ---------------------------------------------------------------------------

namespace Expression

def ofOperand (v : Operand) : Expression := .single (.single v)

/-- Adds an operator and an operand at the end. An operator that binds operands
    goes into the last term, any other begins a new term. -/
def append (e : Expression) (op : Operator) (v : Operand) : Expression :=
  if op.isMultiplicative then
    match e with
    | .single t => .single (.snoc t op v)
    | .snoc init o t => .snoc init o (.snoc t op v)
  else .snoc e op (.single v)

/-- How many terms the expression is a sum of. -/
def termCount : Expression → Nat
  | .single _ => 1
  | .snoc init _ _ => init.termCount + 1

end Expression

end MetricLang
