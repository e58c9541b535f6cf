-- SUMMARY: Filters: conditions on tags, how they are joined, and how they print.
import MetricLang.Value

/-!
# Filters

A filter is a sequence of params: conditions on tags, connectives, groups in
parentheses, and the star that everything passes. The sequence is kept as it was
written; it is not arranged by precedence.
-/

namespace MetricLang

/-- How a tag is compared with a value. -/
inductive Relation where
  | equal
  | greater
  | less
  | greaterEqual
  | lessEqual
  | regex
  | isIn
  | notIn
  | andNot
  deriving DecidableEq

namespace Relation

def spelling : Relation → String
  | .equal => ":"
  | .greater => ":>"
  | .less => ":<"
  | .greaterEqual => ":>="
  | .lessEqual => ":<="
  | .regex => ":~"
  | .isIn => "IN"
  | .notIn => "NOT IN"
  | .andNot => "AND NOT"

/-- Is the relation spelled in words? -/
def isWord : Relation → Bool
  | .isIn | .notIn | .andNot => true
  | .equal | .greater | .less | .greaterEqual | .lessEqual | .regex => false

/-- How a relation is printed between a tag and a value. -/
def text (r : Relation) : String :=
  if r.isWord then " " ++ r.spelling ++ " " else r.spelling

end Relation

-- ---------------------------------------------------------------------------
-- Values of a condition
-- ---------------------------------------------------------------------------

/-- Values in parentheses. `connectives` stand between the items; where there is
    none, a comma is meant, and what is left over counts for nothing. -/
structure ValueList where
  items : List Value
  connectives : List Connective
  deriving BEq

namespace ValueList

/-- Items that are all joined in the same way. -/
def joinedBy (c : Connective) (items : List Value) : ValueList :=
  ⟨items, List.replicate (items.length - 1) c⟩

def ofItems (items : List Value) : ValueList := joinedBy .comma items

/-- How items print after the first. -/
def textTail : List Value → List Connective → String
  | [], _ => ""
  | v :: vs, cs => (cs.headD .comma).text ++ v.text ++ textTail vs cs.tail

def text (l : ValueList) : String :=
  match l.items with
  | [] => "()"
  | v :: vs => "(" ++ v.text ++ textTail vs l.connectives ++ ")"

end ValueList

inductive FilterValue where
  | single (value : Value)
  | list (values : ValueList)
  deriving BEq

def FilterValue.text : FilterValue → String
  | .single v => v.text
  | .list l => l.text

-- ---------------------------------------------------------------------------
-- Conditions
-- ---------------------------------------------------------------------------

/-- A tag compared with a value, possibly negated. -/
structure Condition where
  negative : Bool := false
  key : String
  relation : Relation
  value : FilterValue
  deriving BEq

namespace Condition

/-- The condition that a tag has the given name as its value. -/
def tag (key name : String) : Condition :=
  { key, relation := .equal, value := .single (.identifier name) }

def text (c : Condition) : String :=
  (if c.negative then "!" else "") ++ c.key ++ c.relation.text ++ c.value.text

end Condition

-- ---------------------------------------------------------------------------
-- Params and filters
-- ---------------------------------------------------------------------------

inductive Param where
  | group (params : List Param)
  | connective (value : Connective)
  | condition (value : Condition)
  | star

namespace Param

mutual

def text : Param → String
  | .group params => "(" ++ textList params ++ ")"
  | .connective c => c.text
  | .condition c => c.text
  | .star => "*"

/-- How params print one after the other. -/
def textList : List Param → String
  | [] => ""
  | p :: ps => p.text ++ textList ps

end

mutual

/-- Equality, with numbers compared as numbers. -/
def equal : Param → Param → Bool
  | .group ps, .group qs => equalList ps qs
  | .connective c, .connective d => c = d
  | .condition c, .condition d => c == d
  | .star, .star => true
  | _, _ => false

def equalList : List Param → List Param → Bool
  | [], [] => true
  | p :: ps, q :: qs => p.equal q && equalList ps qs
  | _, _ => false

end

instance : BEq Param := ⟨equal⟩

end Param

/-- A sequence of params, never empty. -/
structure Filter where
  first : Param
  rest : List Param
  deriving BEq

namespace Filter

def ofParam (p : Param) : Filter := ⟨p, []⟩

/-- The filter that everything passes. -/
def all : Filter := ofParam .star

def params (f : Filter) : List Param := f.first :: f.rest

def push (f : Filter) (p : Param) : Filter := { f with rest := f.rest ++ [p] }

/-- Joins one more param to a filter. -/
def join (f : Filter) (c : Connective) (p : Param) : Filter := (f.push (.connective c)).push p

def isAll (f : Filter) : Bool := f == all

def text (f : Filter) : String := Param.textList f.params

end Filter

end MetricLang
