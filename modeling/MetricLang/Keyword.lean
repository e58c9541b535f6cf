-- SUMMARY: The words of the language, their spelling, and looking one up.
import MetricLang.Text.Letters

/-!
# Keywords

Keywords are recognised in any case and printed in one: the words that join or
negate tag conditions in capitals, the others in small letters. A keyword is an
ordinary identifier where no keyword is looked for.
-/

namespace MetricLang

inductive Keyword where
  | and
  | or
  | not
  | isIn
  | groupBy
  | isTrue
  | isFalse
  deriving DecidableEq

namespace Keyword

def all : List Keyword := [.and, .or, .not, .isIn, .groupBy, .isTrue, .isFalse]

/-- How a keyword is printed. -/
def spelling : Keyword → String
  | .and => "AND"
  | .or => "OR"
  | .not => "NOT"
  | .isIn => "IN"
  | .groupBy => "by"
  | .isTrue => "true"
  | .isFalse => "false"

/-- The keyword that a text spells, in any case. -/
def ofText? (s : String) : Option Keyword :=
  all.find? fun k => sameLetters k.spelling s

/-- Does the keyword join or negate tag conditions? -/
def isOperator : Keyword → Bool
  | .and | .or | .not | .isIn => true
  | .groupBy | .isTrue | .isFalse => false

/-- The truth value that a keyword stands for. -/
def boolean? : Keyword → Option Bool
  | .isTrue => some true
  | .isFalse => some false
  | .and | .or | .not | .isIn | .groupBy => none

end Keyword

end MetricLang
