-- SUMMARY: Metric queries: a selection of data points, or a call around another query.
import MetricLang.Filter.Basic
import MetricLang.FunctionCall
import MetricLang.Grouping

/-!
# Queries

A selection names a metric and says which points of it count, how they are
aggregated and grouped, and which functions run on the result. A query is a
selection or a call of a function on a query.
-/

namespace MetricLang

/-- How the points of a metric are aggregated. The condition is kept as text. -/
structure Aggregator where
  name : String
  condition : Option String := none
  deriving DecidableEq

def Aggregator.text (a : Aggregator) : String :=
  match a.condition with
  | none => a.name
  | some c => a.name ++ "(" ++ c ++ ")"

/-- The data points that a query begins with, and the functions run on them. -/
structure Selection where
  aggregator : Option Aggregator := none
  metric : String
  filter : Filter
  grouping : Option Grouping := none
  functions : List FunctionCall := []
  deriving BEq

namespace Selection

def ofMetric (metric : String) (filter : Filter) : Selection := { metric, filter }

def withAggregator (s : Selection) (a : Aggregator) : Selection := { s with aggregator := some a }

def withGrouping (s : Selection) (g : Grouping) : Selection := { s with grouping := some g }

/-- Runs one more function on the result. -/
def withFunction (s : Selection) (f : FunctionCall) : Selection :=
  { s with functions := s.functions ++ [f] }

/-- How functions print: each after a point. -/
def textFunctions : List FunctionCall → String
  | [] => ""
  | f :: fs => "." ++ f.text ++ textFunctions fs

/-- A grouping without entries does not show. -/
def textGrouping : Option Grouping → String
  | none => ""
  | some g => if g.isEmpty then "" else " " ++ g.text

def text (s : Selection) : String :=
  (match s.aggregator with
    | none => ""
    | some a => a.text ++ ":")
    ++ s.metric ++ "\x7b" ++ s.filter.text ++ "\x7d"
    ++ textGrouping s.grouping ++ textFunctions s.functions

end Selection

inductive Query where
  | selection (value : Selection)
  | call (name : String) (body : Query) (args : List Value)

namespace Query

def text : Query → String
  | .selection s => s.text
  | .call name body args => name ++ "(" ++ body.text ++ Value.textTail args ++ ")"

/-- The selection inside all calls. -/
def innermost : Query → Selection
  | .selection s => s
  | .call _ body _ => body.innermost

/-- The selection that the query is, if it is one. -/
def selection? : Query → Option Selection
  | .selection s => some s
  | .call .. => none

/-- Equality, with numbers compared as numbers. -/
def equal : Query → Query → Bool
  | .selection s, .selection t => s == t
  | .call f q as, .call g r bs => f = g && q.equal r && as == bs
  | _, _ => false

instance : BEq Query := ⟨equal⟩

end Query

end MetricLang
