-- SUMMARY: Groupings: the tags by which a query splits its result.
import MetricLang.Rule.Word

/-!
# Groupings

A grouping lists tag keys in braces after the word `by`. A star groups by every
tag and is an entry of its own.
-/

namespace MetricLang

structure Grouping where
  entries : List String
  deriving DecidableEq

namespace Grouping

def isEmpty (g : Grouping) : Bool := g.entries.isEmpty

/-- How entries print: with a comma between them. -/
def textEntries : List String → String
  | [] => ""
  | [e] => e
  | e :: f :: es => e ++ "," ++ textEntries (f :: es)

def text (g : Grouping) : String :=
  Keyword.groupBy.spelling ++ " \x7b" ++ textEntries g.entries ++ "\x7d"

/-- Reads a tag key or a star. -/
def entryRule : Rule String := fun ts =>
  match Probe.punct '*' ts with
  | some star =>
    let after := peek star.rest
    if star.value.touches after && !after.isPunct ',' && !after.isPunct '\x7d' then
      .error ⟨.gluedWildcard, star.value.start⟩
    else .ok (star.as "*")
  | none => Word.nameRule .key ts

def rule : Rule Grouping := fun ts => do
  let word ← Rule.keyword Keyword.groupBy.spelling ts
  let opened ← word.next (Rule.punct '\x7b')
  let first ← opened.next entryRule
  let more ← first.next (Rule.moreItems '\x7d' .groupingEnd entryRule)
  return more.map fun es => ⟨first.value :: es⟩

end Grouping

end MetricLang
