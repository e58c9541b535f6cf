-- SUMMARY: Which values and filters can be read back from their text, and as what.
import MetricLang.Proofs.NumberText
import MetricLang.Proofs.WholeTexts

/-!
# Legible trees

A tree made by hand may hold any texts, and not all of them can be read back. A
tree is legible if its names and values are spelled as such and no blank makes a
comment of one of them. Then it is read back if no two of its params run into each
other: as the tree itself, but for numbers that do not print in full and for
connectives of a list that do not print at all (`Filter.reread`).
-/

namespace MetricLang

/-- Is the text a word that ends with the word for comments? A blank after it would
    make a comment of what follows. -/
def EndsInComment (s : String) : Prop := ∃ w : Word, w.Spells s ∧ w.endsInComment

-- ---------------------------------------------------------------------------
-- Values
-- ---------------------------------------------------------------------------

namespace Value

/-- Can the value be read back where it is an argument? -/
def Legible : Value → Prop
  | .boolean _ => True
  | .identifier name => ∃ w : Word, w.Spells name ∧ '*' ∉ name.toList ∧
      (Keyword.ofText? name).bind Keyword.boolean? = none ∧
      ¬ (w.isNumber ∧ (Double.read? name.toList).isSome)
  | .string s _ => IsLine s
  | .number d => d.isFinite
  | .wildcard pattern => ∃ w : Word, w.Spells pattern ∧ '*' ∈ pattern.toList
  | .connective _ => False

/-- Can the value be read back where it is a value of a filter? There it may be a
    connective, and a word may not begin like one. -/
def LegibleInFilter : Value → Prop
  | .connective c => c ≠ .comma
  | v => v.Legible ∧ ∀ w : Word, w.Spells v.text → Connective.startsWord w.first = false

/-- What the printed value is read as. -/
def reread : Value → Value
  | .number d => .number d.reread
  | v => v

def isString : Value → Bool
  | .string _ _ => true
  | _ => false

/-- Does the value end where the text `rest` follows it? -/
def stoppedBy (v : Value) (rest : List Char) : Bool :=
  match v with
  | .string _ _ => true
  | .connective _ => rest.head?.all (!isIdentifierPart ·)
  | _ => Stops rest

end Value

-- ---------------------------------------------------------------------------
-- Values of a condition
-- ---------------------------------------------------------------------------

namespace ValueList

/-- The connectives that print in front of the items after the first. -/
def shown : List Value → List Connective → List Connective
  | [], _ => []
  | _ :: vs, cs => cs.headD .comma :: shown vs cs.tail

/-- Can the items after `v` be read back in turn? No blank may make a comment of an
    item, and no `AND` may print in front of an item that begins with `NOT`. -/
def TailLegible (v : Value) : List Value → List Connective → Prop
  | [], _ => True
  | x :: vs, cs =>
    (cs.headD .comma ≠ .comma → ¬ EndsInComment v.text) ∧
      (cs.headD .comma = .and → ∀ w : Word, w.Spells x.text →
        w.first.isKeyword Keyword.not.spelling = false) ∧
      TailLegible x vs cs.tail

structure Legible (l : ValueList) : Prop where
  items : ∀ v ∈ l.items, v.LegibleInFilter
  tail : ∀ v ∈ l.items.head?, TailLegible v l.items.tail l.connectives

def reread (l : ValueList) : ValueList :=
  ⟨l.items.map Value.reread, shown l.items.tail l.connectives⟩

/-- Is there one connective between any two neighbouring items, and no other? -/
def Regular (l : ValueList) : Prop := l.connectives.length = l.items.length - 1

end ValueList

namespace FilterValue

def Legible : FilterValue → Prop
  | .single v => v.LegibleInFilter
  | .list l => l.Legible

def reread : FilterValue → FilterValue
  | .single v => .single v.reread
  | .list l => .list l.reread

def Regular : FilterValue → Prop
  | .single _ => True
  | .list l => l.Regular

def values : FilterValue → List Value
  | .single v => [v]
  | .list l => l.items

/-- Does the value end where the text `rest` follows it? -/
def stoppedBy (v : FilterValue) (rest : List Char) : Bool :=
  match v with
  | .single v => v.stoppedBy rest
  | .list _ => true

/-- Is the value a word that ends with the word for comments? -/
def EndsInComment : FilterValue → Prop
  | .single v => MetricLang.EndsInComment v.text
  | .list _ => False

end FilterValue

-- ---------------------------------------------------------------------------
-- Conditions
-- ---------------------------------------------------------------------------

namespace Condition

structure Legible (c : Condition) : Prop where
  key : ∃ w : Word, w.Spells c.key ∧ startsKey w.first
  keyEnds : c.relation.isWord → ¬ EndsInComment c.key
  value : c.value.Legible

def reread (c : Condition) : Condition := { c with value := c.value.reread }

/-- Does every number print in full? -/
def Exact (c : Condition) : Prop := ∀ d, .number d ∈ c.value.values → d.reread == d

end Condition

-- ---------------------------------------------------------------------------
-- Params and filters
-- ---------------------------------------------------------------------------

namespace Param

mutual

/-- The conditions in a param, those in groups included. -/
def conditions : Param → List Condition
  | .group ps => conditionsIn ps
  | .condition c => [c]
  | .connective _ | .star => []

def conditionsIn : List Param → List Condition
  | [] => []
  | p :: ps => p.conditions ++ conditionsIn ps

end

mutual

/-- Changes every condition in a param. -/
def mapConditions (f : Condition → Condition) : Param → Param
  | .group ps => .group (mapConditionsIn f ps)
  | .condition c => .condition (f c)
  | .connective c => .connective c
  | .star => .star

def mapConditionsIn (f : Condition → Condition) : List Param → List Param
  | [] => []
  | p :: ps => p.mapConditions f :: mapConditionsIn f ps

end

def EndsInComment : Param → Prop
  | .condition c => c.value.EndsInComment
  | .group _ | .connective _ | .star => False

/-- Does the param print with a blank in front? -/
def beginsBlank : Param → Bool
  | .connective c => c ≠ .comma
  | .group _ | .condition _ | .star => false

mutual

/-- Can the param be read back, if none of its params fuse? -/
def Legible : Param → Prop
  | .group ps => LegibleIn ps
  | .condition c => c.Legible
  | .connective _ | .star => True

def LegibleIn : List Param → Prop
  | [] => True
  | p :: ps => p.Legible ∧ (ps.head?.any beginsBlank → ¬ p.EndsInComment) ∧ LegibleIn ps

end

/-- Does the param end where the text `rest` follows it? -/
def stoppedBy (p : Param) (rest : List Char) : Bool :=
  match p with
  | .condition c => c.value.stoppedBy rest
  | .group _ | .connective _ | .star => true

/-- Does the param begin like something that a word goes on with? -/
def beginsWord : Param → Bool
  | .condition c => !c.negative
  | .star => true
  | .group _ | .connective _ => false

/-- Does the param begin like something that a connective goes on with, to be none any more? -/
def beginsName : Param → Bool
  | .condition c => !c.negative && c.key.toList.head?.any isIdentifierPart
  | .star => true
  | .group _ | .connective _ => false

/-- Does the second param run into the first where they print side by side? -/
def fuses : Param → Param → Bool
  | .condition ⟨_, _, _, .single v⟩, q =>
    match v with
    | .string _ _ => false
    | .connective _ => q.beginsName
    | _ => q.beginsWord
  | _, _ => false

mutual

/-- Do no two neighbours in a group fuse? -/
def isUnfused : Param → Bool
  | .group ps => areUnfused ps
  | .connective _ | .condition _ | .star => true

def areUnfused : List Param → Bool
  | [] => true
  | p :: ps => p.isUnfused && ps.head?.all (!p.fuses ·) && areUnfused ps

end

end Param

namespace Filter

def conditions (f : Filter) : List Condition := Param.conditionsIn f.params

def isUnfused (f : Filter) : Bool := Param.areUnfused f.params

/-- What the printed filter is read as, if it is legible. -/
def reread (f : Filter) : Filter :=
  ⟨f.first.mapConditions Condition.reread, Param.mapConditionsIn Condition.reread f.rest⟩

/-- Can the filter be read back, if none of its params fuse? -/
def Legible (f : Filter) : Prop := Param.LegibleIn f.params

def EndsInComment (f : Filter) : Prop := ∃ p ∈ f.params.getLast?, p.EndsInComment

end Filter

end MetricLang
