-- SUMMARY: Words: names and values that are spelled by several tokens in a row.
import MetricLang.Rule.Basic

/-!
# Words

The lexer cuts a name such as `a.b-1/c` in pieces. A word puts the pieces
together again: it is the longest run of identifiers, numbers and a few
punctuation characters in which every token touches the one after it.
-/

namespace MetricLang

/-- Tokens that are read as one name or value. -/
structure Word where
  first : Token
  more : List Token

namespace Word

def tokens (w : Word) : List Token := w.first :: w.more

def text (w : Word) : String := String.join (w.tokens.map (·.text))

/-- Is the word a single number? -/
def isNumber (w : Word) : Bool := w.first.isNumber && w.more = []

def startsWithIdentifier (w : Word) : Bool := w.first.isIdentifier

-- ---------------------------------------------------------------------------
-- Reading
-- ---------------------------------------------------------------------------

/-- May a word begin with the token? -/
def canStart (t : Token) : Bool :=
  t.isIdentifier || t.isNumber || t.isPunct '*' || t.isPunct '!'

/-- May a word go on with the token? -/
def canContinue (t : Token) : Bool :=
  t.isIdentifier || t.isNumber || ['.', '/', '-', '*'].any t.isPunct

/-- Splits off the tokens that belong to the same word as `prev`. -/
def split (prev : Token) : List Token → List Token × List Token
  | [] => ([], [])
  | t :: ts =>
    if prev.touches t && canContinue t then
      let (more, rest) := split t ts
      (t :: more, rest)
    else ([], t :: ts)

theorem split_append (prev : Token) (ts : List Token) :
    (split prev ts).1 ++ (split prev ts).2 = ts := by
  induction ts generalizing prev with
  | nil => rfl
  | cons t ts ih =>
    unfold split
    split
    · exact congrArg (t :: ·) (ih t)
    · rfl

theorem length_split_le (prev : Token) (ts : List Token) :
    (split prev ts).2.length ≤ ts.length := by
  have := congrArg List.length (split_append prev ts)
  simp only [List.length_append] at this
  omega

/-- Reads a word. A negation sign may begin one, but is none by itself. -/
def rule : Rule Word
  | [] => .error (.expected .word .absent)
  | t :: ts =>
    if canStart t then
      let parts := split t ts
      if t.isPunct '!' && parts.1 = [] then .error ⟨.loneNegation, (peek ts).start⟩
      else .ok ⟨⟨t, parts.1⟩, parts.2, Nat.lt_succ_of_le (length_split_le t ts)⟩
    else .error (.expected .word t)

/-- Reads a word that begins with an identifier; `what` is what the word is for. -/
def nameRule (what : Expected) : Rule String := fun ts => do
  let w ← rule ts
  if w.value.startsWithIdentifier then return w.map text
  else throw (.expected what (peek ts))

end Word

/-- Reads the name of a metric. -/
def metricName : Rule String := Word.nameRule .metricName

end MetricLang
