-- SUMMARY: Places in a text: byte offset, line and column, and how reading characters moves them.

/-!
# Positions

A position is counted three ways at once: in UTF-8 bytes from the start of the
text, in lines, and in characters within the line. Only a line feed begins a
new line.
-/

namespace MetricLang

/-- A place in a text. Offsets count bytes from zero, lines and columns from one;
    columns count characters. -/
structure Position where
  offset : Nat
  line : Nat
  column : Nat
  deriving DecidableEq

namespace Position

/-- The beginning of every text. -/
def start : Position := ⟨0, 1, 1⟩

/-- The place after one character. -/
def next (p : Position) (c : Char) : Position :=
  if c = '\n' then ⟨p.offset + c.utf8Size, p.line + 1, 1⟩
  else ⟨p.offset + c.utf8Size, p.line, p.column + 1⟩

/-- The place after a run of characters. -/
def after (p : Position) (cs : List Char) : Position :=
  cs.foldl next p

/-- The place where `rest` begins, when it ends a text `cs` that begins at `p`. -/
def ofRest (p : Position) (cs rest : List Char) : Position :=
  p.after (cs.take (cs.length - rest.length))

/-- How a position reads in a message. -/
def text (p : Position) : String :=
  s!"line {p.line}, column {p.column}"

@[simp] theorem after_nil (p : Position) : p.after [] = p := rfl

@[simp] theorem after_cons (p : Position) (c : Char) (cs : List Char) :
    p.after (c :: cs) = (p.next c).after cs := rfl

theorem after_append (p : Position) (cs ds : List Char) :
    p.after (cs ++ ds) = (p.after cs).after ds := by
  simp [after]

/-- Cutting a text in two finds the place of the second part. -/
theorem ofRest_append (p : Position) (cs rest : List Char) :
    p.ofRest (cs ++ rest) rest = p.after cs := by
  simp [ofRest]

end Position

end MetricLang
