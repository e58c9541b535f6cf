-- SUMMARY: Quoted strings: reading the characters between the quotes, and escaping them.

/-!
# Quoted strings

Between quotes, a backslash takes away the meaning of a quote or of a backslash;
before any other character it is a character like any other and stays. A bare
line feed ends no string and may not occur in one. Escaping writes a backslash
only where leaving it out would change what is read.
-/

namespace MetricLang

inductive Quote where
  | double
  | single
  deriving DecidableEq

namespace Quote

def char : Quote → Char
  | .double => '\x22'
  | .single => '\x27'

-- ---------------------------------------------------------------------------
-- Reading
-- ---------------------------------------------------------------------------

/-- Reads up to the closing quote: the characters meant, and what follows it. -/
def readBody? (q : Quote) : List Char → Option (List Char × List Char)
  | [] => none
  | '\\' :: c :: cs =>
    (readBody? q cs).map fun (value, rest) =>
      (if c = q.char ∨ c = '\\' then c :: value else '\\' :: c :: value, rest)
  | c :: cs =>
    if c = q.char then some ([], cs)
    else if c = '\\' ∨ c = '\n' then none
    else (readBody? q cs).map fun (value, rest) => (c :: value, rest)

/-- Reads a string in this kind of quotes. -/
def read? (q : Quote) : List Char → Option (List Char × List Char)
  | [] => none
  | c :: cs => if c = q.char then q.readBody? cs else none

-- ---------------------------------------------------------------------------
-- Escaping
-- ---------------------------------------------------------------------------

/-- What is written between quotes for the given characters. A backslash is
    doubled where it would otherwise act on the character after it. -/
def escape (q : Quote) : List Char → List Char
  | [] => []
  | c :: cs =>
    if c = q.char then '\\' :: c :: escape q cs
    else if c = '\\' then
      match cs with
      | [] => ['\\', '\\']
      | next :: _ =>
        if next = q.char ∨ next = '\\' then '\\' :: '\\' :: escape q cs else '\\' :: escape q cs
    else c :: escape q cs

/-- A string in quotes, as it is written. -/
def wrap (q : Quote) (value : String) : String :=
  String.ofList (q.char :: (q.escape value.toList ++ [q.char]))

theorem length_readBody? {q : Quote} {cs value rest : List Char}
    (h : q.readBody? cs = some (value, rest)) : rest.length < cs.length := by
  fun_induction readBody? q cs generalizing value rest with
  | case1 => cases h
  | case2 c cs ih =>
    obtain ⟨⟨v, r⟩, hr, he⟩ := Option.map_eq_some_iff.mp h
    cases he
    have := ih hr
    simp only [List.length_cons]
    omega
  | case3 c cs =>
    cases h
    simp
  | case4 => cases h
  | case5 c cs _ _ _ ih =>
    obtain ⟨⟨v, r⟩, hr, he⟩ := Option.map_eq_some_iff.mp h
    cases he
    have := ih hr
    simp only [List.length_cons]
    omega

end Quote

end MetricLang
