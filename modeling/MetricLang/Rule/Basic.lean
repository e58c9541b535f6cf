-- SUMMARY: Grammar rules: what reading from a list of tokens yields, and the rules for single tokens.
import MetricLang.Rule.Error
import MetricLang.Keyword

/-!
# Rules

A rule reads a value from the front of a list of tokens and leaves the rest, or
fails with a syntax error. Success always takes at least one token. What a rule
read carries that fact, so that rules that repeat or call themselves end because
the tokens do.

`Read n α` is what was read by a rule that had `n` tokens. Reading goes on from
it by `Read.next`, which counts from the same `n`.
-/

namespace MetricLang

/-- A value that was read, and the tokens after it, of which fewer than `n` are left. -/
structure Read (n : Nat) (α : Type) where
  value : α
  rest : List Token
  rest_lt : rest.length < n

/-- Reads a value from the front of the tokens, or says why it cannot. -/
abbrev Rule (α : Type) : Type := (ts : List Token) → Except SyntaxError (Read ts.length α)

/-- Reads a value from the front of the tokens if one is there. -/
abbrev Probe (α : Type) : Type := (ts : List Token) → Option (Read ts.length α)

namespace Read

/-- A value that took the one token before `ts`. -/
def ofTail (value : α) (ts : List Token) : Read (ts.length + 1) α :=
  ⟨value, ts, Nat.lt_succ_self _⟩

def map (f : α → β) (x : Read n α) : Read n β := ⟨f x.value, x.rest, x.rest_lt⟩

/-- The same tokens read, with another value. -/
def as (x : Read n α) (value : β) : Read n β := ⟨value, x.rest, x.rest_lt⟩

/-- What was read after `x`, counted from where `x` began. -/
def andThen (x : Read n α) (y : Read x.rest.length β) : Read n β :=
  ⟨y.value, y.rest, Nat.lt_trans y.rest_lt x.rest_lt⟩

/-- Reads on after `x`. -/
def next (x : Read n α) (rule : Rule β) : Except SyntaxError (Read n β) := do
  let y ← rule x.rest
  return x.andThen y

/-- Reads on after `x` if there is something to read. -/
def next? (x : Read n α) (probe : Probe β) : Option (Read n β) :=
  (probe x.rest).map x.andThen

@[simp] theorem map_value (f : α → β) (x : Read n α) : (x.map f).value = f x.value := rfl
@[simp] theorem map_rest (f : α → β) (x : Read n α) : (x.map f).rest = x.rest := rfl
@[simp] theorem as_value (x : Read n α) (v : β) : (x.as v).value = v := rfl
@[simp] theorem as_rest (x : Read n α) (v : β) : (x.as v).rest = x.rest := rfl
@[simp] theorem andThen_value (x : Read n α) (y : Read x.rest.length β) :
    (x.andThen y).value = y.value := rfl
@[simp] theorem andThen_rest (x : Read n α) (y : Read x.rest.length β) :
    (x.andThen y).rest = y.rest := rfl

end Read

-- ---------------------------------------------------------------------------
-- Looking ahead
-- ---------------------------------------------------------------------------

/-- The token that comes next. -/
def peek (ts : List Token) : Token := ts.headD .absent

/-- The token `n` places ahead; past the last token there is only that one. -/
def peekAt (ts : List Token) (n : Nat) : Token := (ts[n]?.or ts.getLast?).getD .absent

theorem peekAt_zero (ts : List Token) : peekAt ts 0 = peek ts := by
  cases ts <;> rfl

/-- The next token, and the tokens after it. The end of the input is never passed. -/
def advance : List Token → Token × List Token
  | [] => (.absent, [])
  | t :: ts => (t, if t.isEnd then t :: ts else ts)

/-- An error in words of the caller's own at the next token. -/
def SyntaxError.atNext (ts : List Token) (message : String) : SyntaxError :=
  ⟨.other message, (peek ts).start⟩

-- ---------------------------------------------------------------------------
-- Single tokens
-- ---------------------------------------------------------------------------

namespace Probe

/-- Takes the next token if it satisfies `p`. The end of the input is never taken. -/
def take (p : Token → Bool) : Probe Token
  | [] => none
  | t :: ts => if !t.isEnd && p t then some (.ofTail t ts) else none

def punct (c : Char) : Probe Token := take (·.isPunct c)

/-- Takes the punctuation `c` if it touches `prev`. -/
def adjacentPunct (prev : Token) (c : Char) : Probe Token :=
  take fun t => t.isPunct c && prev.touches t

def keyword (k : Keyword) : Probe Token := take (·.isKeyword k.spelling)

end Probe

/-- Reads on after `x` if the punctuation `c` touches it: `joined` if it does, else
    `alone`. -/
def Read.ifJoined (x : Read n Token) (c : Char) (joined alone : α) : Read n α :=
  match x.next? (Probe.adjacentPunct x.value c) with
  | some t => t.as joined
  | none => x.as alone

namespace Rule

/-- Takes the next token, which has to satisfy `p`. -/
def expect (what : Expected) (p : Token → Bool) : Rule Token := fun ts =>
  match Probe.take p ts with
  | some t => .ok t
  | none => .error (.expected what (peek ts))

def punct (c : Char) : Rule Token := expect (.punct c) (·.isPunct c)

def keyword (spelling : String) : Rule Token := expect (.keyword spelling) (·.isKeyword spelling)

def identifier : Rule Token := expect .identifier (·.isIdentifier)

-- ---------------------------------------------------------------------------
-- Whole inputs
-- ---------------------------------------------------------------------------

/-- Succeeds where the input ends. -/
def expectEnd (ts : List Token) : Except SyntaxError Unit :=
  if (peek ts).isEnd then .ok () else .error ⟨.trailing (peek ts), (peek ts).start⟩

/-- Reads all of the tokens. -/
def complete (rule : Rule α) (ts : List Token) : Except SyntaxError α := do
  let x ← rule ts
  expectEnd x.rest
  return x.value

-- ---------------------------------------------------------------------------
-- Lists
-- ---------------------------------------------------------------------------

/-- Reads the rest of a list after its first item: more items, each after a comma,
    and the closing bracket. -/
def moreItems (close : Char) (what : Expected) (item : Rule α) (ts : List Token) :
    Except SyntaxError (Read ts.length (List α)) :=
  match Probe.punct close ts with
  | some closed => .ok (closed.as [])
  | none =>
    match Probe.punct ',' ts with
    | none => .error (.expected what (peek ts))
    | some comma => do
      let x ← comma.next item
      have := x.rest_lt
      let more ← moreItems close what item x.rest
      return (x.andThen more).map (x.value :: ·)
termination_by ts.length

end Rule

end MetricLang
