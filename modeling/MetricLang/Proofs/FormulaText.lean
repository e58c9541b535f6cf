-- SUMMARY: The text of a formula and its variables tell the text of the expression.
import MetricLang.Proofs.CanonicalText
import MetricLang.Proofs.Statements
import MetricLang.Proofs.VariableNames

/-!
# Reading formulas

A variable looks like any other name, and a formula may have names of calls and words in
arguments that look the same. It can be told all the same which words are variables:
a call opens a parenthesis after its name, and arguments come after commas.
`Formula.restore` goes through the text of a formula once and puts texts back in place
of the variables. For an expression that was read it finds the text of the expression
(`Expression.Clear.restore_formula`).
-/

namespace MetricLang

-- ---------------------------------------------------------------------------
-- Words without separators
-- ---------------------------------------------------------------------------

/-- The characters that names, numbers and the words of arguments are made of. -/
def isWordChar (c : Char) : Bool := isIdentifierPart c || isNumberChar c || ['/', '!'].contains c

theorem isWordChar_of_isIdentifierPart {c : Char} (h : isIdentifierPart c) : isWordChar c := by
  simp [isWordChar, h]

theorem isWordChar_of_isNumberChar {c : Char} (h : isNumberChar c) : isWordChar c := by
  simp [isWordChar, h]

theorem isWordChar_of_isAlpha {c : Char} (h : c.isAlpha) : isWordChar c :=
  isWordChar_of_isIdentifierPart (isIdentifierPart_of_start (isIdentifierStart_of_isAlpha h))

theorem Quote.not_isWordChar (q : Quote) : isWordChar q.char = false := by
  cases q <;> decide

/-- Is the text made of the characters of words? -/
def IsWordText (s : String) : Prop := ∀ c ∈ s.toList, isWordChar c

theorem Double.isWordText_text {d : Double} (h : d.isFinite) : IsWordText d.text := fun c hc =>
  isWordChar_of_isNumberChar (isNumberChar_of_mem_text h c hc)

theorem Lexed.isIdentifierPart_of_mem {t : Token} {us : List Token} (h : Lexed (t :: us))
    (ht : t.isIdentifier) : ∀ c ∈ t.text.toList, isIdentifierPart c := by
  obtain ⟨_, kind, text, taken, rest, rfl, hfit, _⟩ := h.exists_text (Token.isEnd_of_isIdentifier ht)
  obtain rfl : kind = .identifier := by simpa [Token.isIdentifier] using ht
  obtain ⟨q, hkind, _⟩ | ⟨hkind, _⟩ | ⟨_, hread⟩ | ⟨hkind, _⟩ := Lexeme.kind_cases hfit.2
  · cases hkind
  · simp at hkind
  · exact isIdentifierPart_of_readIdentifier? hread
  · cases hkind

/-- The tokens that words are made of have no other characters. -/
theorem Lexed.isWordText {t : Token} {us : List Token} (h : Lexed (t :: us))
    (ht : Word.canStart t ∨ Word.canContinue t) : IsWordText t.text := by
  have hcases : t.isIdentifier ∨ t.isNumber ∨ ∃ p ∈ ['*', '!', '.', '/', '-'], t.isPunct p := by
    simp only [Word.canStart, Word.canContinue, Bool.or_eq_true, List.any_cons, List.any_nil,
      Bool.false_eq_true, or_false] at ht
    simp only [List.mem_cons, List.not_mem_nil, or_false, exists_eq_or_imp, exists_eq_left]
    grind
  obtain hname | hnumber | ⟨p, hp, hpunct⟩ := hcases
  · exact fun c hc => isWordChar_of_isIdentifierPart (h.isIdentifierPart_of_mem hname c hc)
  · exact fun c hc => isWordChar_of_isNumberChar (h.isNumberChar_of_mem hnumber c hc)
  · have hchars : ∀ p ∈ ['*', '!', '.', '/', '-'], isWordChar p :=
      List.all_iff_forall_prop.mp (by decide)
    have htext : t.text = String.singleton p := by
      simp only [Token.isPunct, decide_eq_true_eq] at hpunct
      exact hpunct.2
    simpa [IsWordText, htext] using hchars p hp

theorem Word.Reads.isWordText {ts us : List Token} {w : Word} (h : Lexed ts)
    (hw : rule.Reads ts w us) : IsWordText w.text := by
  obtain ⟨rfl, hstart, hruns, _⟩ := reads_rule.mp hw
  have htokens : ∀ t ∈ w.tokens, canStart t ∨ canContinue t :=
    List.forall_mem_cons.mpr ⟨.inl hstart, fun t ht => .inr (canContinue_of_runs hruns t ht)⟩
  rw [IsWordText, toList_text]
  generalize w.tokens = ts at h htokens
  induction ts with
  | nil => simp
  | cons t ts ih =>
    obtain ⟨ht, hts⟩ := List.forall_mem_cons.mp htokens
    rw [List.map_cons, List.flatten_cons, List.forall_mem_append]
    exact ⟨h.isWordText ht, ih h.tail hts⟩

-- ---------------------------------------------------------------------------
-- Clear expressions
-- ---------------------------------------------------------------------------

/-- Is the value in quotes or made of the characters of words? -/
def Value.Clear : Value → Prop
  | .string _ _ => True
  | v => IsWordText v.text

theorem Value.Clear.of_isWordText {v : Value} (h : IsWordText v.text) : v.Clear := by
  cases v with
  | string _ _ => trivial
  | boolean _ | identifier _ | number _ | wildcard _ | connective _ => exact h

mutual

/-- Is it told what are names and what are separators in the text of the operand, but for
    its queries? -/
def Operand.Clear : Operand → Prop
  | .number d => d.isFinite
  | .query _ => True
  | .call name body args => IsWordText name ∧ body.Clear ∧ ∀ v ∈ args, v.Clear
  | .group body => body.Clear

def Term.Clear : Term → Prop
  | .single v => v.Clear
  | .snoc init _ last => init.Clear ∧ last.Clear

def Expression.Clear : Expression → Prop
  | .single t => t.Clear
  | .snoc init _ last => init.Clear ∧ last.Clear

end

theorem Value.clear_of_reads {ts us : List Token} {v : Value} (hts : Lexed ts)
    (h : argument.Reads ts v us) : v.Clear ∧ Lexed us := by
  refine ⟨?_, (reads_argument.mp h).lexed hts⟩
  cases reads_argument.mp h with
  | string _ => trivial
  | @word _ _ w hw =>
    have htext := Word.Reads.isWordText hts hw
    obtain ⟨b, he⟩ | ⟨d, he, hd⟩ | ⟨he, _⟩ | ⟨he, _⟩ := ofWord_cases w
    · have hspelling : ∀ b, IsWordText (Value.boolean b).text := by
        intro b c hc
        cases b <;> exact isWordChar_of_isAlpha
          (Keyword.isAlpha_of_ofText? (Keyword.ofText?_spelling _) c hc)
      exact he ▸ .of_isWordText (hspelling b)
    · exact he ▸ .of_isWordText (Double.isWordText_text hd)
    · exact he ▸ .of_isWordText htext
    · exact he ▸ .of_isWordText htext

/-- What is read in a text is clear. The end of a part is if what had begun is. -/
def Phrase.IsClear : Phrase → Prop
  | .operand v => v.Clear
  | .term t => t.Clear
  | .factors s t => s.Clear → t.Clear
  | .expression e => e.Clear
  | .terms d e => d.Clear → e.Clear

theorem Phrase.Reads.isClear {p : Phrase} {ts us : List Token} (h : p.Reads ts us)
    (hts : Lexed ts) : p.IsClear ∧ Lexed us := by
  induction h with
  | number _ hd => exact ⟨Double.isFinite_of_read? hd, hts.tail⟩
  | group _ _ _ ih =>
    obtain ⟨hbody, hus⟩ := ih hts.tail
    exact ⟨hbody, hus.tail⟩
  | query hq => exact ⟨trivial, hq.shows.lexed hts⟩
  | call _ hname _ _ hargs ih =>
    obtain ⟨hbody, hvs⟩ := ih hts.tail.tail
    obtain ⟨hargs, hus⟩ := hargs.forall_of_lexed hvs Value.clear_of_reads
    exact ⟨⟨hts.isWordText (.inl (by simp [Word.canStart, hname])), hbody, hargs⟩, hus⟩
  | term _ _ ih ih' | expression _ _ ih ih' =>
    obtain ⟨hfirst, hvs⟩ := ih hts
    obtain ⟨hmore, hus⟩ := ih' hvs
    exact ⟨hmore hfirst, hus⟩
  | factorsEnd _ | termsEnd _ _ => exact ⟨id, hts⟩
  | factor _ _ _ ih ih' | sum _ _ _ ih ih' =>
    obtain ⟨hlast, hvs⟩ := ih hts.tail
    obtain ⟨hmore, hus⟩ := ih' hvs
    exact ⟨fun hbegun => hmore ⟨hbegun, hlast⟩, hus⟩
  | signed hsigned _ _ ih ih' =>
    obtain ⟨_, _, _, _, _, hread⟩ := Operator.ofSigned?_eq_some hsigned
    have hfinite := Double.isFinite_of_read? hread
    obtain ⟨hlast, hvs⟩ := ih hts.tail
    obtain ⟨hmore, hus⟩ := ih' hvs
    exact ⟨fun hbegun => hmore ⟨hbegun, hlast hfinite⟩, hus⟩

-- ---------------------------------------------------------------------------
-- Putting texts back
-- ---------------------------------------------------------------------------

namespace Formula

/-- Where in the text of a formula a character stands. -/
inductive Place where
  | operand (word : List Char)
  | afterOperand
  | operator
  | argument
  | quoted (q : Quote)
  | escaped (q : Quote)

/-- Where the character after one stands that follows an operand. -/
def Place.following (c : Char) : Place :=
  if c = ' ' then .operator else if c = ',' then .argument else .afterOperand

section

-- What the words of operands stand for that no parenthesis opens after.
variable (value : List Char → List Char)

/-- What a character gives at a place, and where the next one stands. The word of an
    operand gives nothing before its end. -/
def Place.step : Place → Char → List Char × Place
  | .operand word, c =>
    if isWordChar c then ([], .operand (word ++ [c]))
    else if c = '(' then (word ++ [c], .operand [])
    else (value word ++ [c], .following c)
  | .afterOperand, c => ([c], .following c)
  | .operator, c => ([c], if c = ' ' then .operand [] else .operator)
  | .argument, c =>
    ([c], match Quote.ofChar? c with
      | some q => .quoted q
      | none => if c = ')' then .afterOperand else .argument)
  | .quoted q, c =>
    ([c], if c = '\\' then .escaped q else if c = q.char then .argument else .quoted q)
  | .escaped q, c => ([c], .quoted q)

/-- The characters with the words of operands replaced, from a place on. -/
def replaced : Place → List Char → List Char
  | .operand word, [] => value word
  | _, [] => []
  | p, c :: cs => (p.step value c).1 ++ replaced (p.step value c).2 cs

theorem replaced_cons (p : Place) (c : Char) (cs : List Char) :
    replaced value p (c :: cs) = (p.step value c).1 ++ replaced value (p.step value c).2 cs := by
  cases p <;> rfl

variable {value}

-- Words

/-- Does nothing come next that goes on with an operand? -/
def EndsOperand (rest : List Char) : Prop := ∀ c ∈ rest.head?, isWordChar c = false ∧ c ≠ '('

theorem replaced_word {word cs : List Char} (h : ∀ c ∈ cs, isWordChar c) (rest : List Char) :
    replaced value (.operand word) (cs ++ rest) = replaced value (.operand (word ++ cs)) rest := by
  induction cs generalizing word with
  | nil => simp
  | cons c cs ih =>
    obtain ⟨hc, hcs⟩ := List.forall_mem_cons.mp h
    rw [List.cons_append, replaced_cons, Place.step, if_pos hc, ih hcs, List.append_assoc]
    rfl

theorem replaced_operand {word rest : List Char} (h : EndsOperand rest) :
    replaced value (.operand word) rest = value word ++ replaced value .afterOperand rest := by
  cases rest with
  | nil => simp [replaced]
  | cons c rest =>
    obtain ⟨hword, hopen⟩ := h c rfl
    simp [replaced_cons, Place.step, hword, hopen]

theorem replaced_call {word : List Char} (rest : List Char) :
    replaced value (.operand word) ('(' :: rest) =
      word ++ '(' :: replaced value (.operand []) rest := by
  have hopen : isWordChar '(' = false := by decide
  simp [replaced_cons, Place.step, hopen]

-- Strings and arguments

theorem replaced_quoted {q : Quote} {c : Char} (hslash : c ≠ '\\') (rest : List Char) :
    replaced value (.quoted q) (c :: rest) =
      c :: replaced value (if c = q.char then .argument else .quoted q) rest := by
  simp [replaced_cons, Place.step, hslash]

/-- An escaped text goes up to the quote that closes it. -/
theorem replaced_escape (q : Quote) (cs rest : List Char) :
    replaced value (.quoted q) (q.escape cs ++ q.char :: rest) =
      q.escape cs ++ q.char :: replaced value .argument rest := by
  refine q.through_escape (fun c rest => ?_) (fun c rest hslash hquote => ?_) (fun rest => ?_) cs rest
  · simp [replaced_cons, Place.step]
  · rw [replaced_quoted hslash, if_neg hquote]
  · rw [replaced_quoted q.char_ne_backslash, if_pos rfl]

theorem replaced_argument {c : Char} (hquote : Quote.ofChar? c = none) (hclose : c ≠ ')')
    (rest : List Char) :
    replaced value .argument (c :: rest) = c :: replaced value .argument rest := by
  simp [replaced_cons, Place.step, hquote, hclose]

theorem replaced_argumentWord {cs : List Char} (h : ∀ c ∈ cs, isWordChar c) (rest : List Char) :
    replaced value .argument (cs ++ rest) = cs ++ replaced value .argument rest := by
  induction cs with
  | nil => rfl
  | cons c cs ih =>
    obtain ⟨hc, hcs⟩ := List.forall_mem_cons.mp h
    have hclose : c ≠ ')' := by
      rintro rfl
      exact absurd hc (by decide)
    have hne : ∀ q : Quote, c ≠ q.char := by
      rintro q rfl
      simp [q.not_isWordChar] at hc
    have hquote : Quote.ofChar? c = none := by simp [Quote.ofChar?, hne]
    rw [List.cons_append, replaced_argument hquote hclose, ih hcs, List.cons_append]

theorem replaced_value {v : Value} (h : v.Clear) (rest : List Char) :
    replaced value .argument (v.text.toList ++ rest) =
      v.text.toList ++ replaced value .argument rest := by
  cases v with
  | string s q =>
    have hopen : replaced value .argument (q.char :: (q.escape s.toList ++ q.char :: rest)) =
        q.char :: replaced value (.quoted q) (q.escape s.toList ++ q.char :: rest) := by
      simp [replaced_cons, Place.step, Quote.ofChar?_char]
    simp [Value.text, q.toList_wrap, hopen, replaced_escape]
  | boolean _ | identifier _ | number _ | wildcard _ | connective _ => exact replaced_argumentWord h rest

theorem replaced_textTail {vs : List Value} (h : ∀ v ∈ vs, v.Clear) (rest : List Char) :
    replaced value .argument ((Value.textTail vs).toList ++ ')' :: rest) =
      (Value.textTail vs).toList ++ ')' :: replaced value .afterOperand rest := by
  induction vs with
  | nil => simp [Value.textTail, replaced_cons, Place.step, show Quote.ofChar? ')' = none by decide]
  | cons v vs ih =>
    obtain ⟨hv, hvs⟩ := List.forall_mem_cons.mp h
    have hcomma (cs : List Char) : replaced value .argument (',' :: ' ' :: cs) =
        ',' :: ' ' :: replaced value .argument cs := by
      rw [replaced_argument (by decide) (by decide), replaced_argument (by decide) (by decide)]
    simp [Value.textTail, hcomma, replaced_value hv, ih hvs]

/-- What comes after the body of a call ends the operands in it. -/
theorem endsOperand_textTail (vs : List Value) (rest : List Char) :
    EndsOperand ((Value.textTail vs).toList ++ ')' :: rest) := by
  cases vs <;> simp [EndsOperand, Value.textTail] <;> decide

theorem replaced_arguments {vs : List Value} (h : ∀ v ∈ vs, v.Clear) (rest : List Char) :
    replaced value .afterOperand ((Value.textTail vs).toList ++ ')' :: rest) =
      (Value.textTail vs).toList ++ ')' :: replaced value .afterOperand rest := by
  cases vs with
  | nil => simp [Value.textTail, replaced_cons, Place.step, Place.following]
  | cons v vs =>
    -- The first comma is where the arguments begin, and stands for itself there.
    have hcomma (cs : List Char) : replaced value .afterOperand (',' :: cs) =
        replaced value .argument (',' :: cs) := by
      simp [replaced_cons, Place.step, Place.following, show Quote.ofChar? ',' = none by decide]
    have hcs : (Value.textTail (v :: vs)).toList = ',' :: (" " ++ v.text ++ Value.textTail vs).toList := by
      simp [Value.textTail]
    rw [hcs, List.cons_append, hcomma, ← List.cons_append, ← hcs, replaced_textTail h]

-- Operators and operands

theorem endsOperand_textBetween (op : Operator) (rest : List Char) :
    EndsOperand (op.textBetween.toList ++ rest) := by
  cases op <;> simp [EndsOperand, Operator.textBetween] <;> decide

theorem replaced_textBetween (op : Operator) (rest : List Char) :
    replaced value .afterOperand (op.textBetween.toList ++ rest) =
      op.textBetween.toList ++ replaced value (.operand []) rest := by
  cases op <;> simp [Operator.textBetween, Operator.text, Operator.symbol, replaced_cons,
    Place.step, Place.following]

/-- Do the words that queries print as stand for other texts, and numbers for themselves? -/
structure Restores (value : List Char → List Char) (leaf whole : Query → String)
    (qs : List Query) : Prop where
  number : ∀ d : Double, d.isFinite → value d.text.toList = d.text.toList
  query : ∀ q ∈ qs, IsWordText (leaf q) ∧ value (leaf q).toList = (whole q).toList

theorem Restores.append {leaf whole : Query → String} {qs qs' : List Query}
    (h : Restores value leaf whole (qs ++ qs')) :
    Restores value leaf whole qs ∧ Restores value leaf whole qs' := by
  obtain ⟨hqs, hqs'⟩ := List.forall_mem_append.mp h.query
  exact ⟨⟨h.number, hqs⟩, ⟨h.number, hqs'⟩⟩

theorem replaced_wordText {s t : String} {rest : List Char} (hs : IsWordText s)
    (hvalue : value s.toList = t.toList) (hrest : EndsOperand rest) :
    replaced value (.operand []) (s.toList ++ rest) =
      t.toList ++ replaced value .afterOperand rest := by
  rw [replaced_word hs, List.nil_append, replaced_operand hrest, hvalue]

variable {leaf whole : Query → String}

mutual

theorem replaced_operandText (v : Operand) (h : v.Clear) (hleaf : Restores value leaf whole v.leaves)
    {rest : List Char} (hrest : EndsOperand rest) :
    replaced value (.operand []) ((v.textWith leaf).toList ++ rest) =
      (v.textWith whole).toList ++ replaced value .afterOperand rest := by
  cases v with
  | number d => exact replaced_wordText (Double.isWordText_text h) (hleaf.number d h) hrest
  | query q =>
    obtain ⟨hword, hvalue⟩ := hleaf.query q (List.mem_singleton_self q)
    exact replaced_wordText hword hvalue hrest
  | call name body args =>
    obtain ⟨hname, hbody, hargs⟩ := h
    have hinside := replaced_expressionText body hbody hleaf (endsOperand_textTail args rest)
    simp [Operand.textWith, replaced_word hname, replaced_call, hinside, replaced_arguments hargs]
  | group body =>
    have hinside := replaced_expressionText body h hleaf (endsOperand_textTail [] rest)
    have hclose : replaced value .afterOperand (')' :: rest) = _ :=
      replaced_arguments (List.forall_mem_nil _) rest
    simp only [Value.textTail, String.toList_empty, List.nil_append] at hinside hclose
    simp [Operand.textWith, replaced_call, hinside, hclose]

theorem replaced_termText (t : Term) (h : t.Clear) (hleaf : Restores value leaf whole t.leaves)
    {rest : List Char} (hrest : EndsOperand rest) :
    replaced value (.operand []) ((t.textWith leaf).toList ++ rest) =
      (t.textWith whole).toList ++ replaced value .afterOperand rest := by
  cases t with
  | single v => exact replaced_operandText v h hleaf hrest
  | snoc init op last =>
    obtain ⟨hinit, hlast⟩ := hleaf.append
    have hfirst := replaced_termText init h.1 hinit
      (endsOperand_textBetween op ((last.textWith leaf).toList ++ rest))
    have hmore := replaced_operandText last h.2 hlast hrest
    simp [Term.textWith, hfirst, replaced_textBetween, hmore]

theorem replaced_expressionText (e : Expression) (h : e.Clear)
    (hleaf : Restores value leaf whole e.leaves) {rest : List Char} (hrest : EndsOperand rest) :
    replaced value (.operand []) ((e.textWith leaf).toList ++ rest) =
      (e.textWith whole).toList ++ replaced value .afterOperand rest := by
  cases e with
  | single t => exact replaced_termText t h hleaf hrest
  | snoc init op last =>
    obtain ⟨hinit, hlast⟩ := hleaf.append
    have hfirst := replaced_expressionText init h.1 hinit
      (endsOperand_textBetween op ((last.textWith leaf).toList ++ rest))
    have hmore := replaced_termText last h.2 hlast hrest
    simp [Expression.textWith, hfirst, replaced_textBetween, hmore]

end

end

-- ---------------------------------------------------------------------------
-- Formulas of expressions
-- ---------------------------------------------------------------------------

theorem isAlpha_of_mem_variableName {i : Nat} {c : Char} (h : c ∈ (variableName i).toList) :
    c.isAlpha := by
  have halpha : c.isAlpha = (c.isUpper || c.isLower) := rfl
  rw [halpha, isLower_of_mem_variableName h, Bool.or_true]

/-- What a word stands for: a variable for its text, any other word for itself. -/
def meaning (f : Formula) (word : List Char) : List Char :=
  ((f.bindings.lookup (String.ofList word)).getD (String.ofList word)).toList

/-- The text of the formula with the text of each variable in place of it. -/
def restore (f : Formula) : String :=
  String.ofList (replaced f.meaning (.operand []) f.text.toList)

example : restore ⟨"a(a + 1, a, 'a')", [("a", "sum:m")]⟩ = "a(sum:m + 1, a, 'a')" := by
  decide +kernel

/-- Only variables, which are made of letters, have a text. -/
theorem lookup_eq_none {texts : List String} {s : String} {c : Char} (hc : c ∈ s.toList)
    (hletter : c.isAlpha = false) : (nameTexts texts).lookup s = none := by
  rw [List.lookup_eq_none_iff]
  intro entry hentry
  have hname := List.mem_map_of_mem (f := Prod.fst) hentry
  rw [map_fst_nameTexts, List.mem_map] at hname
  obtain ⟨i, _, hi⟩ := hname
  refine bne_iff_ne.mpr fun heq => ?_
  rw [heq, ← hi] at hc
  simp [isAlpha_of_mem_variableName hc] at hletter

end Formula

namespace Expression

theorem restores_formula (e : Expression) :
    Formula.Restores e.formula.meaning (fun q => e.variableFor q.text) Query.text e.leaves := by
  refine ⟨fun d hd => ?_, fun q hq => ⟨?_, ?_⟩⟩
  · obtain ⟨c, hc, hdigit⟩ := (Double.isNumeral_finiteText d).exists_digit
    rw [← Double.toList_text hd] at hc
    have hnone : e.formula.bindings.lookup d.text = none :=
      Formula.lookup_eq_none hc (isAlpha_of_isDigit hdigit)
    simp [Formula.meaning, hnone]
  · exact fun c hc => isWordChar_of_isAlpha (Formula.isAlpha_of_mem_variableName hc)
  · simp [Formula.meaning, lookup_variableFor (mem_queries.mpr ⟨q, hq, rfl⟩)]

/-- A formula tells the text of its expression if that is clear. -/
theorem Clear.restore_formula {e : Expression} (h : e.Clear) : e.formula.restore = e.text := by
  have hends : Formula.EndsOperand [] := by simp [Formula.EndsOperand]
  have hrestored := Formula.replaced_expressionText e h e.restores_formula hends
  rw [List.append_nil, ← text_formula] at hrestored
  simp [Formula.restore, hrestored, Formula.replaced, text]

end Expression

/-- What was read as an expression is clear. -/
theorem Expression.clear_of_readExpression {s : String} {e : Expression}
    (h : readExpression s = .ok e) : e.Clear := by
  obtain ⟨ts, us, hts, hread, _⟩ := exists_reads_of_readText h
  exact ((Expression.reads_rule.mp hread).isClear (lexed_of_tokensOf hts).1).1

/-- A formula tells the text of an expression that was read: two of them print alike if
    their formulas have the same text and the same variables. -/
theorem text_eq_of_formula {s s' : String} {e e' : Expression} (h : readExpression s = .ok e)
    (h' : readExpression s' = .ok e') (htext : e.formula.text = e'.formula.text)
    (hvariables : ∀ name, e.formula.bindings.lookup name = e'.formula.bindings.lookup name) :
    e.text = e'.text := by
  have hmeaning : e.formula.meaning = e'.formula.meaning := by
    funext word
    rw [Formula.meaning, Formula.meaning, hvariables]
  calc
    e.text = e.formula.restore := (Expression.clear_of_readExpression h).restore_formula.symm
    _ = e'.formula.restore := by rw [Formula.restore, Formula.restore, htext, hmeaning]
    _ = e'.text := (Expression.clear_of_readExpression h').restore_formula

/-- For instance two queries that print with the same number. -/
theorem text_eq_of_formula_rounded :
    let e : Expression := .ofOperand (.query (.tagged (.number .small) []))
    let e' : Expression := .ofOperand (.query (.tagged (.number (.zero false)) []))
    readExpression "sum:m\x7ba:0.0000000000000001\x7d" = .ok e ∧
      readExpression "sum:m\x7ba:0\x7d" = .ok e' ∧ e.formula.text = "a" ∧
      e.formula.text = e'.formula.text ∧
      (∀ name, e.formula.bindings.lookup name = e'.formula.bindings.lookup name) ∧
      e.text = e'.text := by
  intro e e'
  have h := readExpression_of_readQuery readQuery_small
  have h' := readExpression_of_readQuery readQuery_zero
  have hformula : e.formula = e'.formula := by decide +kernel
  have htext : e.formula.text = e'.formula.text := by rw [hformula]
  have hvariables : ∀ name, e.formula.bindings.lookup name = e'.formula.bindings.lookup name :=
    fun name => by rw [hformula]
  exact ⟨h, h', by decide +kernel, htext, hvariables, text_eq_of_formula h h' htext hvariables⟩

end MetricLang
