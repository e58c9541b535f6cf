-- SUMMARY: Expressions are the texts that their grammar derives.
import MetricLang.Proofs.Compute
import MetricLang.Proofs.Sources
import MetricLang.Proofs.Tiling
import MetricLang.Proofs.Transport

/-!
# The grammar of expressions

The rules for expressions try alternatives in order and never go back on one that
has read something. Their grammar, taken as a context-free grammar, says no more
than how tokens may be put together:

    expression = term terms
    terms      = ("+" | "-") term terms  |  a signed number, factors, terms  |  nothing
    term       = operand factors
    factors    = ("*" | "/") operand factors  |  nothing
    operand    = number  |  query  |  "(" expression ")"
               | identifier "(" expression arguments
    arguments  = "," value arguments  |  ")"

`complete_iff_derives` says that the rules read all tokens of a text whenever the
grammar derives them. What comes after a part tells where it ends
(`Symbol.EndsBefore`), and where a name and a parenthesis could begin a query as
well as a call, the query goes as far as the call (`Derives.operandOfCall`).
-/

namespace MetricLang

/-- The symbols of the grammar of expressions. -/
inductive Symbol where
  | operand
  | factors
  | term
  | terms
  | expression
  | arguments

/-- The grammar derives the tokens from the symbol. A query and a value are any tokens
    that are one when they are read alone. -/
inductive Derives : Symbol → List Token → Prop
  | number {t : Token} {d : Double} (isNumber : t.isNumber)
      (finite : Double.read? t.text.toList = some d) : Derives .operand [t]
  | query {ts : List Token} {q : Query} (read : Rule.complete Query.rule ts = .ok q) :
      Derives .operand ts
  | group {t u : Token} {ts : List Token} (opened : t.isPunct '(') (inside : Derives .expression ts)
      (closed : u.isPunct ')') : Derives .operand (t :: (ts ++ [u]))
  | call {t u : Token} {ts us : List Token} (name : t.isIdentifier) (opened : u.isPunct '(')
      (inside : Derives .expression ts) (more : Derives .arguments us) :
      Derives .operand (t :: u :: (ts ++ us))
  | factorsEnd : Derives .factors []
  | factor {o : Token} {ts us : List Token} {op : Operator} (operator : Operator.IsAt true op o)
      (operand : Derives .operand ts) (more : Derives .factors us) :
      Derives .factors (o :: (ts ++ us))
  | term {ts us : List Token} (first : Derives .operand ts) (more : Derives .factors us) :
      Derives .term (ts ++ us)
  | termsEnd : Derives .terms []
  | sum {o : Token} {ts us : List Token} {op : Operator} (operator : Operator.IsAt false op o)
      (last : Derives .term ts) (more : Derives .terms us) : Derives .terms (o :: (ts ++ us))
  | signed {o : Token} {ts us : List Token} {op : Operator} {digits : List Char} {d : Double}
      (isNumber : o.isNumber) (sign : op.isMultiplicative = false)
      (spelled : o.text.toList = op.symbol :: digits) (finite : Double.read? digits = some d)
      (last : Derives .factors ts) (more : Derives .terms us) : Derives .terms (o :: (ts ++ us))
  | expression {ts us : List Token} (first : Derives .term ts) (more : Derives .terms us) :
      Derives .expression (ts ++ us)
  | argumentsEnd {t : Token} (closed : t.isPunct ')') : Derives .arguments [t]
  | argument {t : Token} {ts us : List Token} {v : Value} (comma : t.isPunct ',')
      (read : Rule.complete Value.argument ts = .ok v) (more : Derives .arguments us) :
      Derives .arguments (t :: (ts ++ us))

theorem Operator.ofSigned?_iff {t : Token} {op : Operator} {d : Double} :
    ofSigned? t = some (op, d) ↔ t.isNumber ∧ op.isMultiplicative = false ∧
      ∃ digits, t.text.toList = op.symbol :: digits ∧ Double.read? digits = some d := by
  constructor
  · intro h
    obtain ⟨sign, digits, hsign, rfl, htext, hd⟩ := ofSigned?_eq_some h
    refine ⟨isNumber_of_ofSigned? h, ?_, digits, htext, hd⟩
    revert hsign
    cases op <;> decide
  · rintro ⟨ht, hop, digits, htext, hd⟩
    cases op <;> simp_all [ofSigned?, symbol, isMultiplicative]

-- ---------------------------------------------------------------------------
-- What is read can be derived
-- ---------------------------------------------------------------------------

theorem Derives.of_itemsRead {ts us : List Token} {vs : List Value}
    (h : Rule.ItemsRead ')' Value.argument ts vs us) :
    ∃ pre, ts = pre ++ us ∧ Derives .arguments pre := by
  induction h with
  | @nil t us hclosed => exact ⟨[t], rfl, .argumentsEnd hclosed⟩
  | @cons t _ _ _ _ _ _ hcomma hfirst _ ih =>
    obtain ⟨span, rfl, hspan⟩ :=
      Value.local_argument.exists_span hfirst (Nat.le_of_lt hfirst.rest_lt) rfl
    obtain ⟨pre, rfl, hpre⟩ := ih
    exact ⟨t :: (span ++ pre), by simp,
      .argument hcomma (Rule.complete_eq_ok.mpr ⟨[], hspan, rfl⟩) hpre⟩

/-- The symbol that a phrase is derived from. -/
def Phrase.symbol : Phrase → Symbol
  | .operand _ => .operand
  | .term _ => .term
  | .factors _ _ => .factors
  | .expression _ => .expression
  | .terms _ _ => .terms

theorem Phrase.Reads.exists_derives {p : Phrase} {ts us : List Token} (h : Reads p ts us) :
    ∃ pre, ts = pre ++ us ∧ Derives p.symbol pre := by
  induction h with
  | @number t us d ht hd => exact ⟨[t], rfl, .number ht hd⟩
  | @group t u ts us e ht _ hu ih =>
    obtain ⟨pre, rfl, hpre⟩ := ih
    exact ⟨t :: (pre ++ [u]), by simp, .group ht hpre hu⟩
  | query hq =>
    obtain ⟨pre, rfl, hpre⟩ := Query.local_reads.exists_span hq (Nat.le_of_lt hq.rest_lt) rfl
    exact ⟨pre, rfl, .query (Rule.complete_eq_ok.mpr ⟨[], Query.reads_rule.mpr hpre, rfl⟩)⟩
  | @call t u ts vs us e args _ ht hu _ hargs ih =>
    obtain ⟨inside, rfl, hinside⟩ := ih
    obtain ⟨more, rfl, hmore⟩ := Derives.of_itemsRead hargs
    exact ⟨t :: u :: (inside ++ more), by simp, .call ht hu hinside hmore⟩
  | term _ _ ih ih' =>
    obtain ⟨first, rfl, hfirst⟩ := ih
    obtain ⟨more, rfl, hmore⟩ := ih'
    exact ⟨first ++ more, by simp, .term hfirst hmore⟩
  | factorsEnd => exact ⟨[], rfl, .factorsEnd⟩
  | @factor o _ _ _ _ _ _ _ hop _ _ ih ih' =>
    obtain ⟨operand, rfl, hoperand⟩ := ih
    obtain ⟨more, rfl, hmore⟩ := ih'
    exact ⟨o :: (operand ++ more), by simp, .factor hop hoperand hmore⟩
  | expression _ _ ih ih' =>
    obtain ⟨first, rfl, hfirst⟩ := ih
    obtain ⟨more, rfl, hmore⟩ := ih'
    exact ⟨first ++ more, by simp, .expression hfirst hmore⟩
  | termsEnd => exact ⟨[], rfl, .termsEnd⟩
  | @sum o _ _ _ _ _ _ _ hop _ _ ih ih' =>
    obtain ⟨last, rfl, hlast⟩ := ih
    obtain ⟨more, rfl, hmore⟩ := ih'
    exact ⟨o :: (last ++ more), by simp, .sum hop hlast hmore⟩
  | @signed o _ _ _ _ _ _ _ _ hsigned _ _ ih ih' =>
    obtain ⟨ho, hop, digits, htext, hd⟩ := Operator.ofSigned?_iff.mp hsigned
    obtain ⟨last, rfl, hlast⟩ := ih
    obtain ⟨more, rfl, hmore⟩ := ih'
    exact ⟨o :: (last ++ more), by simp, .signed ho hop htext hd hlast hmore⟩

-- ---------------------------------------------------------------------------
-- Where parts end
-- ---------------------------------------------------------------------------

namespace Symbol

/-- The punctuation that may come after what is derived. -/
def followers : Symbol → List Char
  | .expression | .terms => [',', ')']
  | .term | .factors => [',', ')', '+', '-']
  | .operand | .arguments => [',', ')', '+', '-', '*', '/']

/-- May a signed number come after what is derived, for an operator? -/
def meetsSign : Symbol → Bool
  | .expression | .terms => false
  | .term | .factors | .operand | .arguments => true

/-- May the token come after what is derived from the symbol? -/
def EndsBefore (s : Symbol) (t : Token) : Prop :=
  t.isEnd ∨ (∃ c ∈ s.followers, t.isPunct c) ∨ (s.meetsSign ∧ t.isNumber)

namespace EndsBefore

variable {s : Symbol} {t : Token}

theorem punct {c : Char} (h : t.isPunct c) (hc : c ∈ s.followers) : s.EndsBefore t :=
  .inr (.inl ⟨c, hc, h⟩)

theorem number (h : t.isNumber) (hs : s.meetsSign) : s.EndsBefore t := .inr (.inr ⟨hs, h⟩)

theorem mono {s' : Symbol} (h : s.EndsBefore t) (hsub : s.followers ⊆ s'.followers)
    (hsign : s.meetsSign → s'.meetsSign) : s'.EndsBefore t := by
  obtain h | ⟨c, hc, h⟩ | ⟨hs, h⟩ := h
  · exact .inl h
  · exact .punct h (hsub hc)
  · exact .number h (hsign hs)

theorem isPunct_eq_false {c : Char} (h : s.EndsBefore t) (hc : c ∉ s.followers) :
    t.isPunct c = false := by
  obtain h | ⟨d, hd, h⟩ | ⟨_, h⟩ := h
  · exact Token.isPunct_of_isEnd c h
  · exact Token.isPunct_of_ne h fun heq => hc (heq ▸ hd)
  · exact Token.isPunct_of_isNumber c h

theorem not_isAt {binds : Bool} (h : s.EndsBefore t)
    (hop : ∀ op : Operator, op.isMultiplicative = binds → op.symbol ∉ s.followers) (op : Operator) :
    ¬ Operator.IsAt binds op t := by
  rintro ⟨hbinds, ht⟩
  simp [h.isPunct_eq_false (hop op hbinds)] at ht

theorem ofSigned?_eq_none (h : s.EndsBefore t) (hs : s.meetsSign = false) :
    Operator.ofSigned? t = none := by
  have hnumber : t.isNumber = false := by
    obtain h | ⟨d, _, h⟩ | ⟨hsign, _⟩ := h
    · rw [← Bool.not_eq_true]
      intro hn
      simp [Token.isEnd_of_isNumber hn] at h
    · exact Phrase.isNumber_of_isPunct h
    · simp [hs] at hsign
  simp [Operator.ofSigned?, hnumber]

/-- A query goes no further than an operand. -/
theorem query (h : operand.EndsBefore t) : Query.endsBefore t := by
  have hpoint := h.isPunct_eq_false (c := '.') (by decide)
  have hword : t.isKeyword Keyword.groupBy.spelling = false := by
    obtain h | ⟨c, _, h⟩ | ⟨_, h⟩ := h
    · exact Token.isKeyword_of_isEnd _ h
    · exact Token.isKeyword_of_isPunct _ h
    · exact Token.isKeyword_of_isNumber _ h
  simp [Query.endsBefore, hpoint, hword]

end EndsBefore

end Symbol

namespace Derives

variable {ts us : List Token}

/-- After an operand come an operator or the end of the term. -/
theorem operand_endsBefore (h : Derives .factors ts) (hend : Symbol.factors.EndsBefore (peek us)) :
    Symbol.operand.EndsBefore (peek (ts ++ us)) := by
  cases h with
  | factorsEnd => exact hend.mono (by decide) (by decide)
  | @factor _ _ _ op hop _ _ =>
    refine .punct hop.2 ?_
    cases op <;> decide

/-- After a term come an operator, a signed number or the end of the expression. -/
theorem term_endsBefore (h : Derives .terms ts) (hend : Symbol.terms.EndsBefore (peek us)) :
    Symbol.term.EndsBefore (peek (ts ++ us)) := by
  cases h with
  | termsEnd => exact hend.mono (by decide) (by decide)
  | @sum _ _ _ op hop _ _ =>
    obtain ⟨hbinds, ht⟩ := hop
    refine .punct ht ?_
    revert hbinds
    cases op <;> decide
  | signed ho => exact .number ho rfl

theorem expression_endsBefore (h : Derives .arguments ts) :
    Symbol.expression.EndsBefore (peek (ts ++ us)) := by
  cases h with
  | argumentsEnd hclosed => exact .punct hclosed (by decide)
  | argument hcomma => exact .punct hcomma (by decide)

theorem word_endsBefore (h : Derives .arguments ts) : Word.endsBefore (peek (ts ++ us)) := by
  cases h with
  | argumentsEnd hclosed => exact Word.endsBefore_of_isPunct hclosed (by decide)
  | argument hcomma => exact Word.endsBefore_of_isPunct hcomma (by decide)

end Derives

-- ---------------------------------------------------------------------------
-- Conditions around phrases
-- ---------------------------------------------------------------------------

namespace Aggregator.Passes

variable {ts us : List Token}

theorem number {t : Token} (ht : t.isNumber) : Passes (t :: us) us :=
  token (Token.isPunct_of_isNumber _ ht) (Token.isPunct_of_isNumber _ ht)

theorem operator {o : Token} {binds : Bool} {op : Operator} (h : Operator.IsAt binds op o) :
    Passes (o :: us) us := by
  refine token (Token.isPunct_of_ne h.2 ?_) (Token.isPunct_of_ne h.2 ?_) <;> cases op <;> decide

theorem argument {v : Value} (h : Value.ArgumentReads ts v us) : Passes ts us := by
  cases h with
  | string hkind => exact token (by simp [Token.isPunct, hkind]) (by simp [Token.isPunct, hkind])
  | word hw => exact .word hw

/-- What stands in parentheses is passed with them. -/
theorem parentheses {t u : Token} {ts us : List Token} (ht : t.isPunct '(') (hu : u.isPunct ')')
    (h : Passes ts (u :: us)) : Passes (t :: ts) us := by
  intro depth cs ws hread
  have hopen := Token.isPunct_of_ne ht (d := ')') (by decide)
  have hclose := Token.isPunct_of_ne hu (d := '(') (by decide)
  cases hread with
  | close hclosed => simp [hopen] at hclosed
  | cons _ _ hmore =>
    obtain ⟨_, hmore⟩ := h _ _ _ hmore
    simp only [depthAfter, ht, if_true] at hmore
    cases hmore with
    | cons _ _ hmore => exact ⟨_, by simpa [depthAfter, hu, hclose] using hmore⟩

/-- Arguments are passed up to the parenthesis that closes them. -/
theorem arguments {vs : List Value} (h : Rule.ItemsRead ')' Value.argument ts vs us) :
    ∃ u, u.isPunct ')' ∧ Passes ts (u :: us) := by
  induction h with
  | nil hclosed => exact ⟨_, hclosed, .refl _⟩
  | cons hgoes hcomma hfirst _ ih =>
    obtain ⟨u, hu, hmore⟩ := ih
    refine ⟨u, hu, .cons (Token.isPunct_of_ne hcomma (by decide)) hgoes ?_⟩
    exact (argument (Value.reads_argument.mp hfirst)).trans hmore

end Aggregator.Passes

/-- A condition passes over a phrase: parentheses close again, and what holds a brace
    stands in no condition. -/
theorem Phrase.Reads.passes {p : Phrase} {ts us : List Token} (h : Reads p ts us) :
    Aggregator.Passes ts us := by
  induction h with
  | number ht => exact .number ht
  | group ht _ hu ih => exact .parentheses ht hu ih
  | query hq => exact fun depth cs ws hread => absurd hread (hq.noCondition depth cs ws)
  | call _ ht hu _ hargs ih =>
    obtain ⟨v, hv, hpass⟩ := Aggregator.Passes.arguments hargs
    exact (Aggregator.Passes.identifier ht).trans (.parentheses hu hv (ih.trans hpass))
  | term _ _ ih ih' => exact ih.trans ih'
  | factorsEnd => exact .refl _
  | factor hop _ _ ih ih' => exact (Aggregator.Passes.operator hop).trans (ih.trans ih')
  | expression _ _ ih ih' => exact ih.trans ih'
  | termsEnd => exact .refl _
  | sum hop _ _ ih ih' => exact (Aggregator.Passes.operator hop).trans (ih.trans ih')
  | signed hsigned _ _ ih ih' =>
    exact (Aggregator.Passes.number (Operator.isNumber_of_ofSigned? hsigned)).trans (ih.trans ih')

-- ---------------------------------------------------------------------------
-- What can be derived is read
-- ---------------------------------------------------------------------------

/-- No selection begins like a call, unless a colon comes after the call. -/
theorem Phrase.Reads.not_selection {t u : Token} {ts vs us ws : List Token} {e : Expression}
    {args : List Value} {s : Selection} (hu : u.isPunct '(')
    (he : Reads (.expression e) ts vs) (hargs : Rule.ItemsRead ')' Value.argument vs args us)
    (hcolon : (peek us).isPunct ':' = false) : ¬ Selection.Reads (t :: u :: ts) s ws := by
  rintro ⟨ha, _⟩
  cases ha with
  | plain _ hc => simpa [hu] using Token.isPunct_of_ne hc (d := '(') (by decide)
  | condition _ _ _ hinside hc =>
    obtain ⟨v, hv, hpass⟩ := Aggregator.Passes.arguments hargs
    obtain ⟨_, hclose⟩ := he.passes.trans hpass _ _ _ hinside
    cases hclose with
    | close _ => simp [hc] at hcolon
    | cons _ hgoes _ => exact hgoes ⟨hv, rfl⟩

/-- A query that is read inside parentheses is all of an expression that is. -/
theorem Phrase.Reads.rest_of_query {ts us vs ws : List Token} {e : Expression} {q : Query}
    {args : List Value} (he : Reads (.expression e) ts vs) (hq : Query.Reads ts q ws)
    (hargs : Rule.ItemsRead ')' Value.argument ws args us) :
    e = .ofOperand (.query q) ∧ ws = vs := by
  have hend : Symbol.expression.EndsBefore (peek ws) := by
    cases hargs with
    | nil hclosed => exact .punct hclosed (by decide)
    | cons _ hcomma _ _ => exact .punct hcomma (by decide)
  have hfactors : ∀ op, ¬ Operator.IsAt true op (peek ws) :=
    hend.not_isAt fun op => by cases op <;> decide
  have hterms : ∀ op, ¬ Operator.IsAt false op (peek ws) :=
    hend.not_isAt fun op => by cases op <;> decide
  have hread : Reads (.expression (.single (.single (.query q)))) ts ws :=
    .expression (.term (.query hq) (.factorsEnd hfactors))
      (.termsEnd hterms (hend.ofSigned?_eq_none rfl))
  exact ((Expression.reads_rule.mpr hread).unique (Expression.reads_rule.mpr he)).imp_left Eq.symm

/-- What could be read as a call is read as an operand. If it begins with a query, the
    query goes as far as the call. -/
theorem Phrase.Reads.exists_operand {t u : Token} {ts vs us : List Token} {e : Expression}
    {args : List Value} (ht : t.isIdentifier) (hu : u.isPunct '(')
    (he : Reads (.expression e) ts vs) (hargs : Rule.ItemsRead ')' Value.argument vs args us)
    (hcolon : (peek us).isPunct ':' = false) : ∃ v, Reads (.operand v) (t :: u :: ts) us := by
  by_cases hquery : ∃ q ws, Query.Reads (t :: u :: ts) q ws
  · obtain ⟨q, ws, hq⟩ := hquery
    cases hq with
    | selection hs => exact absurd hs (he.not_selection hu hargs hcolon)
    | call _ _ hbody hmore =>
      obtain ⟨_, rfl⟩ := he.rest_of_query hbody hmore
      exact ⟨_, .query (.call ht hu hbody hargs)⟩
  · exact ⟨_, .call (fun q ws hq => hquery ⟨q, ws, hq⟩) ht hu he hargs⟩

/-- The rules read something of the tokens before `us`, as what the symbol stands for. -/
def Symbol.IsRead : Symbol → List Token → List Token → Prop
  | .operand, ts, us => ∃ v, Phrase.Reads (.operand v) ts us
  | .factors, ts, us => ∀ s, ∃ t, Phrase.Reads (.factors s t) ts us
  | .term, ts, us => ∃ t, Phrase.Reads (.term t) ts us
  | .terms, ts, us => ∀ d, ∃ e, Phrase.Reads (.terms d e) ts us
  | .expression, ts, us => ∃ e, Phrase.Reads (.expression e) ts us
  | .arguments, ts, us => ∃ vs, Rule.ItemsRead ')' Value.argument ts vs us

/-- A row without the end of the input is read to its end. -/
theorem eq_nil_of_peek_isEnd {pre us : List Token} (h : ∀ t ∈ pre ++ us, t.isEnd = false)
    (hend : (peek us).isEnd) : us = [] := by
  cases us with
  | nil => rfl
  | cons t us => simp [h t (by simp)] at hend

theorem Query.reads_of_complete {ts us : List Token} {q : Query}
    (h : Rule.complete Query.rule ts = .ok q) (hts : ∀ t ∈ ts, t.isEnd = false)
    (hend : endsBefore (peek us)) : Query.Reads (ts ++ us) q us := by
  obtain ⟨vs, hread, hvs⟩ := Rule.complete_eq_ok.mp h
  have hread := Query.reads_rule.mp hread
  obtain ⟨pre, rfl, hpre⟩ := Query.local_reads.exists_span hread (Nat.le_of_lt hread.rest_lt) rfl
  obtain rfl := eq_nil_of_peek_isEnd hts hvs
  rw [List.append_nil]
  exact Query.local_reads.append hpre hend

theorem Value.reads_of_complete {ts us : List Token} {v : Value}
    (h : Rule.complete argument ts = .ok v) (hts : ∀ t ∈ ts, t.isEnd = false)
    (hend : Word.endsBefore (peek us)) : Rule.Reads argument (ts ++ us) v us := by
  obtain ⟨vs, hread, hvs⟩ := Rule.complete_eq_ok.mp h
  obtain ⟨pre, rfl, hpre⟩ := local_argument.exists_span hread (Nat.le_of_lt hread.rest_lt) rfl
  obtain rfl := eq_nil_of_peek_isEnd hts hvs
  rw [List.append_nil]
  exact local_argument.append hpre hend

/-- Rows that are derived are read, in front of anything that may come after them. -/
theorem Derives.isRead {s : Symbol} {ts us : List Token} (h : Derives s ts)
    (hts : ∀ t ∈ ts, t.isEnd = false) (hend : s.EndsBefore (peek us)) : s.IsRead (ts ++ us) us := by
  induction h generalizing us with
  | number ht hd => exact ⟨_, .number ht hd⟩
  | query hq => exact ⟨_, .query (Query.reads_of_complete hq hts hend.query)⟩
  | @group t u ts ht _ hu ih =>
    have hclosed : Symbol.expression.EndsBefore (peek (u :: us)) := .punct hu (by decide)
    obtain ⟨e, he⟩ := ih (fun t ht => hts t (by simp [ht])) hclosed
    exact ⟨.group e, .group ht (by simpa using he) hu⟩
  | call ht hu _ hmore ih ih' =>
    obtain ⟨e, he⟩ := ih (fun t ht => hts t (by simp [ht])) hmore.expression_endsBefore
    obtain ⟨args, hargs⟩ := ih' (fun t ht => hts t (by simp [ht])) (hend.mono (by decide) (by decide))
    rw [← List.append_assoc] at he
    exact he.exists_operand ht hu hargs (hend.isPunct_eq_false (by decide))
  | factorsEnd =>
    intro s
    exact ⟨s, .factorsEnd (hend.not_isAt fun op => by cases op <;> decide)⟩
  | factor hop _ hmore ih ih' =>
    intro s
    obtain ⟨v, hv⟩ := ih (fun t ht => hts t (by simp [ht])) (hmore.operand_endsBefore hend)
    obtain ⟨t, ht⟩ := ih' (fun t ht => hts t (by simp [ht])) hend (.snoc s _ v)
    exact ⟨t, .factor hop (by simpa using hv) ht⟩
  | term _ hmore ih ih' =>
    obtain ⟨v, hv⟩ := ih (fun t ht => hts t (by simp [ht])) (hmore.operand_endsBefore hend)
    obtain ⟨t, ht⟩ := ih' (fun t ht => hts t (by simp [ht])) hend (.single v)
    exact ⟨t, .term (by simpa using hv) ht⟩
  | termsEnd =>
    intro d
    exact ⟨d, .termsEnd (hend.not_isAt fun op => by cases op <;> decide)
      (hend.ofSigned?_eq_none rfl)⟩
  | sum hop _ hmore ih ih' =>
    intro d
    obtain ⟨t, ht⟩ := ih (fun t ht => hts t (by simp [ht])) (hmore.term_endsBefore hend)
    obtain ⟨e, he⟩ := ih' (fun t ht => hts t (by simp [ht])) hend (.snoc d _ t)
    exact ⟨e, .sum hop (by simpa using ht) he⟩
  | signed ho hop htext hd _ hmore ih ih' =>
    intro d
    obtain ⟨t, ht⟩ := ih (fun t ht => hts t (by simp [ht])) (hmore.term_endsBefore hend) (.single _)
    obtain ⟨e, he⟩ := ih' (fun t ht => hts t (by simp [ht])) hend (.snoc d _ t)
    exact ⟨e, .signed (Operator.ofSigned?_iff.mpr ⟨ho, hop, _, htext, hd⟩) (by simpa using ht) he⟩
  | expression _ hmore ih ih' =>
    obtain ⟨t, ht⟩ := ih (fun t ht => hts t (by simp [ht])) (hmore.term_endsBefore hend)
    obtain ⟨e, he⟩ := ih' (fun t ht => hts t (by simp [ht])) hend (.single t)
    exact ⟨e, .expression (by simpa using ht) he⟩
  | argumentsEnd hclosed => exact ⟨[], .nil hclosed⟩
  | @argument _ _ _ v hcomma hread hmore ih =>
    obtain ⟨vs, hvs⟩ := ih (fun t ht => hts t (by simp [ht])) hend
    have hv := Value.reads_of_complete hread (fun t ht => hts t (by simp [ht]))
      (hmore.word_endsBefore : Word.endsBefore (peek (_ ++ us)))
    rw [← List.append_assoc] at hv
    exact ⟨v :: vs, .cons (Token.isPunct_of_ne hcomma (by decide)) hcomma hv hvs⟩

/-- The rules read all tokens of an input if and only if the grammar derives them. -/
theorem complete_iff_derives {ts : List Token} {last : Token} (hts : ∀ t ∈ ts, t.isEnd = false)
    (hlast : last.isEnd) :
    (∃ e, Rule.complete Expression.rule (ts ++ [last]) = .ok e) ↔ Derives .expression ts := by
  constructor
  · rintro ⟨e, h⟩
    obtain ⟨us, hread, hus⟩ := Rule.complete_eq_ok.mp h
    have hread := Expression.reads_rule.mp hread
    obtain ⟨pre, heq, hpre⟩ := hread.exists_derives
    obtain ⟨shown, heq', hshown, _⟩ := hread.shows
    obtain rfl := List.append_cancel_right (heq.symm.trans heq')
    obtain ⟨rfl, _⟩ := eq_of_append_end heq hts hshown hlast hus
    exact hpre
  · intro h
    have hend : Symbol.expression.EndsBefore (peek [last]) := .inl hlast
    obtain ⟨e, he⟩ := h.isRead hts hend
    exact ⟨e, Rule.complete_eq_ok.mpr ⟨_, Expression.reads_rule.mpr he, hlast⟩⟩

/-- A text that is cut into tokens is read as an expression if and only if the grammar
    derives its tokens, those before the end of the input. -/
theorem readExpression_iff_derives {config : LexerConfig} {text : String} {ts : List Token}
    (h : tokensOf config text = .ok ts) :
    ∃ row p, ts = row ++ [.endAt p] ∧ (∀ t ∈ row, t.isEnd = false) ∧
      ((∃ e, readExpression text config = .ok e) ↔ Derives .expression row) := by
  obtain ⟨row, p, rfl, hrow⟩ := exists_row_of_tokenize (mapError_eq_ok.mp h)
  have hlast : (Token.endAt p).isEnd := rfl
  refine ⟨row, p, rfl, hrow, Iff.trans ?_ (complete_iff_derives hrow hlast)⟩
  exact exists_congr fun e => readText_eq_ok h

theorem readExpression_iff_derives_signed :
    ∃ ts, tokensOf {} "1 -2" = .ok ts ∧ ∃ row p, ts = row ++ [.endAt p] ∧
      Derives .expression row ∧ ∃ e, readExpression "1 -2" = .ok e := by
  have hline : IsLine "1 -2" := by decide
  obtain ⟨one, hone⟩ : ∃ d, Double.read? "1".toList = some d :=
    Option.isSome_iff_exists.mp (by decide +kernel)
  obtain ⟨two, htwo⟩ : ∃ d, Double.read? ['2'] = some d :=
    Option.isSome_iff_exists.mp (by decide +kernel)
  obtain ⟨t, u, v, hcut, ht, htext, hu, hutext⟩ : ∃ t u v : Token,
      cutWithin 20 .start "1 -2".toList = some [t, u, v] ∧ t.isNumber ∧ t.text = "1" ∧
        u.isNumber ∧ u.text.toList = Operator.sub.symbol :: ['2'] :=
    ⟨⟨.integer, "1", ⟨0, 1, 1⟩, 1⟩, ⟨.integer, "-2", ⟨2, 1, 3⟩, 4⟩, .endAt ⟨4, 1, 5⟩,
      by decide +kernel⟩
  have hts := tokensOf_of_cutWithin hline hcut
  obtain ⟨row, p, heq, _, hiff⟩ := readExpression_iff_derives hts
  have hrow : row = [t] ++ [u] := by
    have hlast := congrArg List.dropLast heq
    rw [List.dropLast_concat] at hlast
    exact hlast.symm
  have hfirst : Derives .term [t] := .term (.number ht (htext ▸ hone)) .factorsEnd
  have hmore : Derives .terms [u] := .signed hu rfl hutext htwo .factorsEnd .termsEnd
  have hderives : Derives .expression row := hrow ▸ .expression hfirst hmore
  exact ⟨_, hts, row, p, heq, hderives, hiff.mpr hderives⟩

end MetricLang
