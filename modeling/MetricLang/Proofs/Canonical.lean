-- SUMMARY: What is read of a text is a canonical tree, down to its last value.
import MetricLang.Proofs.CanonicalText
import MetricLang.Proofs.Statements

/-!
# Canonical trees

The types of trees allow more than the rules ever read: a query without an aggregator, a
grouping without entries, lists with too many connectives, names that spell keywords,
infinite numbers, operators where they do not bind. A tree is canonical if it has none of
these at any depth. Every tree that is read of a text is.

Two of the properties are not plain from the rules. A key or value is told from keywords
by its first token, so it takes the lexer to see that no word of several tokens spells a
keyword (`Word.Reads.isKeyword_first`). And a call around an expression that is nothing
but a query is never read, because the same tokens are a call of the query
(`Phrase.Reads.canonical`).
-/

namespace MetricLang

-- ---------------------------------------------------------------------------
-- Values
-- ---------------------------------------------------------------------------

/-- Does the text spell one of the keywords, in any case? -/
def Keyword.AnySpells (ks : List Keyword) (s : String) : Prop :=
  ∃ k ∈ ks, sameLetters k.spelling s

namespace Value

/-- Is the value one that an argument can have? Words are told apart by the truth values
    and by the star, numbers are finite, and no connective stands for a value. -/
def Canonical : Value → Prop
  | .boolean _ | .string _ _ => True
  | .identifier name => '*' ∉ name.toList ∧ ¬ Keyword.AnySpells [.isTrue, .isFalse] name
  | .wildcard pattern => '*' ∈ pattern.toList ∧ ¬ Keyword.AnySpells [.isTrue, .isFalse] pattern
  | .number d => d.isFinite
  | .connective _ => False

/-- Is the value one that a condition can have? There a connective other than the comma
    stands for a value, and no name spells one. -/
def CanonicalInFilter : Value → Prop
  | .connective c => c ≠ .comma
  | .identifier name =>
    (Value.identifier name).Canonical ∧ ¬ Keyword.AnySpells [.and, .or, .isIn] name
  | v => v.Canonical

end Value

-- ---------------------------------------------------------------------------
-- Filters
-- ---------------------------------------------------------------------------

/-- Are the items canonical, with one connective between any two and no other? -/
structure ValueList.Canonical (l : ValueList) : Prop where
  items : ∀ v ∈ l.items, v.CanonicalInFilter
  connectives : l.connectives.length = l.items.length - 1

def FilterValue.Canonical : FilterValue → Prop
  | .single v => v.CanonicalInFilter
  | .list l => l.Canonical

/-- Is the value canonical, and does the key spell no operator of filters? -/
structure Condition.Canonical (c : Condition) : Prop where
  key : ¬ Keyword.AnySpells [.and, .or, .not, .isIn] c.key
  value : c.value.Canonical

mutual

/-- Are all conditions in the param canonical, those in groups included? -/
def Param.Canonical : Param → Prop
  | .group ps => Param.AllCanonical ps
  | .condition c => c.Canonical
  | .connective _ | .star => True

def Param.AllCanonical : List Param → Prop
  | [] => True
  | p :: ps => p.Canonical ∧ Param.AllCanonical ps

end

def Filter.Canonical (f : Filter) : Prop := Param.AllCanonical f.params

-- ---------------------------------------------------------------------------
-- Queries
-- ---------------------------------------------------------------------------

/-- Is there an aggregator, has the grouping entries if there is one, and is all the rest
    canonical? -/
structure Selection.Canonical (s : Selection) : Prop where
  aggregator : s.aggregator.isSome
  filter : s.filter.Canonical
  grouping : ∀ g ∈ s.grouping, g.entries ≠ []
  functions : ∀ f ∈ s.functions, ∀ v ∈ f.args, v.Canonical

def Query.Canonical : Query → Prop
  | .selection s => s.Canonical
  | .call _ body args => body.Canonical ∧ ∀ v ∈ args, v.Canonical

-- ---------------------------------------------------------------------------
-- Expressions
-- ---------------------------------------------------------------------------

mutual

/-- Are the parts of the operand canonical, and does no call hold just a query? -/
def Operand.Canonical : Operand → Prop
  | .number d => d.isFinite
  | .query q => q.Canonical
  | .call _ body args =>
    body.Canonical ∧ (∀ q, body ≠ .ofOperand (.query q)) ∧ ∀ v ∈ args, v.Canonical
  | .group body => body.Canonical

/-- Are the operands of the term canonical, and do its operators bind them? -/
def Term.Canonical : Term → Prop
  | .single v => v.Canonical
  | .snoc init op last => init.Canonical ∧ (op = .mul ∨ op = .div) ∧ last.Canonical

/-- Are the terms of the expression canonical, and do its operators stand between them? -/
def Expression.Canonical : Expression → Prop
  | .single t => t.Canonical
  | .snoc init op last => init.Canonical ∧ (op = .add ∨ op = .sub) ∧ last.Canonical

end

structure Monitor.Canonical (m : Monitor) : Prop where
  query : m.query.Canonical
  threshold : m.threshold.isFinite

def Statement.Canonical : Statement → Prop
  | .query q => q.Canonical
  | .expression e => e.Canonical

namespace Operator

variable (op : Operator)

theorem isMultiplicative_iff : op.isMultiplicative = true ↔ op = .mul ∨ op = .div := by
  cases op <;> decide

theorem not_isMultiplicative_iff : op.isMultiplicative = false ↔ op = .add ∨ op = .sub := by
  cases op <;> decide

end Operator

-- ---------------------------------------------------------------------------
-- Words that spell keywords
-- ---------------------------------------------------------------------------

theorem Keyword.ofText?_of_sameLetters {k : Keyword} {s : String}
    (h : sameLetters k.spelling s) : ofText? s = some k := by
  have ht : (⟨.identifier, s, .start, 0⟩ : Token).isKeyword k.spelling := by
    simpa [Token.isKeyword, Token.isIdentifier, sameLetters_comm] using h
  have hword := ofText?_of_isKeyword ht
  exact hword

/-- A text with a star spells no keyword. -/
theorem Keyword.not_anySpells_of_star {ks : List Keyword} {s : String} (h : '*' ∈ s.toList) :
    ¬ AnySpells ks s := by
  rintro ⟨k, _, hk⟩
  exact absurd (isAlpha_of_ofText? (ofText?_of_sameLetters hk) '*' h) (by decide)

/-- A word that spells a keyword is a token that does. -/
theorem Word.Reads.isKeyword_first {ts us : List Token} {w : Word} {k : Keyword} (h : Lexed ts)
    (hw : rule.Reads ts w us) (hk : sameLetters k.spelling w.text) :
    w.first.isKeyword k.spelling := by
  have hletters := Keyword.isAlpha_of_ofText? (Keyword.ofText?_of_sameLetters hk)
  obtain ⟨hfirst, hmore⟩ := Word.Reads.single_of_isAlpha h hw hletters
  obtain ⟨first, more⟩ := w
  obtain rfl : more = [] := hmore
  have htext : Word.text ⟨first, []⟩ = first.text := by simp [Word.text, Word.tokens]
  rw [htext, sameLetters_comm] at hk
  simp only [Token.isKeyword, hk, Bool.and_true]
  exact hfirst

-- ---------------------------------------------------------------------------
-- What is read is canonical
-- ---------------------------------------------------------------------------

namespace Value

variable {ts us : List Token} {v : Value}

theorem ArgumentReads.canonical (h : ArgumentReads ts v us) : v.Canonical := by
  cases h with
  | string _ => trivial
  | @word _ _ w _ =>
    obtain ⟨b, he⟩ | ⟨d, he, hd⟩ | ⟨he, hstar⟩ | ⟨he, hstar, hboolean, _⟩ := ofWord_cases w
    · rw [he]
      trivial
    · rw [he]
      exact hd
    · rw [he]
      exact ⟨hstar, Keyword.not_anySpells_of_star hstar⟩
    · rw [he]
      refine ⟨hstar, ?_⟩
      rintro ⟨k, hk, hspells⟩
      rw [Keyword.ofText?_of_sameLetters hspells] at hboolean
      revert hk hboolean
      cases k <;> decide

theorem eq_text_of_ofWord {w : Word} {name : String} (h : ofWord w = .identifier name) :
    name = w.text := by
  obtain ⟨b, he⟩ | ⟨d, he, _⟩ | ⟨he, _⟩ | ⟨he, _⟩ := ofWord_cases w <;> rw [he] at h <;> cases h
  rfl

/-- A name that is a value of a condition spells no connective: its first token does not. -/
theorem ArgumentReads.not_anySpells {name : String} (h : ArgumentReads ts (.identifier name) us)
    (hplain : Connective.startsWord (peek ts) = false) (hts : Lexed ts) :
    ¬ Keyword.AnySpells [.and, .or, .isIn] name := by
  rintro ⟨k, hk, hspells⟩
  generalize hv : Value.identifier name = v at h
  cases h with
  | string _ => cases hv
  | @word _ _ w hw =>
    rw [eq_text_of_ofWord hv.symm] at hspells
    have hfirst := Word.Reads.isKeyword_first hts hw hspells
    obtain ⟨rfl, _⟩ := Word.reads_rule.mp hw
    have hpeek : peek (w.tokens ++ us) = w.first := rfl
    simp only [hpeek, Connective.startsWord, Bool.or_eq_false_iff] at hplain
    simp only [List.mem_cons, List.not_mem_nil, or_false] at hk
    obtain rfl | rfl | rfl := hk <;> simp_all

theorem Reads.canonical (h : Reads ts v us) (hts : Lexed ts) : v.CanonicalInFilter := by
  cases h with
  | connective hc => exact hc.ne_comma
  | argument hplain hv =>
    have hcanonical := hv.canonical
    cases v with
    | connective c => cases hcanonical
    | identifier name => exact ⟨hcanonical, hv.not_anySpells hplain hts⟩
    | boolean _ | string _ _ | number _ | wildcard _ => exact hcanonical

theorem arguments_canonical {args : List Value} (h : Rule.ItemsRead ')' argument ts args us)
    (hts : Lexed ts) : ∀ v ∈ args, v.Canonical :=
  (h.forall_of_lexed hts fun hts hv =>
    ⟨(reads_argument.mp hv).canonical, (reads_argument.mp hv).lexed hts⟩).1

end Value

theorem ValueList.TailReads.canonical {ts us : List Token} {items : List Value}
    {cs : List Connective} (h : TailReads ts items cs us) (hts : Lexed ts) :
    ∀ v ∈ items, v.CanonicalInFilter := by
  induction h with
  | last hv _ => exact List.forall_mem_singleton.mpr (hv.canonical hts)
  | cons hv hc _ ih =>
    exact List.forall_mem_cons.mpr ⟨hv.canonical hts, ih (hc.lexed (hv.lexed hts))⟩

theorem ValueList.Reads.canonical {ts us : List Token} {l : ValueList} (h : Reads ts l us)
    (hts : Lexed ts) : l.Canonical := by
  cases h with
  | empty _ _ => exact ⟨by simp, rfl⟩
  | items _ htail =>
    have := htail.length_connectives
    exact ⟨htail.canonical hts.tail, by dsimp only; omega⟩

theorem FilterValue.Reads.canonical {ts us : List Token} {v : FilterValue} (h : Reads ts v us)
    (hts : Lexed ts) : v.Canonical := by
  cases h with
  | single hv => exact hv.canonical hts
  | list hl => exact hl.canonical hts

namespace Condition

/-- A key spells no operator, since its first token does not. -/
theorem not_anySpells_key {ts us : List Token} {w : Word} (hstarts : startsKey (peek ts))
    (hw : Word.rule.Reads ts w us) (hts : Lexed ts) :
    ¬ Keyword.AnySpells [.and, .or, .not, .isIn] w.text := by
  rintro ⟨k, hk, hspells⟩
  have hfirst := Word.Reads.isKeyword_first hts hw hspells
  obtain ⟨rfl, _⟩ := Word.reads_rule.mp hw
  have hpeek : peek (w.tokens ++ us) = w.first := rfl
  rw [hpeek] at hstarts
  have hoperator : k.isOperator := by
    revert hk
    cases k <;> decide
  simp [startsKey, Keyword.ofText?_of_isKeyword hfirst, hoperator] at hstarts

theorem PositiveReads.canonical {negative : Bool} {ts us : List Token} {c : Condition}
    (h : PositiveReads negative ts c us) (hts : Lexed ts) : c.Canonical := by
  obtain ⟨hstarts, hw, hr, hv⟩ := h
  exact ⟨not_anySpells_key hstarts hw hts, hv.canonical (hr.lexed (Word.Reads.lexed hts hw))⟩

theorem Reads.canonical {ts us : List Token} {c : Condition} (h : Reads ts c us)
    (hts : Lexed ts) : c.Canonical := by
  cases h with
  | positive h => exact h.canonical hts
  | negative _ h => exact h.canonical hts.tail

end Condition

theorem Param.SequenceReads.canonical {ts us : List Token} {ps : List Param}
    (h : SequenceReads ts ps us) (hts : Lexed ts) : AllCanonical ps := by
  induction h with
  | nil _ => trivial
  | group _ hin _ _ ihin ih => exact ⟨ihin hts.tail, ih (hin.shows.lexed hts.tail).tail⟩
  | connective hc _ ih => exact ⟨trivial, ih (hc.lexed hts)⟩
  | star _ _ ih => exact ⟨trivial, ih hts.tail⟩
  | condition hc _ ih => exact ⟨hc.canonical hts, ih (hc.lexed hts)⟩

theorem FunctionCall.Reads.canonical {ts us : List Token} {f : FunctionCall} (h : Reads ts f us)
    (hts : Lexed ts) : ∀ v ∈ f.args, v.Canonical := by
  obtain ⟨_, hargs⟩ := h
  cases hargs with
  | none _ _ => simp
  | some _ hfirst hmore =>
    exact List.forall_mem_cons.mpr
      ⟨hfirst.canonical, Value.arguments_canonical hmore (hfirst.lexed hts.tail.tail)⟩

namespace Selection

theorem FunctionsRead.canonical {ts us : List Token} {fs : List FunctionCall}
    (h : FunctionsRead ts fs us) (hts : Lexed ts) : ∀ f ∈ fs, ∀ v ∈ f.args, v.Canonical := by
  induction h with
  | nil _ => simp
  | cons _ hf _ ih =>
    exact List.forall_mem_cons.mpr ⟨hf.canonical hts.tail, ih (hf.shows.lexed hts.tail)⟩

theorem GroupingReads.canonical {ts us : List Token} {g : Option Grouping}
    (h : GroupingReads ts g us) : ∀ x ∈ g, x.entries ≠ [] := by
  cases h with
  | none _ => simp
  | some hg =>
    obtain ⟨_, _, _, _⟩ := hg
    simp

theorem Reads.canonical {ts us : List Token} {s : Selection} (h : Reads ts s us)
    (hts : Lexed ts) : s.Canonical := by
  obtain ⟨ha, hmetric, _, _, hfilter, _, hg, hfs⟩ := h
  have hws := (Word.Reads.lexed (ha.shows.lexed hts) hmetric).tail
  have hxs := (hfilter.shows.lexed hws).tail
  exact ⟨rfl, hfilter.canonical hws, hg.canonical, hfs.canonical (hg.shows.lexed hxs)⟩

end Selection

theorem Query.Reads.canonical {ts us : List Token} {q : Query} (h : Reads ts q us)
    (hts : Lexed ts) : q.Canonical := by
  induction h with
  | selection hs => exact hs.canonical hts
  | call _ _ hinside hmore ih =>
    have hbody := hts.tail.tail
    exact ⟨ih hbody, Value.arguments_canonical hmore (hinside.shows.lexed hbody)⟩

namespace Phrase

/-- A part is canonical, and a part that has begun to be is canonical when it ends. -/
def Canonical : Phrase → Prop
  | .operand v => v.Canonical
  | .term t => t.Canonical
  | .factors begun whole => begun.Canonical → whole.Canonical
  | .expression e => e.Canonical
  | .terms begun whole => begun.Canonical → whole.Canonical

/-- Whatever phrase is read of a text is canonical. Inside a call of an expression no query
    stands alone: read by itself it would make the call one of a query. -/
theorem Reads.canonical {p : Phrase} {ts us : List Token} (h : Reads p ts us)
    (hts : Lexed ts) : p.Canonical := by
  induction h with
  | number _ hd => exact Double.isFinite_of_read? hd
  | group _ _ _ ih => exact ih hts.tail
  | query hq => exact hq.canonical hts
  | call hnone ht hu he hargs ih =>
    have hbody := hts.tail.tail
    refine ⟨ih hbody, ?_, Value.arguments_canonical hargs (he.shows.lexed hbody)⟩
    rintro q rfl
    cases he.operand_of_single with
    | query hq => exact hnone _ _ (.call ht hu hq hargs)
  | term hv _ ih ih' => exact ih' (hv.shows.lexed hts) (ih hts)
  | factorsEnd _ => exact id
  | @factor _ _ _ _ op _ _ _ hop hv _ ih ih' =>
    intro hbegun
    have hbinds := op.isMultiplicative_iff.mp hop.1
    exact ih' (hv.shows.lexed hts.tail) ⟨hbegun, hbinds, ih hts.tail⟩
  | expression ht _ ih ih' => exact ih' (ht.shows.lexed hts) (ih hts)
  | termsEnd _ _ => exact id
  | @sum _ _ _ _ op _ _ _ hop ht _ ih ih' =>
    intro hbegun
    have hstands := op.not_isMultiplicative_iff.mp hop.1
    exact ih' (ht.shows.lexed hts.tail) ⟨hbegun, hstands, ih hts.tail⟩
  | @signed _ _ _ _ op _ _ _ _ hsigned ht _ ih ih' =>
    intro hbegun
    obtain ⟨_, hop, _, _, hd⟩ := Operator.ofSigned?_iff.mp hsigned
    have hterm := ih hts.tail (Double.isFinite_of_read? hd)
    obtain ⟨_, _, hshows⟩ := ht.shows
    exact ih' (hshows.lexed hts.tail) ⟨hbegun, op.not_isMultiplicative_iff.mp hop, hterm⟩

end Phrase

theorem Monitor.Reads.canonical {ts us : List Token} {m : Monitor} (h : Reads ts m us)
    (hts : Lexed ts) : m.Canonical := by
  obtain ⟨_, _, hwindow, _, _, hquery, _, _, hd⟩ := h
  have hvs := (Word.Reads.lexed hts.tail.tail hwindow).tail.tail
  exact ⟨hquery.canonical hvs, Double.isFinite_of_read? hd⟩

-- ---------------------------------------------------------------------------
-- Whole texts
-- ---------------------------------------------------------------------------

/-- What reads canonical values of the tokens of texts reads canonical values of texts. -/
theorem canonical_of_readText {rule : Rule α} {error : SyntaxError → ParseError} {P : α → Prop}
    (hrule : ∀ {ts us x}, Lexed ts → rule.Reads ts x us → P x) {text : String} {x : α}
    (h : readText {} error rule text = .ok x) : P x := by
  obtain ⟨ts, us, hts, hread, _⟩ := exists_reads_of_readText h
  exact hrule (lexed_of_tokensOf hts).1 hread

theorem Query.canonical_of_readQuery {text : String} {q : Query} (h : readQuery text = .ok q) :
    q.Canonical :=
  canonical_of_readText (fun hts hq => (reads_rule.mp hq).canonical hts) h

theorem Expression.canonical_of_readExpression {text : String} {e : Expression}
    (h : readExpression text = .ok e) : e.Canonical :=
  canonical_of_readText (fun hts he => (reads_rule.mp he).canonical hts) h

/-- A statement is a query or an expression that is read of the text. -/
theorem Statement.canonical_of_readStatement {text : String} {s : Statement}
    (h : readStatement text = .ok s) : s.Canonical := by
  obtain ⟨ts, hts, hs⟩ := bind_eq_ok.mp h
  have hts := mapError_eq_ok.mp hts
  unfold statementOf at hs
  split at hs
  · next q hq =>
    cases hs
    exact Query.canonical_of_readQuery ((readText_eq_ok hts).mpr hq)
  · split at hs
    · next e he =>
      cases hs
      exact Expression.canonical_of_readExpression ((readText_eq_ok hts).mpr he)
    · cases hs

/-- Whatever is read of a text is canonical, at every depth. -/
theorem read_canonical (text : String) :
    (∀ f, readFilter text = .ok f → f.Canonical) ∧
    (∀ q, readQuery text = .ok q → q.Canonical) ∧
    (∀ e, readExpression text = .ok e → e.Canonical) ∧
    (∀ m, readMonitor text = .ok m → m.Canonical) ∧
    ∀ s, readStatement text = .ok s → s.Canonical := by
  refine ⟨fun f h => ?_, fun q h => Query.canonical_of_readQuery h,
    fun e h => Expression.canonical_of_readExpression h, fun m h => ?_,
    fun s h => Statement.canonical_of_readStatement h⟩
  · exact canonical_of_readText (fun hts hf => (Filter.reads_rule.mp hf).canonical hts) h
  · exact canonical_of_readText (fun hts hm => (Monitor.reads_rule.mp hm).canonical hts) h

/-- For instance a filter with a list, a query in a call, an expression in a call, a monitor
    and a number. -/
theorem read_canonical_cases :
    (∃ f, readFilter "env:(a OR b*)" = .ok f ∧ f.Canonical) ∧
    (∃ q, readQuery "f(sum:a\x7b*\x7d by \x7bb\x7d, 1)" = .ok q ∧ q.Canonical) ∧
    (∃ e, readExpression "f(2 * sum:a\x7b*\x7d) -1" = .ok e ∧ e.Canonical) ∧
    (∃ m, readMonitor "avg(last_5m):sum:a\x7b*\x7d > 90" = .ok m ∧ m.Canonical) ∧
    ∃ s, readStatement "1" = .ok s ∧ s.Canonical := by
  obtain ⟨f, hf⟩ := exists_eq_ok (e := readFilter "env:(a OR b*)") (by decide +kernel)
  obtain ⟨q, hq⟩ := exists_eq_ok (e := readQuery "f(sum:a\x7b*\x7d by \x7bb\x7d, 1)")
    (by decide +kernel)
  obtain ⟨e, he⟩ := exists_eq_ok (e := readExpression "f(2 * sum:a\x7b*\x7d) -1")
    (by decide +kernel)
  obtain ⟨m, hm⟩ := exists_eq_ok (e := readMonitor "avg(last_5m):sum:a\x7b*\x7d > 90")
    (by decide +kernel)
  obtain ⟨s, hs⟩ := exists_eq_ok (e := readStatement "1") (by decide +kernel)
  exact ⟨⟨f, hf, (read_canonical _).1 f hf⟩, ⟨q, hq, (read_canonical _).2.1 q hq⟩,
    ⟨e, he, (read_canonical _).2.2.1 e he⟩, ⟨m, hm, (read_canonical _).2.2.2.1 m hm⟩,
    s, hs, (read_canonical _).2.2.2.2 s hs⟩

end MetricLang
