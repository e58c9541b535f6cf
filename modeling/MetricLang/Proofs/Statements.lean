-- SUMMARY: Reading a text as a statement agrees with reading it as an expression and as a query.
import MetricLang.Proofs.ExpressionRoundTrip

/-!
# Statements

A statement is read as a query if all of its tokens are one, and as an expression
otherwise. An expression takes as much of a query as it can and goes on from there, so
the two could part ways. They do not: all of the tokens are a query just when they are
the expression that is nothing but this query (`Expression.complete_query_iff`).
-/

namespace MetricLang

-- ---------------------------------------------------------------------------
-- Expressions with one operand
-- ---------------------------------------------------------------------------

namespace Phrase

/-- Is what has begun all there is, if the whole has one part only? -/
def IsWhole : Phrase → Prop
  | .terms begun (.single t) => begun = .single t
  | .factors begun (.single v) => begun = .single v
  | _ => True

theorem Reads.isWhole {p : Phrase} {ts us : List Token} (h : Reads p ts us) : p.IsWhole := by
  induction h with
  | @factorsEnd ts t _ => cases t <;> trivial
  | @termsEnd ts e _ _ => cases e <;> trivial
  | @factor _ _ _ _ _ _ _ t _ _ _ _ ih =>
    cases t with
    | single _ => cases ih
    | snoc _ _ _ => trivial
  | @sum _ _ _ _ _ _ _ e _ _ _ _ ih | @signed _ _ _ _ _ _ _ _ e _ _ _ _ ih =>
    cases e with
    | single _ => cases ih
    | snoc _ _ _ => trivial
  | number _ _ | group _ _ _ _ | query _ | call _ _ _ _ _ _ | term _ _ _ _ | expression _ _ _ _ =>
    trivial

/-- What is read as an expression of one operand is read as the operand. -/
theorem Reads.operand_of_single {v : Operand} {ts us : List Token}
    (h : Reads (.expression (.ofOperand v)) ts us) : Reads (.operand v) ts us := by
  cases h with
  | @expression _ _ _ t _ hterm hterms =>
    have hwhole : Expression.single t = .single (.single v) := hterms.isWhole
    cases hwhole
    cases hterms with
    | sum _ _ hmore | signed _ _ hmore => cases hmore.isWhole
    | termsEnd _ _ =>
      cases hterm with
      | @term _ _ _ w _ hoperand hfactors =>
        have hwhole : Term.single w = .single v := hfactors.isWhole
        cases hwhole
        cases hfactors with
        | factor _ _ hmore => cases hmore.isWhole
        | factorsEnd _ => exact hoperand

end Phrase

/-- All tokens are a query if and only if they are the expression that is nothing else. -/
theorem Expression.complete_query_iff {ts : List Token} {q : Query} :
    Rule.complete Expression.rule ts = .ok (.ofOperand (.query q)) ↔
      Rule.complete Query.rule ts = .ok q := by
  simp only [Rule.complete_eq_ok, Expression.reads_rule, Query.reads_rule]
  refine exists_congr fun us => and_congr_left fun hend => ?_
  constructor
  · intro h
    cases h.operand_of_single with
    | query hq => exact hq
  · exact fun hq => Phrase.Reads.expression_of_query hq hend

-- ---------------------------------------------------------------------------
-- Whole texts
-- ---------------------------------------------------------------------------

theorem readText_of_tokensOf {config : LexerConfig} {error : SyntaxError → ParseError}
    {rule : Rule α} {text : String} {ts : List Token} (hts : tokensOf config text = .ok ts) :
    readText config error rule text = (rule.complete ts).mapError error := by
  rw [readText, hts]
  rfl

theorem readStatement_of_tokensOf {config : LexerConfig} {text : String} {ts : List Token}
    (hts : tokensOf config text = .ok ts) : readStatement text config = statementOf ts := by
  rw [readStatement, hts]
  rfl

/-- A text that is read as a query is read as the expression that is nothing else. -/
theorem readExpression_of_readQuery {text : String} {q : Query} (h : readQuery text = .ok q) :
    readExpression text = .ok (.ofOperand (.query q)) := by
  obtain ⟨ts, hts, hcomplete⟩ := bind_eq_ok.mp h
  exact (readText_eq_ok hts).mpr (Expression.complete_query_iff.mpr (mapError_eq_ok.mp hcomplete))

/-- A statement is a query if the text is read as an expression that is nothing else, and
    any other expression otherwise. A text that is no expression is no statement either, for
    the reason that it is no expression. -/
theorem readStatement_agrees (config : LexerConfig) (text : String) :
    (∀ q, readExpression text config = .ok (.ofOperand (.query q)) →
      readQuery text config = .ok q ∧ readStatement text config = .ok (.query q)) ∧
    (∀ e, readExpression text config = .ok e → (∀ q, e ≠ .ofOperand (.query q)) →
      (∃ y, readQuery text config = .error y) ∧
        readStatement text config = .ok (.expression e)) ∧
    ∀ x, readExpression text config = .error x →
      (∃ y, readQuery text config = .error y) ∧
        readStatement text config = .error (.statement x) := by
  cases hts : tokensOf config text with
  | error x =>
    have hread : ∀ {α} (error : SyntaxError → ParseError) (rule : Rule α),
        readText config error rule text = .error x := fun _ _ => by rw [readText, hts]; rfl
    have hstatement : readStatement text config = .error (.statement x) := by
      rw [readStatement, hts]
      rfl
    simp [readExpression, readQuery, hread, hstatement]
  | ok ts =>
    rw [readExpression, readQuery, readText_of_tokensOf hts, readText_of_tokensOf hts,
      readStatement_of_tokensOf hts, statementOf]
    cases hquery : Rule.complete Query.rule ts with
    | ok q =>
      rw [Expression.complete_query_iff.mpr hquery]
      refine ⟨fun r hr => ?_, fun e he hne => ?_, fun x hx => by cases hx⟩
      · cases hr
        exact ⟨rfl, rfl⟩
      · cases he
        exact absurd rfl (hne q)
    | error y =>
      have hnone : ∀ q, Rule.complete Expression.rule ts ≠ .ok (.ofOperand (.query q)) := by
        intro q hq
        simp [Expression.complete_query_iff.mp hq] at hquery
      cases hexpression : Rule.complete Expression.rule ts with
      | ok e =>
        refine ⟨fun q hq => ?_, fun e' he _ => ?_, fun x hx => by cases hx⟩
        · cases hq
          exact absurd hexpression (hnone q)
        · cases he
          exact ⟨⟨.query y, rfl⟩, rfl⟩
      | error x =>
        refine ⟨fun q hq => ?_, fun e he => ?_, fun x' hx => ?_⟩
        · cases hq
        · cases he
        · cases hx
          exact ⟨⟨.query y, rfl⟩, rfl⟩

/-- For instance a query, a number and the empty text. -/
theorem readStatement_agrees_cases :
    let one : Double := ⟨false, 0x3ff0000000000000, by decide⟩
    let q : Query := .selection ⟨some ⟨"sum", none⟩, "a", .all, none, []⟩
    (readQuery "sum:a\x7b*\x7d" = .ok q ∧ readStatement "sum:a\x7b*\x7d" = .ok (.query q)) ∧
      ((∃ y, readQuery "1" = .error y) ∧
        readStatement "1" = .ok (.expression (.ofOperand (.number one)))) ∧
      ∃ x, (∃ y, readQuery "" = .error y) ∧ readStatement "" = .error (.statement x) := by
  intro one q
  have hquery : readExpression "sum:a\x7b*\x7d" = .ok (.ofOperand (.query q)) := by
    have hname : ∀ s, s ∈ ["sum", "a"] → IsName s := by
      simp only [List.mem_cons, List.not_mem_nil, or_false, forall_eq_or_imp, forall_eq]
      exact ⟨IsName.of_read rfl rfl, IsName.of_read rfl rfl⟩
    obtain ⟨w, hw, _, hfirst, _⟩ := (hname "a" (by simp)).spells
    have hlegible : q.Legible := {
      aggregator := ⟨_, rfl, hname "sum" (by simp), by simp⟩
      metric := ⟨w, hw, hfirst⟩
      grouping := by simp
      functions := by simp }
    have hfilter : q.innermost.filter.Legible := ⟨trivial, fun _ => nofun, trivial⟩
    have hread : readQuery "sum:a\x7b*\x7d" = .ok q :=
      hlegible.readQuery (hfilter.rereads rfl) (by decide)
    exact readExpression_of_readQuery hread
  have hnumber : readExpression "1" = .ok (.ofOperand (.number one)) := by
    have hcut : cutWithin 20 .start "1".toList =
        some [⟨.integer, "1", ⟨0, 1, 1⟩, 1⟩, .endAt ⟨1, 1, 2⟩] := by decide +kernel
    have hone : Double.read? "1".toList = some one := by decide +kernel
    have hend : ∀ s : Symbol, s.EndsBefore (peek [Token.endAt ⟨1, 1, 2⟩]) := fun _ => .inl rfl
    have hterm : Phrase.Reads (.term (.single (.number one)))
        [⟨.integer, "1", ⟨0, 1, 1⟩, 1⟩, .endAt ⟨1, 1, 2⟩] [.endAt ⟨1, 1, 2⟩] :=
      .term (.number rfl hone)
        (.factorsEnd ((hend .factors).not_isAt fun op => by cases op <;> decide))
    exact readText_of_reads rfl (tokensAt_of_cutWithin hcut)
      (Expression.reads_rule.mpr (.expression hterm (hend .expression).termsEnd)) rfl
  have hempty : ∃ x, readExpression "" = .error x := by
    cases hread : readExpression "" with
    | error x => exact ⟨x, rfl⟩
    | ok e =>
      have hts : tokensOf {} "" = .ok [.endAt .start] :=
        (IsLine.tokensOf_eq_ok rfl).mpr (tokensAt_nil {} _)
      obtain ⟨us, hus, _⟩ := Rule.complete_eq_ok.mp ((readText_eq_ok hts).mp hread)
      obtain ⟨pre, heq, hpre, _⟩ := (Expression.reads_rule.mp hus).shows
      obtain rfl : us = [] := List.eq_nil_of_length_eq_zero (Nat.lt_one_iff.mp hus.rest_lt)
      rw [List.append_nil] at heq
      simp [← heq, Token.isEnd, Token.endAt] at hpre
  obtain ⟨x, hx⟩ := hempty
  exact ⟨(readStatement_agrees {} _).1 q hquery,
    (readStatement_agrees {} _).2.1 _ hnumber (by simp [Expression.ofOperand]),
    x, (readStatement_agrees {} _).2.2 x hx⟩

end MetricLang
