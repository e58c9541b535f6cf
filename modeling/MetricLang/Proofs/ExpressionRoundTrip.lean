-- SUMMARY: Reading undoes printing for expressions.
import MetricLang.Proofs.Derivation
import MetricLang.Proofs.QueryRoundTrip

/-!
# Printed expressions come back

An expression is read back from its text if its operators stand where they bind and its
numbers, its queries and the arguments of its calls are read back from their own texts. A
query ends with a brace or a parenthesis, so it is read in an expression as it is alone
(`Local.reads_closed`). A printed sum or product is read from the left: what has been read
of it goes on with what follows it.
-/

namespace MetricLang

-- ---------------------------------------------------------------------------
-- Queries
-- ---------------------------------------------------------------------------

theorem EndsInMark.append {s t : String} (hs : EndsInMark s) (ht : t = "" ∨ EndsInMark t) :
    EndsInMark (s ++ t) := by
  obtain rfl | ht := ht
  · rwa [String.append_empty]
  · exact EndsInMark.append_left ht s

theorem Selection.endsInMark_textFunctions (fs : List FunctionCall) :
    textFunctions fs = "" ∨ EndsInMark (textFunctions fs) := by
  induction fs with
  | nil => exact .inl rfl
  | cons f fs ih =>
    have hf : EndsInMark ("." ++ f.text) :=
      EndsInMark.append_left (EndsInMark.append_left (by decide) _) _
    exact .inr (EndsInMark.append hf ih)

/-- A query ends with a brace or a parenthesis. -/
theorem Query.endsInMark (q : Query) : EndsInMark q.text := by
  cases q with
  | call name body args => exact EndsInMark.append_left (by decide) _
  | selection s =>
    refine EndsInMark.append (EndsInMark.append (EndsInMark.append_left (by decide) _) ?_)
      (Selection.endsInMark_textFunctions _)
    cases s.grouping with
    | none => exact .inl rfl
    | some g =>
      rw [Selection.textGrouping]
      split
      · exact .inl rfl
      · exact .inr (EndsInMark.append_left (EndsInMark.append_left (by decide) _) _)

/-- Is the query read back from its text? -/
def Query.ReadsBack (q : Query) : Prop := ∃ q', readQuery q.text = .ok q' ∧ q' == q

/-- A query that is read back alone is read back wherever it may end. -/
theorem Query.ReadsBack.exists_reads {q : Query} (h : q.ReadsBack) (hline : IsLine q.text) :
    ∃ q', q' == q ∧ ∀ {p : Position} {rest : List Char} {us : List Token},
      endsBefore (peek us) → tokensAt {} (p.after q.text.toList) rest = .ok us →
      ∃ ts, tokensAt {} p (q.text.toList ++ rest) = .ok ts ∧ Reads ts q' us := by
  obtain ⟨q', hq', heq⟩ := h
  obtain ⟨ts, us, hts, hread, hend⟩ := exists_reads_of_readText hq'
  have hread := reads_rule.mp hread
  have hshows : Shows q.text ts us := text_eq_of_beq heq ▸ hread.shows
  exact ⟨q', heq, fun hends hus => local_reads.reads_closed ((IsLine.tokensOf_eq_ok hline).mp hts)
    hread hshows hline q.endsInMark hends hus⟩

-- ---------------------------------------------------------------------------
-- Arguments
-- ---------------------------------------------------------------------------

/-- Is the value read back as an argument from its text with a parenthesis behind it? -/
def Value.ReadsBack (v : Value) : Prop :=
  ∃ ts t us v', tokensOf {} (v.text ++ ")") = .ok ts ∧ argument.Reads ts v' (t :: us) ∧
    t.isPunct ')' ∧ v' == v

/-- A value is read back if it is legible and what is reread is equal. -/
theorem Value.readsBack_iff {v : Value} : v.ReadsBack ↔ v.Legible ∧ v.reread == v := by
  have hclose : IsLine ")" := by decide
  have hclosed := tokensAt_punct (c := ')') (p := Position.start.after v.text.toList) rfl
    (tokensAt_nil {} _)
  have hends : ∀ {t : Token} {us : List Token}, t.isPunct ')' → Rule.ItemEnds ')' [')'] (t :: us) :=
    fun ht => ⟨')', .inr rfl, rfl, ht⟩
  have htokens : ∀ {ts}, v.Legible → (tokensOf {} (v.text ++ ")") = .ok ts ↔
      tokensAt {} .start (v.text.toList ++ [')']) = .ok ts) := by
    intro ts hlegible
    have hline : IsLine (v.text ++ ")") := by simp [hlegible.isLine, hclose]
    rw [IsLine.tokensOf_eq_ok hline, String.toList_append]
    rfl
  constructor
  · rintro ⟨ts, t, us, v', hts, hread, ht, heq⟩
    have hlegible : v.Legible :=
      ((reads_argument.mp hread).legible (lexed_of_tokensOf hts).1).of_beq heq
    obtain ⟨us', hus', hreread⟩ := hlegible.reads_text (hends (isPunct_singleton _ _ _)) hclosed
    cases ((htokens hlegible).mp hts).symm.trans hus'
    obtain ⟨rfl, _⟩ := hread.unique hreread
    exact ⟨hlegible, heq⟩
  · rintro ⟨hlegible, heq⟩
    obtain ⟨ts, hts, hread⟩ := hlegible.reads_text (hends (isPunct_singleton _ _ _)) hclosed
    exact ⟨ts, _, _, _, (htokens hlegible).mpr hts, hread, isPunct_singleton _ _ _, heq⟩

-- ---------------------------------------------------------------------------
-- Operators
-- ---------------------------------------------------------------------------

namespace Operator

/-- An operator in front of a blank is a token of its own. -/
theorem fits (op : Operator) (rest : List Char) :
    (Piece.token .punct op.text [op.symbol]).Fits {} (' ' :: rest) := by
  cases op with
  | add => exact Piece.fits_sign (by decide) rfl
  | sub => exact Piece.fits_sign (by decide) rfl
  | mul => exact Piece.fits_punct (c := '*') rfl _
  | div => exact Piece.fits_punct (c := '/') rfl _

theorem tokensAt_textBetween (op : Operator) {p : Position} {rest : List Char} {us : List Token}
    (hus : tokensAt {} (p.after op.textBetween.toList) rest = .ok us) :
    ∃ o, tokensAt {} p (op.textBetween.toList ++ rest) = .ok (o :: us) ∧ o.isPunct op.symbol := by
  have hchars : op.text.toList = [op.symbol] := String.toList_singleton _
  rw [textBetween, tokensAt_after_spaced, hchars] at hus
  rw [textBetween, tokensAt_spaced, hchars]
  exact ⟨_, tokensAt_token (op.fits rest) hus, isPunct_singleton _ _ _⟩

theorem stops_textBetween (op : Operator) (rest : List Char) :
    Stops (op.textBetween.toList ++ rest) := by
  cases op <;> rfl

end Operator

-- ---------------------------------------------------------------------------
-- Expressions
-- ---------------------------------------------------------------------------

mutual

/-- Are the parts of the operand read back, and does no call hold just a query? -/
def Operand.ReadsBack : Operand → Prop
  | .number d => d.isFinite ∧ d.reread == d
  | .query q => q.ReadsBack
  | .call name body args => IsName name ∧ body.ReadsBack ∧ (∀ q, body ≠ .ofOperand (.query q)) ∧
      ∀ v ∈ args, v.ReadsBack
  | .group body => body.ReadsBack

/-- Are the operands of the term read back, and do its operators bind them? -/
def Term.ReadsBack : Term → Prop
  | .single v => v.ReadsBack
  | .snoc init op last => init.ReadsBack ∧ op.isMultiplicative = true ∧ last.ReadsBack

/-- Are the terms of the expression read back, and do its operators stand between them? -/
def Expression.ReadsBack : Expression → Prop
  | .single t => t.ReadsBack
  | .snoc init op last => init.ReadsBack ∧ op.isMultiplicative = false ∧ last.ReadsBack

end

theorem Value.itemsRead_of_readsBack {vs : List Value} (h : ∀ v ∈ vs, v.ReadsBack) {p : Position}
    {rest : List Char} {us : List Token}
    (hus : tokensAt {} ((p.after (textTail vs).toList).after [')']) rest = .ok us) :
    ∃ ts vs', tokensAt {} p ((textTail vs).toList ++ ')' :: rest) = .ok ts ∧
      Rule.ItemsRead ')' argument ts vs' us ∧ vs' == vs ∧ Symbol.expression.EndsBefore (peek ts) ∧
      Stops ((textTail vs).toList ++ ')' :: rest) := by
  rw [textTail_eq] at hus ⊢
  obtain ⟨ts, hts, hread, hends⟩ :=
    itemsRead_text (fun v hv => (readsBack_iff.mp (h v hv)).1) (.inr rfl) hus
  have hexact : ∀ d, .number d ∈ vs → d.reread == d := fun d hd => (readsBack_iff.mp (h _ hd)).2
  obtain ⟨hstops, _⟩ := hends.stops (by decide)
  obtain ⟨c, hc, _, hpeek⟩ := hends
  refine ⟨ts, _, hts, hread, ValueList.map_reread_beq hexact, .punct hpeek ?_, hstops⟩
  obtain rfl | rfl := hc <;> decide

/-- Only a query alone is equal to a query alone. -/
theorem Expression.exists_query_of_equal {q : Query} {e : Expression}
    (h : (ofOperand (.query q)).equal e) : ∃ r, e = .ofOperand (.query r) ∧ q == r := by
  match e, h with
  | .single (.single (.query r)), h => exact ⟨r, rfl, h⟩

/-- In front of what ends an expression, no more terms are read. -/
theorem Symbol.EndsBefore.termsEnd {ts : List Token} {e : Expression}
    (h : Symbol.expression.EndsBefore (peek ts)) : Phrase.Reads (.terms e e) ts ts :=
  .termsEnd (h.not_isAt fun op => by cases op <;> decide) (h.ofSigned?_eq_none rfl)

mutual

/-- A printed operand is read back in front of what may follow it. -/
theorem Operand.reads_text (v : Operand) (h : v.ReadsBack) (hline : IsLine v.text) {p : Position}
    {rest : List Char} {us : List Token} (hstops : Stops rest)
    (hends : Symbol.operand.EndsBefore (peek us))
    (hus : tokensAt {} (p.after v.text.toList) rest = .ok us) :
    ∃ ts v', tokensAt {} p (v.text.toList ++ rest) = .ok ts ∧ v'.equal v ∧
      Phrase.Reads (.operand v') ts us := by
  cases v with
  | number d =>
    obtain ⟨hfinite, hexact⟩ := h
    obtain ⟨n, hts, hn, htext⟩ := Double.tokensAt_text hfinite hstops hus
    exact ⟨_, .number d.reread, hts, hexact, .number hn (htext ▸ Double.read?_text hfinite)⟩
  | query q =>
    obtain ⟨q', heq, hreads⟩ := Query.ReadsBack.exists_reads h hline
    obtain ⟨ts, hts, hread⟩ := hreads hends.query hus
    exact ⟨ts, .query q', hts, heq, .query hread⟩
  | group body =>
    have htext : (Operand.group body).text = "(" ++ body.text ++ ")" := rfl
    rw [htext] at hline hus ⊢
    simp only [IsLine.append, Bool.and_eq_true] at hline
    simp only [String.toList_append, Position.after_append, List.append_assoc] at hus ⊢
    have hclosed := tokensAt_punct (c := ')') rfl hus
    obtain ⟨_, e, hbody, heq, hread⟩ := Expression.reads_text body h hline.1.2 rfl
      (.punct (isPunct_singleton _ _ _) (by decide)) hclosed
    have hend : ∀ {t : Token}, t.isPunct ')' → Symbol.expression.EndsBefore (peek (t :: us)) :=
      fun ht => .punct ht (by decide)
    exact ⟨_, .group e, tokensAt_punct (c := '(') rfl hbody, heq,
      .group (isPunct_singleton _ _ _) (hread (hend (isPunct_singleton _ _ _)).termsEnd)
        (isPunct_singleton _ _ _)⟩
  | call name body args =>
    obtain ⟨hname, hbody, hlone, hargs⟩ := h
    have htext : (Operand.call name body args).text =
        name ++ "(" ++ body.text ++ Value.textTail args ++ ")" := rfl
    rw [htext] at hline hus ⊢
    simp only [IsLine.append, Bool.and_eq_true] at hline
    simp only [String.toList_append, Position.after_append, List.append_assoc] at hus ⊢
    obtain ⟨_, vs, hitems, hmore, hvs, hend, hcomma⟩ := Value.itemsRead_of_readsBack hargs hus
    obtain ⟨_, e, hinside, heq, hread⟩ := Expression.reads_text body hbody hline.1.1.2 hcomma
      (hend.mono (by decide) (by decide)) hitems
    have hread := hread hend.termsEnd
    have hopened := tokensAt_punct (c := '(') rfl hinside
    obtain ⟨t, hts, ht, rfl⟩ := hname.tokensAt rfl rfl hopened
    refine ⟨_, .call t.text e vs, hts, ?_, .call ?_ ht (isPunct_singleton _ _ _) hread hmore⟩
    · simpa [Operand.equal, heq] using hvs
    · intro q ws hq
      cases hq with
      | selection hs =>
        have hcolon := hends.isPunct_eq_false (c := ':') (by decide)
        exact hread.not_selection (isPunct_singleton _ _ _) hmore hcolon hs
      | call _ _ hquery hmore' =>
        -- only a lone query could be read where the body is
        obtain ⟨rfl, _⟩ := hread.rest_of_query hquery hmore'
        obtain ⟨r, hr, _⟩ := Expression.exists_query_of_equal heq
        exact hlone r hr

/-- A printed term is read back up to what follows it, from which it goes on. -/
theorem Term.reads_text (t : Term) (h : t.ReadsBack) (hline : IsLine t.text) {p : Position}
    {rest : List Char} {vs : List Token} (hstops : Stops rest)
    (hends : Symbol.operand.EndsBefore (peek vs))
    (hvs : tokensAt {} (p.after t.text.toList) rest = .ok vs) :
    ∃ ts t', tokensAt {} p (t.text.toList ++ rest) = .ok ts ∧ t'.equal t ∧
      ∀ ⦃whole us⦄, Phrase.Reads (.factors t' whole) vs us → Phrase.Reads (.term whole) ts us := by
  cases t with
  | single v =>
    obtain ⟨ts, v', hts, heq, hread⟩ := Operand.reads_text v h hline hstops hends hvs
    exact ⟨ts, .single v', hts, heq, fun _ _ hmore => .term hread hmore⟩
  | snoc init op last =>
    obtain ⟨hinit, hop, hlast⟩ := h
    have htext : (Term.snoc init op last).text = init.text ++ op.textBetween ++ last.text := rfl
    rw [htext] at hline hvs ⊢
    simp only [IsLine.append, Bool.and_eq_true] at hline
    simp only [String.toList_append, Position.after_append, List.append_assoc] at hvs ⊢
    obtain ⟨xs, v', hoperand, heq, hread⟩ := Operand.reads_text last hlast hline.2 hstops hends hvs
    obtain ⟨o, hoperator, ho⟩ := op.tokensAt_textBetween hoperand
    have hbetween : Symbol.operand.EndsBefore (peek (o :: xs)) := .punct ho (by cases op <;> decide)
    obtain ⟨ts, t', hts, heq', hread'⟩ := Term.reads_text init hinit hline.1.1
      (op.stops_textBetween _) hbetween hoperator
    refine ⟨ts, .snoc t' op v', hts, ?_, fun _ _ hmore => hread' (.factor ⟨hop, ho⟩ hread hmore)⟩
    simp [Term.equal, heq, heq']

/-- A printed expression is read back up to what follows it, from which it goes on. -/
theorem Expression.reads_text (e : Expression) (h : e.ReadsBack) (hline : IsLine e.text)
    {p : Position} {rest : List Char} {vs : List Token} (hstops : Stops rest)
    (hends : Symbol.term.EndsBefore (peek vs))
    (hvs : tokensAt {} (p.after e.text.toList) rest = .ok vs) :
    ∃ ts e', tokensAt {} p (e.text.toList ++ rest) = .ok ts ∧ e'.equal e ∧
      ∀ ⦃whole us⦄, Phrase.Reads (.terms e' whole) vs us → Phrase.Reads (.expression whole) ts us := by
  have hfactors : ∀ op, ¬ Operator.IsAt true op (peek vs) :=
    hends.not_isAt fun op => by cases op <;> decide
  have hoperand : Symbol.operand.EndsBefore (peek vs) := hends.mono (by decide) (by decide)
  cases e with
  | single t =>
    obtain ⟨ts, t', hts, heq, hread⟩ := Term.reads_text t h hline hstops hoperand hvs
    exact ⟨ts, .single t', hts, heq, fun _ _ hmore => .expression (hread (.factorsEnd hfactors)) hmore⟩
  | snoc init op last =>
    obtain ⟨hinit, hop, hlast⟩ := h
    have htext : (Expression.snoc init op last).text = init.text ++ op.textBetween ++ last.text := rfl
    rw [htext] at hline hvs ⊢
    simp only [IsLine.append, Bool.and_eq_true] at hline
    simp only [String.toList_append, Position.after_append, List.append_assoc] at hvs ⊢
    obtain ⟨xs, t', hterm, heq, hread⟩ := Term.reads_text last hlast hline.2 hstops hoperand hvs
    obtain ⟨o, hoperator, ho⟩ := op.tokensAt_textBetween hterm
    have hbetween : Symbol.term.EndsBefore (peek (o :: xs)) :=
      .punct ho (by revert hop; cases op <;> decide)
    obtain ⟨ts, e', hts, heq', hread'⟩ := Expression.reads_text init hinit hline.1.1
      (op.stops_textBetween _) hbetween hoperator
    refine ⟨ts, .snoc e' op t', hts, ?_, fun _ _ hmore =>
      hread' (.sum ⟨hop, ho⟩ (hread (.factorsEnd hfactors)) hmore)⟩
    simp [Expression.equal, heq, heq']

end

-- ---------------------------------------------------------------------------
-- Whole texts
-- ---------------------------------------------------------------------------

/-- An expression as a statement: one that is just a query stands for the query. -/
def Expression.statement : Expression → Statement
  | .single (.single (.query q)) => .query q
  | e => .expression e

theorem Expression.statement_of_ne {e : Expression} (h : ∀ q, e ≠ ofOperand (.query q)) :
    e.statement = .expression e := by
  match e with
  | .single (.single (.query q)) => exact absurd rfl (h q)
  | .single (.single (.number _)) | .single (.single (.call ..)) | .single (.single (.group _))
  | .single (.snoc ..) | .snoc .. => rfl

/-- All of what is read as a query is an expression that is just the query. -/
theorem Phrase.Reads.expression_of_query {ts us : List Token} {q : Query} (h : Query.Reads ts q us)
    (hend : (peek us).isEnd) : Phrase.Reads (.expression (.ofOperand (.query q))) ts us := by
  have hfollows : ∀ s : Symbol, s.EndsBefore (peek us) := fun _ => .inl hend
  have hterm : Phrase.Reads (.term (.single (.query q))) ts us :=
    .term (.query h) (.factorsEnd ((hfollows .factors).not_isAt fun op => by cases op <;> decide))
  exact .expression hterm (hfollows .expression).termsEnd

/-- A printed expression is read back, alone or as a statement. -/
theorem readExpression_text (e : Expression) (h : e.ReadsBack) (hline : IsLine e.text) :
    (∃ e', readExpression e.text = .ok e' ∧ e' == e) ∧
      ∃ s, readStatement e.text = .ok s ∧ s == e.statement := by
  have hend := tokensAt_nil {} (Position.start.after e.text.toList)
  obtain ⟨ts, e', hts, heq, hgoesOn⟩ := Expression.reads_text e h hline rfl (.inl rfl) hend
  have hread := hgoesOn (Symbol.EndsBefore.termsEnd (.inl rfl))
  rw [List.append_nil] at hts
  have htokens := (IsLine.tokensOf_eq_ok hline).mpr hts
  refine ⟨⟨e', readText_of_reads hline hts (Expression.reads_rule.mpr hread) rfl, heq⟩, ?_⟩
  have hstatement : readStatement e.text = statementOf ts := by
    rw [readStatement, htokens]
    rfl
  rw [hstatement, statementOf]
  by_cases hlone : ∃ q, e = .ofOperand (.query q)
  · obtain ⟨q, rfl⟩ := hlone
    obtain ⟨q', hq', hqeq⟩ : q.ReadsBack := h
    rw [(readText_eq_ok htokens).mp hq']
    exact ⟨_, rfl, hqeq⟩
  · have hnone : ∀ q, Rule.complete Query.rule ts ≠ .ok q := by
      intro q hq
      obtain ⟨us, hquery, hend⟩ := Rule.complete_eq_ok.mp hq
      have hwhole := Phrase.Reads.expression_of_query (Query.reads_rule.mp hquery) hend
      obtain ⟨rfl, _⟩ := (Expression.reads_rule.mpr hread).unique (Expression.reads_rule.mpr hwhole)
      obtain ⟨r, hr, _⟩ := Expression.exists_query_of_equal heq
      exact hlone ⟨r, hr⟩
    rw [Expression.statement_of_ne (by simpa using hlone)]
    cases hquery : Rule.complete Query.rule ts with
    | ok q => exact absurd hquery (hnone q)
    | error _ =>
      have hcomplete := Rule.complete_eq_ok.mpr ⟨_, Expression.reads_rule.mpr hread, rfl⟩
      rw [hcomplete]
      exact ⟨_, rfl, heq⟩

/-- For instance a quotient of a call around a sum with a negative number. -/
theorem readExpression_text_call :
    let one (negative : Bool) : Double := ⟨negative, 0x3ff0000000000000, by decide⟩
    let leaf : Query := .selection ⟨some ⟨"avg", none⟩, "cpu",
      .ofParam (.condition (.tag "env" "prod")), none, []⟩
    let e : Expression := .single (.snoc (.single (.call "clamp" (.snoc (.ofOperand (.query leaf)) .add
      (.single (.number (one true)))) [.number (one false)])) .div (.number (one false)))
    (∃ e', readExpression e.text = .ok e' ∧ e' == e) ∧
      ∃ s, readStatement e.text = .ok s ∧ s == e.statement := by
  intro one leaf e
  have hone : ∀ negative, (one negative).reread == one negative := by decide +kernel
  have hname : ∀ s, s ∈ ["clamp", "avg", "cpu", "env", "prod"] → IsName s := by
    simp only [List.mem_cons, List.not_mem_nil, or_false, forall_eq_or_imp, forall_eq]
    refine ⟨?_, ?_, ?_, ?_, ?_⟩ <;> exact IsName.of_read rfl rfl
  have hleaf : leaf.ReadsBack := by
    obtain ⟨w, hw, _, hfirst, _⟩ := (hname "cpu" (by simp)).spells
    have henv := hname "env" (by simp)
    have hprod := hname "prod" (by simp)
    have hfilter : leaf.innermost.filter.Legible :=
      ⟨⟨henv.legibleKey rfl, by simp [Relation.isWord, Condition.tag],
        hprod.legibleInFilter rfl (by decide)⟩, fun _ => hprod.not_endsInComment rfl, trivial⟩
    have hlegible : leaf.Legible := {
      aggregator := ⟨_, rfl, hname "avg" (by simp), by simp⟩
      metric := ⟨w, hw, hfirst⟩
      grouping := by simp
      functions := by simp }
    exact ⟨_, hlegible.readQuery (hfilter.rereads rfl) (by decide),
      Query.rereadWith_beq (by decide) (by simp [Query.arguments, leaf])⟩
  have harg : (Value.number (one false)).ReadsBack := Value.readsBack_iff.mpr ⟨rfl, hone false⟩
  have hcall : (Operand.call "clamp" (.snoc (.ofOperand (.query leaf)) .add
      (.single (.number (one true)))) [.number (one false)]).ReadsBack :=
    ⟨hname "clamp" (by simp), ⟨hleaf, rfl, rfl, hone true⟩, by simp [Expression.ofOperand],
      List.forall_mem_singleton.mpr harg⟩
  exact readExpression_text e ⟨hcall, rfl, rfl, hone false⟩ (by decide +kernel)

end MetricLang
