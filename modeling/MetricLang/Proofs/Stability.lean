-- SUMMARY: What is read of a text prints a text that is read as what prints the same.
import MetricLang.Proofs.RoundedText

/-!
# Stable texts

What is read of a text need not come back equal from its own text, since numbers print
with fifteen decimals at most. It comes back with the numbers that print, so that what
comes back prints the same text. The one exception are params that print side by side and
run into each other.

Expressions are read back by `Expression.reads_text`, which is about trees that come back
equal. It is applied to the tree with its numbers as they print: that tree prints the same
text and comes back equal from it (`Phrase.Reads.settles`).
-/

namespace MetricLang

-- ---------------------------------------------------------------------------
-- Trees without params that fuse
-- ---------------------------------------------------------------------------

/-- Do no params in the filter of the query run into each other? -/
def Query.isUnfused (q : Query) : Bool := q.innermost.filter.isUnfused

/-- Do no params in the queries of the expression run into each other? -/
def Expression.isUnfused (e : Expression) : Bool := e.leaves.all Query.isUnfused

def Statement.isUnfused : Statement → Bool
  | .query q => q.isUnfused
  | .expression e => e.isUnfused

-- ---------------------------------------------------------------------------
-- What is read back is a line
-- ---------------------------------------------------------------------------

theorem Operator.isLine_textBetween (op : Operator) : IsLine op.textBetween := by
  cases op <;> decide

theorem Query.ReadsBack.isLine {q : Query} (h : q.ReadsBack) : IsLine q.text := by
  obtain ⟨q', hq', heq⟩ := h
  obtain ⟨ts, us, hts, hread, _⟩ := exists_reads_of_readText hq'
  obtain ⟨hlegible, hfilter⟩ := (reads_rule.mp hread).legible (lexed_of_tokensOf hts).1
  rw [← text_eq_of_beq heq]
  exact hlegible.isLine (Param.isLine_textList _ hfilter)

mutual

theorem Operand.isLine_text (v : Operand) (h : v.ReadsBack) : IsLine v.text := by
  have hopen : IsLine "(" := by decide
  have hclose : IsLine ")" := by decide
  cases v with
  | number d =>
    obtain ⟨w, hw, _⟩ := Double.exists_word h.1
    exact hw.isLine
  | query q => exact Query.ReadsBack.isLine h
  | group body =>
    have htext : (Operand.group body).text = "(" ++ body.text ++ ")" := rfl
    simp [htext, hopen, hclose, Expression.isLine_text body h]
  | call name body args =>
    obtain ⟨hname, hbody, _, hargs⟩ := h
    have htext : (Operand.call name body args).text =
        name ++ "(" ++ body.text ++ Value.textTail args ++ ")" := rfl
    have hargs := Value.isLine_textTail fun v hv => (Value.readsBack_iff.mp (hargs v hv)).1
    simp [htext, hopen, hclose, hname.isLine, hargs, Expression.isLine_text body hbody]

theorem Term.isLine_text (t : Term) (h : t.ReadsBack) : IsLine t.text := by
  cases t with
  | single v => exact Operand.isLine_text v h
  | snoc init op last =>
    obtain ⟨hinit, _, hlast⟩ := h
    have htext : (Term.snoc init op last).text = init.text ++ op.textBetween ++ last.text := rfl
    simp [htext, op.isLine_textBetween, Term.isLine_text init hinit, Operand.isLine_text last hlast]

theorem Expression.isLine_text (e : Expression) (h : e.ReadsBack) : IsLine e.text := by
  cases e with
  | single t => exact Term.isLine_text t h
  | snoc init op last =>
    obtain ⟨hinit, _, hlast⟩ := h
    have htext : (Expression.snoc init op last).text = init.text ++ op.textBetween ++ last.text := rfl
    simp [htext, op.isLine_textBetween, Expression.isLine_text init hinit, Term.isLine_text last hlast]

end

-- ---------------------------------------------------------------------------
-- What is read comes back as it prints
-- ---------------------------------------------------------------------------

/-- A legible value is read back with its number as it prints. -/
theorem Value.Legible.settles {v : Value} (h : v.Legible) :
    (v.mapNumbers Double.reread).ReadsBack := by
  rw [← reread_eq_mapNumbers]
  cases v with
  | number d =>
    refine readsBack_iff.mpr ⟨Double.isFinite_reread h, reread_beq fun d' hd => ?_⟩
    cases hd
    exact Double.reread_reread h
  | boolean _ | identifier _ | string _ _ | wildcard _ =>
    exact readsBack_iff.mpr ⟨h, reread_beq nofun⟩
  | connective _ => cases h

/-- A query is read back with its numbers as they print. -/
theorem Query.Reads.settles {ts us : List Token} {q : Query} (h : Reads ts q us) (hts : Lexed ts)
    (hunfused : q.isUnfused) : (q.mapNumbers Double.reread).ReadsBack := by
  have hread := h.readQuery_self hts hunfused
  rw [← (h.canonical hts).text_mapNumbers] at hread
  exact ⟨_, hread, (canonical_of_readQuery hread).beq_self⟩

theorem Expression.mapNumbers_ne_query {f : Double → Double} {e : Expression}
    (h : ∀ q, e ≠ .ofOperand (.query q)) (q : Query) : e.mapNumbers f ≠ .ofOperand (.query q) := by
  match e with
  | .single (.single (.query r)) => exact absurd rfl (h r)
  | .single (.single (.number _)) | .single (.single (.call ..)) | .single (.single (.group _))
  | .single (.snoc ..) | .snoc .. => nofun

/-- Is the operand read back with its numbers as they print, if no params in it fuse? -/
def Operand.Settles (v : Operand) : Prop :=
  v.leaves.all Query.isUnfused → (v.mapNumbers Double.reread).ReadsBack

def Term.Settles (t : Term) : Prop :=
  t.leaves.all Query.isUnfused → (t.mapNumbers Double.reread).ReadsBack

def Expression.Settles (e : Expression) : Prop :=
  e.isUnfused → (e.mapNumbers Double.reread).ReadsBack

theorem Operand.settles_number {d : Double} (h : d.isFinite) : (Operand.number d).Settles :=
  fun _ => ⟨Double.isFinite_reread h, Double.reread_reread h⟩

theorem Term.Settles.snoc {init : Term} {op : Operator} {last : Operand} (hinit : init.Settles)
    (hop : op.isMultiplicative) (hlast : last.Settles) : (Term.snoc init op last).Settles := by
  intro hunfused
  rw [Term.leaves, List.all_append, Bool.and_eq_true] at hunfused
  exact ⟨hinit hunfused.1, hop, hlast hunfused.2⟩

theorem Expression.Settles.snoc {init : Expression} {op : Operator} {last : Term}
    (hinit : init.Settles) (hop : op.isMultiplicative = false) (hlast : last.Settles) :
    (Expression.snoc init op last).Settles := by
  intro hunfused
  rw [Expression.isUnfused, Expression.leaves, List.all_append, Bool.and_eq_true] at hunfused
  exact ⟨hinit hunfused.1, hop, hlast hunfused.2⟩

namespace Phrase

/-- A part settles, and a part that has begun to settles when it ends. -/
def Settles : Phrase → Prop
  | .operand v => v.Settles
  | .term t => t.Settles
  | .factors begun whole => begun.Settles → whole.Settles
  | .expression e => e.Settles
  | .terms begun whole => begun.Settles → whole.Settles

/-- Whatever phrase is read of a text is read back with its numbers as they print. -/
theorem Reads.settles {p : Phrase} {ts us : List Token} (h : Reads p ts us) (hts : Lexed ts) :
    p.Settles := by
  induction h with
  | number _ hd => exact Operand.settles_number (Double.isFinite_of_read? hd)
  | group _ _ _ ih => exact ih hts.tail
  | query hq => exact fun hunfused => hq.settles hts (by simpa [Operand.leaves] using hunfused)
  | call hnone ht hu he hargs ih =>
    intro hunfused
    have hbody := hts.tail.tail
    obtain ⟨_, hlone, _⟩ := (Reads.call hnone ht hu he hargs).canonical hts
    obtain ⟨hvalues, _⟩ := hargs.forall_of_lexed (he.shows.lexed hbody) Value.legible_of_reads
    exact ⟨hts.isName ht (Word.endsBefore_of_isPunct hu (by decide)), ih hbody hunfused,
      Expression.mapNumbers_ne_query hlone, List.forall_mem_map.mpr fun v hv => (hvalues v hv).settles⟩
  | term hv _ ih ih' => exact ih' (hv.shows.lexed hts) (ih hts)
  | factorsEnd _ => exact id
  | factor hop hv _ ih ih' =>
    intro hbegun
    exact ih' (hv.shows.lexed hts.tail) (hbegun.snoc hop.1 (ih hts.tail))
  | expression ht _ ih ih' => exact ih' (ht.shows.lexed hts) (ih hts)
  | termsEnd _ _ => exact id
  | sum hop ht _ ih ih' =>
    intro hbegun
    exact ih' (ht.shows.lexed hts.tail) (hbegun.snoc hop.1 (ih hts.tail))
  | signed hsigned ht _ ih ih' =>
    intro hbegun
    obtain ⟨_, hop, _, _, hd⟩ := Operator.ofSigned?_iff.mp hsigned
    have hterm := ih hts.tail (Operand.settles_number (Double.isFinite_of_read? hd))
    obtain ⟨_, _, hshows⟩ := ht.shows
    exact ih' (hshows.lexed hts.tail) (hbegun.snoc hop hterm)

end Phrase

-- ---------------------------------------------------------------------------
-- Whole texts
-- ---------------------------------------------------------------------------

theorem Filter.exists_readFilter_text {s : String} {f : Filter} (h : readFilter s = .ok f)
    (hunfused : f.isUnfused) : ∃ f', readFilter f.text = .ok f' ∧ f'.text = f.text := by
  obtain ⟨ts, us, hts, hread, hend⟩ := exists_reads_of_readText h
  have hts := (lexed_of_tokensOf hts).1
  have hread := reads_rule.mp hread
  obtain ⟨hlegible, _, hlast⟩ := hread.legible hts
  have hrem : ¬ f.EndsInComment := by
    rintro ⟨p, hp, hcomment⟩
    simp [hlast p hp hcomment] at hend
  refine ⟨f.reread, Legible.readFilter hlegible hunfused hrem, ?_⟩
  rw [reread_eq_mapNumbers hread.regular]
  exact Canonical.text_mapNumbers (hread.canonical hts)

theorem Query.exists_readQuery_text {s : String} {q : Query} (h : readQuery s = .ok q)
    (hunfused : q.isUnfused) : ∃ q', readQuery q.text = .ok q' ∧ q'.text = q.text :=
  ⟨_, readQuery_text_of_readQuery h hunfused, (canonical_of_readQuery h).text_mapNumbers⟩

theorem Expression.exists_readExpression_text {s : String} {e : Expression}
    (h : readExpression s = .ok e) (hunfused : e.isUnfused) :
    ∃ e', readExpression e.text = .ok e' ∧ e'.text = e.text := by
  have htext := text_mapNumbers e (canonical_of_readExpression h)
  obtain ⟨ts, us, hts, hread, _⟩ := exists_reads_of_readText h
  have hback := (reads_rule.mp hread).settles (lexed_of_tokensOf hts).1 hunfused
  have hline := isLine_text _ hback
  have hend := tokensAt_nil {} (Position.start.after (e.mapNumbers Double.reread).text.toList)
  obtain ⟨vs, e', hvs, heq, hgoesOn⟩ := reads_text _ hback hline rfl (.inl rfl) hend
  have hreread := hgoesOn (Symbol.EndsBefore.termsEnd (.inl rfl))
  rw [List.append_nil] at hvs
  have hwhole : readExpression (e.mapNumbers Double.reread).text = .ok e' :=
    readText_of_reads hline hvs (reads_rule.mpr hreread) rfl
  rw [htext] at hwhole
  exact ⟨e', hwhole, (text_eq_of_equal _ _ heq).trans htext⟩

namespace Monitor

/-- A monitor that is read of a text can be read back, and so can its query and its filter. -/
theorem Reads.legible {ts us : List Token} {m : Monitor} (h : Reads ts m us) (hts : Lexed ts) :
    m.Legible ∧ m.query.Legible ∧ m.query.innermost.filter.Legible := by
  obtain ⟨ht, hu, hwindow, _, _, hquery, _, _, hd⟩ := h
  have hws := hts.tail.tail
  obtain ⟨w, hw, _⟩ := Word.Reads.spells hws hwindow
  have hname := hts.isName ht (Word.endsBefore_of_isPunct hu (by decide))
  exact ⟨⟨hname, ⟨w, hw⟩, Double.isFinite_of_read? hd⟩,
    hquery.legible (Word.Reads.lexed hws hwindow).tail.tail⟩

theorem exists_readMonitor_text {s : String} {m : Monitor} (h : readMonitor s = .ok m)
    (hunfused : m.query.isUnfused) : ∃ m', readMonitor m.text = .ok m' ∧ m'.text = m.text := by
  obtain ⟨ts, us, hts, hread, _⟩ := exists_reads_of_readText h
  have hts := (lexed_of_tokensOf hts).1
  have hread := reads_rule.mp hread
  obtain ⟨hlegible, hquery, hfilter⟩ := hread.legible hts
  have hline := hlegible.isLine (hquery.isLine (Param.isLine_textList _ hfilter))
  have hend := tokensAt_nil {} (Position.start.after m.text.toList)
  obtain ⟨vs, hvs, hreread⟩ := hlegible.reads_text hquery (hfilter.rereads hunfused) rfl hend
  rw [List.append_nil] at hvs
  refine ⟨_, readText_of_reads hline hvs (reads_rule.mpr hreread) rfl, ?_⟩
  obtain ⟨hcanonical, hfinite⟩ := hread.canonical hts
  obtain ⟨_, _, _, _, _, hq, _, _, _⟩ := hread
  simp only [text, rereadWith, hq.rereadWith_eq_mapNumbers, hcanonical.text_mapNumbers,
    Double.text_reread hfinite]

end Monitor

namespace Statement

/-- A text that is read as an expression is read as a statement with the same text. -/
theorem exists_of_readExpression {s : String} {e : Expression} (h : readExpression s = .ok e) :
    ∃ t, readStatement s = .ok t ∧ t.text = e.text := by
  obtain ⟨ts, hts, hcomplete⟩ := bind_eq_ok.mp h
  have hcomplete := mapError_eq_ok.mp hcomplete
  rw [readStatement_of_tokensOf hts, statementOf]
  cases hquery : Rule.complete Query.rule ts with
  | ok q =>
    rw [Expression.complete_query_iff.mpr hquery] at hcomplete
    cases hcomplete
    exact ⟨.query q, rfl, rfl⟩
  | error _ =>
    rw [hcomplete]
    exact ⟨.expression e, rfl, rfl⟩

/-- A statement is read of what is read as an expression with the same text. -/
theorem exists_readExpression {s : String} {t : Statement} (h : readStatement s = .ok t) :
    ∃ e, readExpression s = .ok e ∧ e.text = t.text ∧ e.isUnfused = t.isUnfused := by
  obtain ⟨ts, hts, hs⟩ := bind_eq_ok.mp h
  have hts := mapError_eq_ok.mp hts
  unfold statementOf at hs
  split at hs
  · next q hq =>
    cases hs
    refine ⟨_, (readText_eq_ok hts).mpr (Expression.complete_query_iff.mpr hq), rfl, ?_⟩
    simp [Expression.isUnfused, Expression.ofOperand, Expression.leaves, Term.leaves, Operand.leaves,
      isUnfused]
  · split at hs
    · next e he =>
      cases hs
      exact ⟨e, (readText_eq_ok hts).mpr he, rfl, rfl⟩
    · cases hs

theorem exists_readStatement_text {s : String} {t : Statement} (h : readStatement s = .ok t)
    (hunfused : t.isUnfused) : ∃ t', readStatement t.text = .ok t' ∧ t'.text = t.text := by
  obtain ⟨e, he, htext, hsame⟩ := exists_readExpression h
  obtain ⟨e', he', htext'⟩ := Expression.exists_readExpression_text he (hsame ▸ hunfused)
  obtain ⟨t', ht', heq⟩ := exists_of_readExpression he'
  exact ⟨t', htext ▸ ht', heq.trans (htext'.trans htext)⟩

end Statement

/-- Printing after reading is stable: the text of what is read of a text is read again, as
    what prints the same, unless params of a filter run into each other. -/
theorem read_text_settles (s : String) :
    (∀ f, readFilter s = .ok f → f.isUnfused →
      ∃ f', readFilter f.text = .ok f' ∧ f'.text = f.text) ∧
    (∀ q, readQuery s = .ok q → q.isUnfused →
      ∃ q', readQuery q.text = .ok q' ∧ q'.text = q.text) ∧
    (∀ e, readExpression s = .ok e → e.isUnfused →
      ∃ e', readExpression e.text = .ok e' ∧ e'.text = e.text) ∧
    (∀ m, readMonitor s = .ok m → m.query.isUnfused →
      ∃ m', readMonitor m.text = .ok m' ∧ m'.text = m.text) ∧
    ∀ t, readStatement s = .ok t → t.isUnfused →
      ∃ t', readStatement t.text = .ok t' ∧ t'.text = t.text :=
  ⟨fun _ => Filter.exists_readFilter_text, fun _ => Query.exists_readQuery_text,
    fun _ => Expression.exists_readExpression_text, fun _ => Monitor.exists_readMonitor_text,
    fun _ => Statement.exists_readStatement_text⟩

/-- For instance a number that prints with fewer decimals, and one text for each other rule. -/
theorem read_text_settles_cases :
    (∃ f, readFilter "a:0.12345678901234567" = .ok f ∧ f.isUnfused ∧
      ∃ f', readFilter f.text = .ok f' ∧ f'.text = f.text) ∧
    (∃ q, readQuery "f(sum:a\x7b*\x7d, 1)" = .ok q ∧ q.isUnfused ∧
      ∃ q', readQuery q.text = .ok q' ∧ q'.text = q.text) ∧
    (∃ e, readExpression "sum:a\x7b*\x7d -1" = .ok e ∧ e.isUnfused ∧
      ∃ e', readExpression e.text = .ok e' ∧ e'.text = e.text) ∧
    (∃ m, readMonitor "avg(x):sum:a\x7b*\x7d > 9" = .ok m ∧ m.query.isUnfused ∧
      ∃ m', readMonitor m.text = .ok m' ∧ m'.text = m.text) ∧
    ∃ t, readStatement "1" = .ok t ∧ t.isUnfused ∧
      ∃ t', readStatement t.text = .ok t' ∧ t'.text = t.text := by
  obtain ⟨f, hf, hfilter⟩ := exists_eq_ok_and (e := readFilter "a:0.12345678901234567")
    (p := Filter.isUnfused) (by decide +kernel)
  obtain ⟨q, hq, hquery⟩ := exists_eq_ok_and (e := readQuery "f(sum:a\x7b*\x7d, 1)")
    (p := Query.isUnfused) (by decide +kernel)
  obtain ⟨e, he, hexpression⟩ := exists_eq_ok_and (e := readExpression "sum:a\x7b*\x7d -1")
    (p := Expression.isUnfused) (by decide +kernel)
  obtain ⟨m, hm, hmonitor⟩ := exists_eq_ok_and (e := readMonitor "avg(x):sum:a\x7b*\x7d > 9")
    (p := fun m => m.query.isUnfused) (by decide +kernel)
  obtain ⟨t, ht, hstatement⟩ := exists_eq_ok_and (e := readStatement "1")
    (p := Statement.isUnfused) (by decide +kernel)
  exact ⟨⟨f, hf, hfilter, (read_text_settles _).1 f hf hfilter⟩,
    ⟨q, hq, hquery, (read_text_settles _).2.1 q hq hquery⟩,
    ⟨e, he, hexpression, (read_text_settles _).2.2.1 e he hexpression⟩,
    ⟨m, hm, hmonitor, (read_text_settles _).2.2.2.1 m hm hmonitor⟩,
    t, ht, hstatement, (read_text_settles _).2.2.2.2 t ht hstatement⟩

/-- Two conditions side by side print as one word and a mark that nothing goes on with. -/
theorem fused_text_is_rejected :
    ∃ f, readFilter "a:b c:d" = .ok f ∧ f.text = "a:bc:d" ∧ ∃ x, readFilter f.text = .error x := by
  obtain ⟨f, hf, htext⟩ := exists_eq_ok_and (e := readFilter "a:b c:d")
    (p := fun f => f.text = "a:bc:d") (by decide +kernel)
  have htext : f.text = "a:bc:d" := by simpa using htext
  refine ⟨f, hf, htext, ?_⟩
  rw [htext]
  exact exists_eq_error (by decide +kernel)

end MetricLang
