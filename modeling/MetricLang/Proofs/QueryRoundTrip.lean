-- SUMMARY: Reading undoes printing for queries and monitors.
import MetricLang.Proofs.EqualTexts
import MetricLang.Proofs.ExpressionReads
import MetricLang.Proofs.QueryText
import MetricLang.Proofs.ReadLegible

/-!
# Printed queries come back

A query is read back from its text if its names are names, its words words and its
filter and conditions are read back from their own texts, with what closes them. What
comes back is equal if every number prints in full.
-/

namespace MetricLang

-- ---------------------------------------------------------------------------
-- Filters in braces
-- ---------------------------------------------------------------------------

namespace Filter

/-- Is the filter read back from its text with a brace behind it, up to the brace? -/
def ReadsBack (f : Filter) : Prop :=
  ∃ ts t us g, tokensOf {} (f.text ++ "\x7d") = .ok ts ∧ rule.Reads ts g (t :: us) ∧
    t.isPunct '\x7d' ∧ g == f

/-- A filter that is read back alone is read back wherever it is printed. -/
theorem ReadsBack.exists_rereads {f : Filter} (h : f.ReadsBack) :
    ∃ g, g == f ∧ IsLine f.text ∧ f.Rereads g := by
  obtain ⟨ts, t, vs, g, hts, hread, ht, heq⟩ := h
  have htext : g.text = f.text := text_eq_of_beq heq
  have hline : IsLine f.text :=
    htext ▸ Param.isLine_textList _ (legible_of_reads (lexed_of_tokensOf hts).1 hread)
  have hbrace : IsLine "\x7d" := by decide
  have hwhole : IsLine (f.text ++ "\x7d") := by simp [hline, hbrace]
  have hsequence := reads_rule.mp hread
  have hshows : Shows (f.text ++ "\x7d") ts vs :=
    htext ▸ hsequence.shows.append (.punct (c := '\x7d') ht)
  refine ⟨g, heq, hline, fun p rest us hus => ?_⟩
  have hus : tokensAt {} (p.after (f.text ++ "\x7d").toList) rest = .ok us := by
    simpa [Position.after_append] using hus
  obtain ⟨xs, hxs, u, hread, hu⟩ := (Param.local_sequenceReads.before '\x7d').reads_closed
    ((IsLine.tokensOf_eq_ok hwhole).mp hts) ⟨t, hsequence, ht⟩ hshows hwhole
    (EndsInMark.append_left (by decide) _) rfl hus
  exact ⟨xs, u, by simpa using hxs, hread, hu⟩

/-- A legible filter that comes back equal is read back. -/
theorem Legible.readsBack {f : Filter} (h : f.Legible) (hunfused : f.isUnfused)
    (hequal : f.reread == f) : f.ReadsBack := by
  have hline : IsLine (f.text ++ "\x7d") := by
    have hbrace : IsLine "\x7d" := by decide
    have hf : IsLine f.text := Param.isLine_textList f.params h
    simp [hf, hbrace]
  obtain ⟨ts, t, hts, hread, ht⟩ := h.rereads hunfused (tokensAt_nil {} _)
  rw [← String.toList_singleton, ← String.toList_append] at hts
  exact ⟨ts, t, _, _, (IsLine.tokensOf_eq_ok hline).mpr hts, reads_rule.mpr hread, ht, hequal⟩

end Filter

-- ---------------------------------------------------------------------------
-- Lines
-- ---------------------------------------------------------------------------

theorem IsLine.join {ss : List String} (h : ∀ s ∈ ss, IsLine s) : IsLine (String.join ss) := by
  induction ss with
  | nil => rfl
  | cons s ss ih =>
    obtain ⟨hs, hss⟩ := List.forall_mem_cons.mp h
    simp [String.join_cons, hs, ih hss]

theorem Value.isLine_textTail {vs : List Value} (h : ∀ v ∈ vs, v.Legible) : IsLine (textTail vs) := by
  have hcomma : IsLine ", " := by decide
  rw [textTail_eq]
  refine IsLine.join (List.forall_mem_map.mpr fun v hv => ?_)
  simp [hcomma, (h v hv).isLine]

theorem Value.isLine_textList {vs : List Value} (h : ∀ v ∈ vs, v.Legible) : IsLine (textList vs) := by
  cases vs with
  | nil => rfl
  | cons v vs =>
    obtain ⟨hv, hvs⟩ := List.forall_mem_cons.mp h
    have hcomma : IsLine "," := by decide
    have hjoin : IsLine (String.join (vs.map ("," ++ ·.text))) :=
      IsLine.join (List.forall_mem_map.mpr fun v hv => by simp [hcomma, (hvs v hv).isLine])
    simp [textList_cons, hv.isLine, hjoin]

theorem FunctionCall.Legible.isLine {f : FunctionCall} (h : f.Legible) : IsLine f.text := by
  have hopen : IsLine "(" := by decide
  have hclose : IsLine ")" := by decide
  simp [text, h.name.isLine, hopen, hclose, Value.isLine_textList h.args]

theorem Grouping.Legible.isLine {g : Grouping} (h : g.Legible) : IsLine g.text := by
  have hentry : ∀ e ∈ g.entries, IsLine e := by
    intro e he
    obtain rfl | ⟨w, hw, _⟩ := h.entries e he
    · decide
    · exact hw.isLine
  have hentries : IsLine (textEntries g.entries) := by
    cases hg : g.entries with
    | nil => rfl
    | cons e es =>
      obtain ⟨he, hes⟩ := List.forall_mem_cons.mp (hg ▸ hentry)
      have hcomma : IsLine "," := by decide
      have hjoin : IsLine (String.join (es.map ("," ++ ·))) :=
        IsLine.join (List.forall_mem_map.mpr fun e he => by simp [hcomma, hes e he])
      simp [textEntries_cons, he, hjoin]
  have hopen : IsLine " \x7b" := by decide
  have hclose : IsLine "\x7d" := by decide
  simp [text, Keyword.isLine, hopen, hclose, hentries]

theorem Aggregator.Legible.isLine {a : Aggregator} (h : a.Legible) : IsLine a.text := by
  obtain ⟨name, _ | c⟩ := a
  · exact h.name.isLine
  · have hopen : IsLine "(" := by decide
    have hclose : IsLine ")" := by decide
    have hname : IsLine name := h.name.isLine
    simp [text, hname, hopen, hclose, (h.condition c rfl).isLine]

theorem Selection.Legible.isLine {s : Selection} (h : s.Legible) (hfilter : IsLine s.filter.text) :
    IsLine s.text := by
  obtain ⟨a, ha, haggregator⟩ := h.aggregator
  obtain ⟨w, hw, _⟩ := h.metric
  have hmarks : IsLine ":" ∧ IsLine "\x7b" ∧ IsLine "\x7d" ∧ IsLine " " := by decide
  have hgrouping : IsLine (textGrouping s.grouping) := by
    cases hg : s.grouping with
    | none => rfl
    | some g =>
      rw [textGrouping]
      split
      · rfl
      · simp [hmarks, (h.grouping g hg).isLine]
  have hfunctions : ∀ {fs : List FunctionCall}, (∀ f ∈ fs, f.Legible) → IsLine (textFunctions fs) := by
    intro fs hfs
    induction fs with
    | nil => rfl
    | cons f fs ih =>
      obtain ⟨hf, hfs⟩ := List.forall_mem_cons.mp hfs
      have hpoint : IsLine "." := by decide
      simp [textFunctions, hpoint, hf.isLine, ih hfs]
  simp [text, ha, haggregator.isLine, hw.isLine, hmarks, hfilter, hgrouping, hfunctions h.functions]

/-- A query that can be read back prints as a line if its filter does. -/
theorem Query.Legible.isLine {q : Query} (h : q.Legible) (hfilter : IsLine q.innermost.filter.text) :
    IsLine q.text := by
  induction q with
  | selection s => exact Selection.Legible.isLine h hfilter
  | call name body args ih =>
    obtain ⟨hname, hbody, hargs⟩ := h
    have hopen : IsLine "(" := by decide
    have hclose : IsLine ")" := by decide
    simp [text, hname.isLine, ih hbody hfilter, hopen, hclose, Value.isLine_textTail hargs]

-- ---------------------------------------------------------------------------
-- What comes back is equal
-- ---------------------------------------------------------------------------

namespace Query

/-- The arguments of all functions and calls in a query. -/
def arguments : Query → List Value
  | .selection s => s.functions.flatMap (·.args)
  | .call _ body args => body.arguments ++ args

end Query

theorem FunctionCall.map_reread_beq {fs : List FunctionCall}
    (h : ∀ d, .number d ∈ fs.flatMap (·.args) → d.reread == d) : fs.map reread == fs := by
  induction fs with
  | nil => rfl
  | cons f fs ih =>
    rw [List.flatMap_cons] at h
    have hargs : f.args.map Value.reread == f.args :=
      ValueList.map_reread_beq fun d hd => h d (List.mem_append_left _ hd)
    have hname : f.name == f.name := beq_self_eq_true _
    have hf : f.reread == f := Bool.and_eq_true_iff.mpr ⟨hname, hargs⟩
    exact Bool.and_eq_true_iff.mpr ⟨hf, ih fun d hd => h d (List.mem_append_right _ hd)⟩

theorem Selection.rereadWith_beq {s : Selection} {g : Filter} (hg : g == s.filter)
    (h : ∀ d, .number d ∈ s.functions.flatMap (·.args) → d.reread == d) : s.rereadWith g == s := by
  have hfunctions := FunctionCall.map_reread_beq h
  exact Bool.and_eq_true_iff.mpr ⟨beq_self_eq_true s.aggregator,
    Bool.and_eq_true_iff.mpr ⟨beq_self_eq_true s.metric,
      Bool.and_eq_true_iff.mpr ⟨hg, Bool.and_eq_true_iff.mpr ⟨beq_self_eq_true s.grouping, hfunctions⟩⟩⟩⟩

/-- What comes back is equal if the filter does and every number prints in full. -/
theorem Query.rereadWith_beq {q : Query} {g : Filter} (hg : g == q.innermost.filter)
    (h : ∀ d, .number d ∈ q.arguments → d.reread == d) : q.rereadWith g == q := by
  induction q with
  | selection s => exact Selection.rereadWith_beq hg h
  | call name body args ih =>
    have hbody := ih hg fun d hd => h d (List.mem_append_left _ hd)
    have hargs := ValueList.map_reread_beq fun d hd => h d (List.mem_append_right _ hd)
    exact Bool.and_eq_true_iff.mpr
      ⟨Bool.and_eq_true_iff.mpr ⟨decide_eq_true rfl, hbody⟩, hargs⟩

-- ---------------------------------------------------------------------------
-- Monitors
-- ---------------------------------------------------------------------------

/-- A printed comparator is read back in front of a blank. A query may end before it. -/
theorem Comparator.reads_text {c : Comparator} {p : Position} {rest : List Char} {us : List Token}
    (hus : tokensAt {} (p.after c.text.toList) (' ' :: rest) = .ok us)
    (hsign : (peek us).isPunct '=' = false) :
    ∃ ts, tokensAt {} p (c.text.toList ++ ' ' :: rest) = .ok ts ∧ Reads ts c us ∧
      Query.endsBefore (peek ts) := by
  have halone : ∀ t : Token, Relation.touched t '=' us = false :=
    fun t => Relation.touched_of_isPunct hsign
  have hgreater := isPunct_singleton '>' p (p.after ['>']).offset
  have hless := isPunct_singleton '<' p (p.after ['<']).offset
  cases c with
  | greater =>
    exact ⟨_, tokensAt_punct rfl hus, .greater hgreater (halone _),
      Query.endsBefore_of_isPunct hgreater (by decide)⟩
  | less =>
    exact ⟨_, tokensAt_punct rfl hus, .less hless (halone _),
      Query.endsBefore_of_isPunct hless (by decide)⟩
  | greaterEqual =>
    have hequals := tokensAt_punct (c := '=') (p := p.after ['>']) rfl hus
    exact ⟨_, tokensAt_punct rfl hequals,
      .greaterEqual hgreater (Relation.touched_of_place (isPunct_singleton _ _ _) rfl),
      Query.endsBefore_of_isPunct hgreater (by decide)⟩
  | lessEqual =>
    have hequals := tokensAt_punct (c := '=') (p := p.after ['<']) rfl hus
    exact ⟨_, tokensAt_punct rfl hequals,
      .lessEqual hless (Relation.touched_of_place (isPunct_singleton _ _ _) rfl),
      Query.endsBefore_of_isPunct hless (by decide)⟩

namespace Monitor

/-- Can the monitor be read back, if its query can? -/
structure Legible (m : Monitor) : Prop where
  aggregation : IsName m.aggregation
  window : ∃ w : Word, w.Spells m.window
  threshold : m.threshold.isFinite

/-- What the printed monitor is read as, if the filter of its query is read as `g`. -/
def rereadWith (g : Filter) (m : Monitor) : Monitor :=
  { m with query := m.query.rereadWith g, threshold := m.threshold.reread }

/-- A printed monitor is read back if the filter of its query is. -/
theorem Legible.reads_text {m : Monitor} (h : m.Legible) (hquery : m.query.Legible) {g : Filter}
    (hfilter : m.query.innermost.filter.Rereads g) {p : Position} {rest : List Char}
    {us : List Token} (hstops : Stops rest) (hus : tokensAt {} (p.after m.text.toList) rest = .ok us) :
    ∃ ts, tokensAt {} p (m.text.toList ++ rest) = .ok ts ∧ Reads ts (m.rereadWith g) us := by
  obtain ⟨aggregation, window, q, c, d⟩ := m
  obtain ⟨haggregation, ⟨w, hw⟩, hd⟩ := h
  simp only [text, String.toList_append, Position.after_append, List.append_assoc] at hus ⊢
  obtain ⟨n, hthreshold, hn, hntext⟩ := Double.tokensAt_text hd hstops hus
  obtain ⟨_, hcomparator, hc, hends⟩ := Comparator.reads_text
    ((tokensAt_blank _ _).trans hthreshold) (Token.isPunct_of_isNumber _ hn)
  obtain ⟨_, hqtext, hq⟩ := hquery.reads_text hfilter hends ((tokensAt_blank _ _).trans hcomparator)
  have hclosed := tokensAt_punct (c := ')') rfl (tokensAt_punct (c := ':') rfl hqtext)
  obtain ⟨_, v, hwindow, hv, hlike⟩ := hw.reads rfl (fun _ => rfl) hclosed
  have hopened := tokensAt_punct (c := '(') rfl hwindow
  obtain ⟨t, hts, ht, rfl⟩ := haggregation.tokensAt rfl rfl hopened
  have htext : window = v.text := by rw [hlike.text, hw.text_eq]
  refine ⟨_, hts, ?_⟩
  rw [rereadWith, htext]
  exact .mk ht (isPunct_singleton _ _ _) hv (isPunct_singleton _ _ _) (isPunct_singleton _ _ _) hq hc
    hn (hntext ▸ Double.read?_text hd)

theorem Legible.isLine {m : Monitor} (h : m.Legible) (hquery : IsLine m.query.text) :
    IsLine m.text := by
  obtain ⟨w, hw⟩ := h.window
  obtain ⟨v, hv, _⟩ := Double.exists_word h.threshold
  have hcomparator : IsLine m.comparator.text := by cases m.comparator <;> decide
  have hmarks : IsLine "(" ∧ IsLine "):" ∧ IsLine " " := by decide
  simp [text, h.aggregation.isLine, hw.isLine, hquery, hcomparator, hv.isLine, hmarks]

theorem rereadWith_beq {m : Monitor} {g : Filter} (hquery : m.query.rereadWith g == m.query)
    (hthreshold : m.threshold.reread == m.threshold) : m.rereadWith g == m :=
  Bool.and_eq_true_iff.mpr ⟨beq_self_eq_true m.aggregation, Bool.and_eq_true_iff.mpr
    ⟨beq_self_eq_true m.window, Bool.and_eq_true_iff.mpr ⟨hquery, Bool.and_eq_true_iff.mpr
      ⟨beq_self_eq_true m.comparator, hthreshold⟩⟩⟩⟩

end Monitor

-- ---------------------------------------------------------------------------
-- Whole texts
-- ---------------------------------------------------------------------------

/-- A query that can be read back is read back from its text. -/
theorem Query.Legible.readQuery {q : Query} (h : q.Legible) {g : Filter}
    (hfilter : q.innermost.filter.Rereads g) (hline : IsLine q.innermost.filter.text) :
    readQuery q.text = .ok (q.rereadWith g) := by
  have hend := tokensAt_nil {} (Position.start.after q.text.toList)
  obtain ⟨ts, hts, hread⟩ := h.reads_text hfilter rfl hend
  rw [List.append_nil] at hts
  exact readText_of_reads (h.isLine hline) hts (Query.reads_rule.mpr hread) rfl

/-- Reading undoes printing: a query comes back equal from its text if its filter is read
    back from its own, its other parts can be read back and its numbers print in full, and
    so does every monitor of it. -/
theorem readQuery_text (q : Query) (h : q.Legible) (hfilter : q.innermost.filter.ReadsBack)
    (hexact : ∀ d, .number d ∈ q.arguments → d.reread == d) :
    (∃ q', readQuery q.text = .ok q' ∧ q' == q) ∧
      ∀ m : Monitor, m.query = q → m.Legible → m.threshold.reread == m.threshold →
        ∃ m', readMonitor m.text = .ok m' ∧ m' == m := by
  obtain ⟨g, hg, hline, hrereads⟩ := hfilter.exists_rereads
  have hquery := Query.rereadWith_beq hg hexact
  refine ⟨⟨q.rereadWith g, h.readQuery hrereads hline, hquery⟩, ?_⟩
  rintro m rfl hm hthreshold
  have hend := tokensAt_nil {} (Position.start.after m.text.toList)
  obtain ⟨ts, hts, hread⟩ := hm.reads_text h hrereads rfl hend
  rw [List.append_nil] at hts
  have hmline := hm.isLine (h.isLine hline)
  exact ⟨m.rereadWith g, readText_of_reads hmline hts (Monitor.reads_rule.mpr hread) rfl,
    Monitor.rereadWith_beq hquery hthreshold⟩

/-- For instance a call on a selection with all its parts, and a monitor of it. -/
theorem readQuery_text_call :
    let one : Double := ⟨false, 0x3ff0000000000000, by decide⟩
    let q : Query := .call "top" (.selection ⟨some ⟨"avg", some "t > 5"⟩, "cpu",
      .ofParam (.condition (.tag "env" "prod")), some ⟨["host", "*"]⟩, [⟨"fill", [.number one]⟩]⟩)
      [.string "desc" .single]
    (∃ q', readQuery q.text = .ok q' ∧ q' == q) ∧
      ∃ m', readMonitor (Monitor.text ⟨"avg", "last_5m", q, .greater, one⟩) = .ok m' ∧
        m' == ⟨"avg", "last_5m", q, .greater, one⟩ := by
  intro one q
  have hname : ∀ s, s ∈ ["top", "avg", "cpu", "env", "prod", "host", "fill", "last_5m"] →
      IsName s := by
    simp only [List.mem_cons, List.not_mem_nil, or_false, forall_eq_or_imp, forall_eq]
    refine ⟨?_, ?_, ?_, ?_, ?_, ?_, ?_, ?_⟩ <;> exact IsName.of_read rfl rfl
  have hword : ∀ s, s ∈ ["cpu", "host", "last_5m"] → ∃ w : Word, w.Spells s ∧ w.startsWithIdentifier := by
    intro s hs
    obtain ⟨w, hw, _, hfirst, _⟩ := (hname s (by simp at hs ⊢; tauto)).spells
    exact ⟨w, hw, hfirst⟩
  have hone : one.reread == one := by decide +kernel
  have hcondition : Aggregator.ReadsCondition "t > 5" := by
    generalize hts : [⟨.identifier, "x", ⟨0, 1, 1⟩, 1⟩, ⟨.punct, "(", ⟨1, 1, 2⟩, 2⟩,
      ⟨.identifier, "t", ⟨2, 1, 3⟩, 3⟩, ⟨.punct, ">", ⟨4, 1, 5⟩, 5⟩, ⟨.integer, "5", ⟨6, 1, 7⟩, 7⟩,
      ⟨.punct, ")", ⟨7, 1, 8⟩, 8⟩, ⟨.punct, ":", ⟨8, 1, 9⟩, 9⟩, Token.endAt ⟨9, 1, 10⟩] = ts
    have hcut : cutWithin 20 .start "x(t > 5):".toList = some ts := by
      rw [← hts]
      decide +kernel
    refine ⟨by decide, ts, [Token.endAt ⟨9, 1, 10⟩], tokensOf_of_cutWithin (by decide) hcut, ?_⟩
    rw [← hts]
    exact ⟨by decide, rfl⟩
  have hfilter : (Filter.ofParam (.condition (.tag "env" "prod"))).ReadsBack := by
    have henv := hname "env" (by simp)
    have hprod := hname "prod" (by simp)
    have hlegible : (Filter.ofParam (.condition (.tag "env" "prod"))).Legible :=
      ⟨⟨henv.legibleKey rfl, by simp [Relation.isWord, Condition.tag],
        hprod.legibleInFilter rfl (by decide)⟩, fun _ => hprod.not_endsInComment rfl, trivial⟩
    exact hlegible.readsBack rfl (by decide)
  have hselection : q.innermost.Legible := {
    aggregator := ⟨_, rfl, hname "avg" (by simp), by simpa using hcondition⟩
    metric := hword "cpu" (by simp)
    grouping := by
      simp only [q, Query.innermost, Option.mem_some_iff, forall_eq']
      exact ⟨by simp, by simpa using hword "host" (by simp)⟩
    functions := by
      simp only [q, Query.innermost, List.mem_singleton, forall_eq]
      have hfinite : one.isFinite := rfl
      exact ⟨hname "fill" (by simp), List.forall_mem_singleton.mpr hfinite⟩ }
  have hstring : (Value.string "desc" .single).Legible := (rfl : IsLine "desc" = true)
  have hq : q.Legible := ⟨hname "top" (by simp), hselection, List.forall_mem_singleton.mpr hstring⟩
  have hexact : ∀ d, .number d ∈ q.arguments → d.reread == d := by
    simpa [q, Query.arguments] using hone
  have hmonitor : Monitor.Legible ⟨"avg", "last_5m", q, .greater, one⟩ :=
    ⟨hname "avg" (by simp), (hword "last_5m" (by simp)).imp fun _ h => h.1, rfl⟩
  obtain ⟨hquery, hmonitors⟩ := readQuery_text q hq hfilter hexact
  exact ⟨hquery, hmonitors _ rfl hmonitor hone⟩

end MetricLang
