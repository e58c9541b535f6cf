-- SUMMARY: Printed queries are read back, whatever follows them.
import MetricLang.Proofs.Closed
import MetricLang.Proofs.FilterText

/-!
# Reading printed queries

A printed query is a row of names, marks, values and two texts that are read back as
a whole: the filter with its brace and the condition of the aggregator with what closes
it. Whoever prints a query shows that these are read back wherever they are printed
(`Filter.Rereads`, `Aggregator.Rereads`); the rest is put together token by token. What
comes back is `Query.rereadWith`, which has the numbers that are read of their texts.
-/

namespace MetricLang

-- ---------------------------------------------------------------------------
-- Items after commas
-- ---------------------------------------------------------------------------

namespace Rule

/-- Does a comma or the closing bracket come next, in the text and in its tokens? -/
def ItemEnds (close : Char) (rest : List Char) (us : List Token) : Prop :=
  ∃ c, (c = ',' ∨ c = close) ∧ rest.head? = some c ∧ (peek us).isPunct c

/-- What ends an item stops words and is no blank. -/
theorem ItemEnds.stops {close : Char} {rest : List Char} {us : List Token}
    (h : ItemEnds close rest us) (hclose : Stops [close] ∧ isBlank close = false) :
    Stops rest ∧ rest.head?.any (!isBlank ·) := by
  obtain ⟨c, hc, hhead, _⟩ := h
  have hstops : Stops [c] ∧ isBlank c = false := by
    obtain rfl | rfl := hc
    · decide
    · exact hclose
  rw [Stops, hhead]
  simpa [Stops] using hstops

theorem tokensAt_comma {comma : String} (hcomma : comma = "," ∨ comma = ", ") {p : Position}
    {rest : List Char} {us : List Token}
    (hus : tokensAt {} (p.after comma.toList) rest = .ok us) :
    ∃ t, tokensAt {} p (comma.toList ++ rest) = .ok (t :: us) ∧ t.isPunct ',' ∧
      (comma.toList ++ rest).head? = some ',' := by
  obtain rfl | rfl := hcomma
  · exact ⟨_, tokensAt_punct (c := ',') rfl hus, isPunct_singleton _ _ _, rfl⟩
  · have hblank := (tokensAt_blank (p.after [',']) rest).trans hus
    exact ⟨_, tokensAt_punct (c := ',') rfl hblank, isPunct_singleton _ _ _, rfl⟩

/-- Items after commas are read back if each is read back in front of what ends it. -/
theorem itemsRead_text (text : α → String) (f : α → α) {item : Rule α} {close : Char}
    {comma : String} {xs : List α} (hclose : isSolid close) (hne : close ≠ ',')
    (hcomma : comma = "," ∨ comma = ", ")
    (hitem : ∀ x ∈ xs, ∀ {p rest us}, ItemEnds close rest us →
      tokensAt {} (p.after (text x).toList) rest = .ok us →
      ∃ ts, tokensAt {} p ((text x).toList ++ rest) = .ok ts ∧ item.Reads ts (f x) us)
    {p : Position} {rest : List Char} {us : List Token}
    (hus : tokensAt {}
      ((p.after (String.join (xs.map (comma ++ text ·))).toList).after [close]) rest = .ok us) :
    ∃ ts, tokensAt {} p ((String.join (xs.map (comma ++ text ·))).toList ++ close :: rest) =
        .ok ts ∧ ItemsRead close item ts (xs.map f) us ∧
      ItemEnds close ((String.join (xs.map (comma ++ text ·))).toList ++ close :: rest) ts := by
  induction xs generalizing p with
  | nil =>
    exact ⟨_, tokensAt_punct hclose hus, .nil (isPunct_singleton _ _ _), close, .inr rfl, rfl,
      isPunct_singleton _ _ _⟩
  | cons x xs ih =>
    simp only [List.map_cons, String.join_cons, String.toList_append, Position.after_append,
      List.append_assoc] at hus ⊢
    obtain ⟨vs, hvs, hmore, hends⟩ := ih (fun x hx => hitem x (List.mem_cons_of_mem _ hx)) hus
    obtain ⟨ws, hws, hx⟩ := hitem x List.mem_cons_self hends hvs
    obtain ⟨t, hts, ht, hhead⟩ := tokensAt_comma hcomma hws
    exact ⟨_, hts, .cons (Token.isPunct_of_ne ht hne.symm) ht hx hmore, ',', .inl rfl, hhead, ht⟩

end Rule

-- ---------------------------------------------------------------------------
-- Arguments
-- ---------------------------------------------------------------------------

namespace Value

/-- A printed argument is read back in front of a comma or a parenthesis. -/
theorem Legible.reads_text {v : Value} (h : v.Legible) {p : Position} {rest : List Char}
    {us : List Token} (hends : Rule.ItemEnds ')' rest us)
    (hus : tokensAt {} (p.after v.text.toList) rest = .ok us) :
    ∃ ts, tokensAt {} p (v.text.toList ++ rest) = .ok ts ∧ argument.Reads ts v.reread us := by
  obtain ⟨hstops, hblank⟩ := hends.stops (by decide)
  obtain ⟨ts, hts, hread, _⟩ := h.argumentReads (fun _ => hstops) (fun _ => hblank) hus
  exact ⟨ts, hts, reads_argument.mpr hread⟩

/-- The arguments after a comma, with the parenthesis that closes them. -/
theorem itemsRead_text {vs : List Value} (h : ∀ v ∈ vs, v.Legible) {comma : String}
    (hcomma : comma = "," ∨ comma = ", ") {p : Position} {rest : List Char} {us : List Token}
    (hus : tokensAt {}
      ((p.after (String.join (vs.map (comma ++ ·.text))).toList).after [')']) rest = .ok us) :
    ∃ ts, tokensAt {} p ((String.join (vs.map (comma ++ ·.text))).toList ++ ')' :: rest) = .ok ts ∧
      Rule.ItemsRead ')' argument ts (vs.map reread) us ∧
      Rule.ItemEnds ')' ((String.join (vs.map (comma ++ ·.text))).toList ++ ')' :: rest) ts :=
  Rule.itemsRead_text text reread rfl (by decide) hcomma (fun _ hv => (h _ hv).reads_text) hus

end Value

namespace FunctionCall

/-- Can the call be read back? -/
structure Legible (f : FunctionCall) : Prop where
  name : IsName f.name
  args : ∀ v ∈ f.args, v.Legible

/-- What the printed call is read as. -/
def reread (f : FunctionCall) : FunctionCall := { f with args := f.args.map Value.reread }

variable {f : FunctionCall}

theorem argumentsRead_text {vs : List Value} (h : ∀ v ∈ vs, v.Legible) {p : Position}
    {rest : List Char} {us : List Token}
    (hus : tokensAt {} (((p.after ['(']).after (Value.textList vs).toList).after [')']) rest = .ok us) :
    ∃ ts, tokensAt {} p ('(' :: ((Value.textList vs).toList ++ ')' :: rest)) = .ok ts ∧
      ArgumentsRead ts (vs.map Value.reread) us := by
  cases vs with
  | nil =>
    have hclosed := tokensAt_punct (c := ')') rfl hus
    exact ⟨_, tokensAt_punct (c := '(') rfl hclosed, .none (isPunct_singleton _ _ _)
      (isPunct_singleton _ _ _)⟩
  | cons v vs =>
    obtain ⟨hv, hvs⟩ := List.forall_mem_cons.mp h
    simp only [Value.textList_cons, String.toList_append, Position.after_append,
      List.append_assoc] at hus ⊢
    obtain ⟨_, hitems, hmore, hends⟩ := Value.itemsRead_text hvs (.inl rfl) hus
    obtain ⟨_, hargs, hread⟩ := hv.reads_text hends hitems
    exact ⟨_, tokensAt_punct (c := '(') rfl hargs, .some (isPunct_singleton _ _ _)
      (Value.reads_argument.mp hread) hmore⟩

/-- A printed call is read back. -/
theorem Legible.reads_text (h : f.Legible) {p : Position} {rest : List Char} {us : List Token}
    (hus : tokensAt {} (p.after f.text.toList) rest = .ok us) :
    ∃ ts, tokensAt {} p (f.text.toList ++ rest) = .ok ts ∧ Reads ts f.reread us := by
  simp only [text, String.toList_append, Position.after_append, List.append_assoc] at hus ⊢
  obtain ⟨vs, hvs, hargs⟩ := argumentsRead_text h.args hus
  obtain ⟨t, hts, ht, hname⟩ := h.name.tokensAt rfl rfl hvs
  refine ⟨_, hts, ?_⟩
  rw [reread, ← hname]
  exact .mk ht hargs

/-- A point in front of a call is a token of its own. -/
theorem Legible.fits_point (h : f.Legible) (rest : List Char) :
    (Piece.token .punct "." ['.']).Fits {} (f.text.toList ++ rest) := by
  have hparen : endsToken '(' := by decide
  have htext : f.text.toList ++ rest =
      f.name.toList ++ '(' :: ((Value.textList f.args).toList ++ (')' :: rest)) := by
    simp [text]
  exact htext ▸ h.name.fits_point hparen

end FunctionCall

-- ---------------------------------------------------------------------------
-- Groupings
-- ---------------------------------------------------------------------------

namespace Grouping

/-- Can the grouping be read back? -/
structure Legible (g : Grouping) : Prop where
  filled : g.entries ≠ []
  entries : ∀ e ∈ g.entries, e = "*" ∨ ∃ w : Word, w.Spells e ∧ w.startsWithIdentifier

/-- A printed entry is read back in front of a comma or a brace. -/
theorem entryRule_text {e : String} (h : e = "*" ∨ ∃ w : Word, w.Spells e ∧ w.startsWithIdentifier)
    {p : Position} {rest : List Char} {us : List Token} (hends : Rule.ItemEnds '\x7d' rest us)
    (hus : tokensAt {} (p.after e.toList) rest = .ok us) :
    ∃ ts, tokensAt {} p (e.toList ++ rest) = .ok ts ∧ entryRule.Reads ts e us := by
  obtain ⟨hstops, hblank⟩ := hends.stops (by decide)
  obtain rfl | ⟨w, hw, hfirst⟩ := h
  · obtain ⟨c, hc, _, hpeek⟩ := hends
    refine ⟨_, tokensAt_punct (c := '*') rfl hus, reads_entryRule.mpr
      (.star (isPunct_singleton _ _ _) ?_)⟩
    obtain rfl | rfl := hc <;> simp [hpeek]
  · obtain ⟨ts, w', hts, hread, hlike⟩ := hw.reads hstops (fun _ => hblank) hus
    refine ⟨ts, hts, reads_entryRule.mpr ?_⟩
    rw [← hw.text_eq, ← hlike.text]
    exact .name hread (hlike.startsWithIdentifier ▸ hfirst)

/-- A printed grouping is read back. -/
theorem Legible.reads_text {g : Grouping} (h : g.Legible) {p : Position} {rest : List Char}
    {us : List Token} (hus : tokensAt {} (p.after g.text.toList) rest = .ok us) :
    ∃ ts, tokensAt {} p (g.text.toList ++ rest) = .ok ts ∧ Reads ts g us := by
  obtain ⟨_ | ⟨e, es⟩⟩ := g
  · exact absurd rfl h.filled
  · obtain ⟨he, hes⟩ := List.forall_mem_cons.mp h.entries
    simp only [text, textEntries_cons, String.toList_append, Position.after_append,
      List.append_assoc] at hus ⊢
    obtain ⟨vs, hvs, hmore, hends⟩ := Rule.itemsRead_text id id rfl (by decide) (.inl rfl)
      (fun e he _ _ _ => entryRule_text (hes e he)) hus
    obtain ⟨ws, hws, hfirst⟩ := entryRule_text he hends hvs
    have hopened := (tokensAt_blank _ _).trans (tokensAt_punct (c := '\x7b') rfl hws)
    obtain ⟨t, hts, ht⟩ := Keyword.groupBy.tokensAt rfl hopened
    rw [List.map_id] at hmore
    exact ⟨_, hts, .mk ht (isPunct_singleton _ _ _) (reads_entryRule.mp hfirst) hmore⟩

end Grouping

-- ---------------------------------------------------------------------------
-- Aggregators
-- ---------------------------------------------------------------------------

namespace Aggregator

/-- Is the condition read back as it is from a line with nothing else but a name? -/
structure ReadsCondition (c : String) : Prop where
  isLine : IsLine c
  reads : ∃ ts us, tokensOf {} ("x(" ++ c ++ "):") = .ok ts ∧ rule.Reads ts ⟨"x", some c⟩ us

/-- A condition that is read back alone is read back wherever it is printed. -/
theorem ReadsCondition.reads_text {c : String} (h : ReadsCondition c) {p : Position}
    {rest : List Char} {us : List Token}
    (hus : tokensAt {} ((p.after c.toList).after [')', ':']) rest = .ok us) :
    ∃ ts t, tokensAt {} p (c.toList ++ ')' :: ':' :: rest) = .ok ts ∧
      conditionTail.Reads ts c (t :: us) ∧ t.isPunct ':' := by
  obtain ⟨hline, ts, vs, hts, hread⟩ := h
  have hopen : IsLine "x(" := by decide
  have hclose : IsLine "):" := by decide
  have hwhole : IsLine ("x(" ++ c ++ "):") := by simp [hline, hopen, hclose]
  have hrest : IsLine (c ++ "):") := by simp [hline, hclose]
  -- what stands in front of the condition is cut off by itself
  have hx : IsName "x" := IsName.of_read rfl rfl
  have hcut : Piece.Cut {} [.token .identifier "x" "x".toList, .token .punct "(" ['(']]
      (c ++ "):").toList :=
    ⟨hx.fits rfl fun _ => rfl, Piece.fits_punct (c := '(') rfl _, trivial⟩
  have hchars : ("x(" ++ c ++ "):").toList = Piece.charsOf [.token .identifier "x" "x".toList,
      .token .punct "(" ['(']] ++ (c ++ "):").toList := by
    simp [Piece.charsOf, Piece.chars, String.append_assoc]
  have hts := (IsLine.tokensOf_eq_ok hwhole).mp hts
  rw [hchars] at hts
  obtain ⟨ws, hws, rfl⟩ := exists_of_tokensAt_append hcut hts
  have hreads : ∃ v, conditionTail.Reads ws c (v :: vs) ∧ v.isPunct ':' := by
    cases reads_rule.mp hread with
    | condition _ _ hfilled hinside hcolon =>
      exact ⟨_, reads_conditionTail.mpr ⟨hfilled, _, hinside, rfl⟩, hcolon⟩
  have hshows : Shows (c ++ "):") ws vs := by
    obtain ⟨v, htail, hv⟩ := hreads
    obtain ⟨_, cs, hinside, rfl⟩ := reads_conditionTail.mp htail
    exact (hinside.shows.append (.punct hv)).of_eq (by simp [String.append_assoc])
  have hus : tokensAt {} (p.after (c ++ "):").toList) rest = .ok us := by
    simpa [Position.after_append] using hus
  have hmark : EndsInMark (c ++ "):") := EndsInMark.append_left (by decide) c
  obtain ⟨ts, hts, t, hread, ht⟩ := (local_conditionTail.before ':').reads_closed hws hreads hshows
    hrest hmark rfl hus
  exact ⟨ts, t, by simpa using hts, hread, ht⟩

theorem Reads.of_conditionTail {t u v : Token} {ts us : List Token} {name c : String}
    (ht : t.isIdentifier) (htext : t.text = name) (hu : u.isPunct '(')
    (h : conditionTail.Reads ts c (v :: us)) (hv : v.isPunct ':') :
    Reads (t :: u :: ts) ⟨name, some c⟩ us := by
  obtain ⟨hfilled, cs, hinside, rfl⟩ := reads_conditionTail.mp h
  exact htext ▸ .condition ht hu hfilled hinside hv

/-- Can the aggregator be read back? -/
structure Legible (a : Aggregator) : Prop where
  name : IsName a.name
  condition : ∀ c ∈ a.condition, ReadsCondition c

/-- A printed aggregator with its colon is read back. -/
theorem Legible.reads_text {a : Aggregator} (h : a.Legible) {p : Position} {rest : List Char}
    {us : List Token} (hus : tokensAt {} ((p.after a.text.toList).after [':']) rest = .ok us) :
    ∃ ts, tokensAt {} p (a.text.toList ++ ':' :: rest) = .ok ts ∧ Reads ts a us := by
  obtain ⟨name, _ | c⟩ := a
  · have hcolon := tokensAt_punct (c := ':') rfl hus
    obtain ⟨t, hts, ht, rfl⟩ := h.name.tokensAt rfl rfl hcolon
    exact ⟨_, hts, .plain ht (isPunct_singleton _ _ _)⟩
  · simp only [text, String.toList_append, Position.after_append, List.append_assoc] at hus ⊢
    obtain ⟨vs, v, hvs, hcondition, hv⟩ := (h.condition c rfl).reads_text hus
    have hopened := tokensAt_punct (c := '(') rfl hvs
    obtain ⟨t, hts, ht, htext⟩ := h.name.tokensAt rfl rfl hopened
    exact ⟨_, hts, .of_conditionTail ht htext (isPunct_singleton _ _ _) hcondition hv⟩

end Aggregator

-- ---------------------------------------------------------------------------
-- Selections
-- ---------------------------------------------------------------------------

/-- Is the filter, with the brace that closes it, read as `g` wherever it is printed? -/
def Filter.Rereads (f g : Filter) : Prop :=
  ∀ ⦃p : Position⦄ ⦃rest : List Char⦄ ⦃us : List Token⦄,
    tokensAt {} ((p.after f.text.toList).after ['\x7d']) rest = .ok us →
    ∃ ts t, tokensAt {} p (f.text.toList ++ '\x7d' :: rest) = .ok ts ∧
      Param.SequenceReads ts g.params (t :: us) ∧ t.isPunct '\x7d'

theorem Filter.Legible.rereads {f : Filter} (h : f.Legible) (hunfused : f.isUnfused) :
    f.Rereads f.reread := by
  intro p rest us hus
  have hends : ∀ {t : Token}, t.isPunct '\x7d' → Param.endsBefore (peek (t :: us)) := by
    simp +contextual [Param.endsBefore]
  have hclosed := tokensAt_punct (c := '\x7d') rfl hus
  obtain ⟨ts, hts, hread⟩ := h.reads_text hunfused rfl (fun _ => rfl)
    (hends (isPunct_singleton _ _ _)) hclosed
  exact ⟨ts, _, hts, reads_rule.mp hread, isPunct_singleton _ _ _⟩

namespace Selection

/-- Can the selection be read back, if its filter can? -/
structure Legible (s : Selection) : Prop where
  aggregator : ∃ a, s.aggregator = some a ∧ a.Legible
  metric : ∃ w : Word, w.Spells s.metric ∧ w.startsWithIdentifier
  grouping : ∀ g ∈ s.grouping, g.Legible
  functions : ∀ f ∈ s.functions, f.Legible

/-- What the printed selection is read as, if its filter is read as `g`. -/
def rereadWith (g : Filter) (s : Selection) : Selection :=
  { s with filter := g, functions := s.functions.map FunctionCall.reread }

/-- Printed functions are read back. They do not begin like a grouping. -/
theorem functionsRead_text {fs : List FunctionCall} (h : ∀ f ∈ fs, f.Legible) {p : Position}
    {rest : List Char} {us : List Token} (hends : Query.endsBefore (peek us))
    (hus : tokensAt {} (p.after (textFunctions fs).toList) rest = .ok us) :
    ∃ ts, tokensAt {} p ((textFunctions fs).toList ++ rest) = .ok ts ∧
      FunctionsRead ts (fs.map FunctionCall.reread) us ∧
      (peek ts).isKeyword Keyword.groupBy.spelling = false := by
  simp only [Query.endsBefore, Bool.and_eq_true, Bool.not_eq_true'] at hends
  induction fs generalizing p with
  | nil => exact ⟨us, hus, .nil hends.1, hends.2⟩
  | cons f fs ih =>
    obtain ⟨hf, hfs⟩ := List.forall_mem_cons.mp h
    simp only [textFunctions, String.toList_append, Position.after_append, List.append_assoc] at hus ⊢
    obtain ⟨vs, hvs, hmore, _⟩ := ih hfs hus
    obtain ⟨ws, hws, hread⟩ := hf.reads_text hvs
    have hpoint := isPunct_singleton '.' p (p.after ['.']).offset
    exact ⟨_, tokensAt_token (hf.fits_point _) hws, .cons hpoint hread hmore,
      Token.isKeyword_of_isPunct _ hpoint⟩

/-- A printed grouping is read back, or none where none is printed. -/
theorem groupingReads_text {g : Option Grouping} (h : ∀ x ∈ g, x.Legible) {p : Position}
    {rest : List Char} {us : List Token}
    (hends : (peek us).isKeyword Keyword.groupBy.spelling = false)
    (hus : tokensAt {} (p.after (textGrouping g).toList) rest = .ok us) :
    ∃ ts, tokensAt {} p ((textGrouping g).toList ++ rest) = .ok ts ∧ GroupingReads ts g us := by
  cases g with
  | none => exact ⟨us, hus, .none hends⟩
  | some g =>
    have hg := h g rfl
    have hfilled : g.isEmpty = false := by simpa [Grouping.isEmpty] using hg.filled
    simp only [textGrouping, hfilled, Bool.false_eq_true, if_false, String.toList_append,
      Position.after_append, List.append_assoc] at hus ⊢
    obtain ⟨ts, hts, hread⟩ := hg.reads_text hus
    exact ⟨ts, (tokensAt_blank _ _).trans hts, .some hread⟩

/-- A printed selection is read back if its filter is. -/
theorem Legible.reads_text {s : Selection} (h : s.Legible) {g : Filter}
    (hfilter : s.filter.Rereads g) {p : Position} {rest : List Char} {us : List Token}
    (hends : Query.endsBefore (peek us))
    (hus : tokensAt {} (p.after s.text.toList) rest = .ok us) :
    ∃ ts, tokensAt {} p (s.text.toList ++ rest) = .ok ts ∧ Reads ts (s.rereadWith g) us := by
  obtain ⟨_, metric, filter, grouping, functions⟩ := s
  obtain ⟨a, rfl, haggregator⟩ := h.aggregator
  obtain ⟨w, hw, hfirst⟩ := h.metric
  simp only [text, String.toList_append, Position.after_append, List.append_assoc] at hus ⊢
  obtain ⟨_, hfunctions, hfs, hkeyword⟩ := functionsRead_text h.functions hends hus
  obtain ⟨_, hgrouping, hg⟩ := groupingReads_text h.grouping hkeyword hfunctions
  obtain ⟨_, v, hbraces, hf, hclosed⟩ := hfilter hgrouping
  have hopened := tokensAt_punct (c := '\x7b') rfl hbraces
  obtain ⟨_, w', hname, hmetric, hlike⟩ := hw.reads rfl (fun _ => rfl) hopened
  obtain ⟨ts, hts, ha⟩ := haggregator.reads_text hname
  refine ⟨ts, hts, ?_⟩
  have htext : metric = w'.text := by rw [hlike.text, hw.text_eq]
  rw [rereadWith, htext]
  exact .mk ha hmetric (hlike.startsWithIdentifier ▸ hfirst) (isPunct_singleton _ _ _) hf hclosed hg hfs

end Selection

-- ---------------------------------------------------------------------------
-- Queries
-- ---------------------------------------------------------------------------

namespace Query

/-- Can the query be read back, if its filter can? -/
def Legible : Query → Prop
  | .selection s => s.Legible
  | .call name body args => IsName name ∧ body.Legible ∧ ∀ v ∈ args, v.Legible

/-- What the printed query is read as, if its filter is read as `g`. -/
def rereadWith (g : Filter) : Query → Query
  | .selection s => .selection (s.rereadWith g)
  | .call name body args => .call name (body.rereadWith g) (args.map Value.reread)

/-- A printed query is read back if its filter is. -/
theorem Legible.reads_text {q : Query} (h : q.Legible) {g : Filter}
    (hfilter : q.innermost.filter.Rereads g) {p : Position} {rest : List Char} {us : List Token}
    (hends : endsBefore (peek us)) (hus : tokensAt {} (p.after q.text.toList) rest = .ok us) :
    ∃ ts, tokensAt {} p (q.text.toList ++ rest) = .ok ts ∧ Reads ts (q.rereadWith g) us := by
  induction q generalizing p rest us with
  | selection s =>
    obtain ⟨ts, hts, hread⟩ := Selection.Legible.reads_text h hfilter hends hus
    exact ⟨ts, hts, .selection hread⟩
  | call name body args ih =>
    obtain ⟨hname, hbody, hargs⟩ := h
    simp only [text, Value.textTail_eq, String.toList_append, Position.after_append,
      List.append_assoc] at hus ⊢
    obtain ⟨vs, hvs, hmore, c, hc, _, hpeek⟩ := Value.itemsRead_text hargs (.inr rfl) hus
    have hpoint : c ≠ '.' := by obtain rfl | rfl := hc <;> decide
    have hends := endsBefore_of_isPunct hpeek hpoint
    obtain ⟨ws, hws, hread⟩ := ih hbody hfilter hends hvs
    have hopened := tokensAt_punct (c := '(') rfl hws
    obtain ⟨t, hts, ht, rfl⟩ := hname.tokensAt rfl rfl hopened
    exact ⟨_, hts, .call ht (isPunct_singleton _ _ _) hread hmore⟩

end Query

end MetricLang
