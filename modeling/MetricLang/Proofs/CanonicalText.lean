-- SUMMARY: The text of a query that was read tells the query, but for how its numbers are rounded.
import MetricLang.Proofs.Conditions
import MetricLang.Proofs.QueryRoundTrip

/-!
# Texts tell queries apart

All that is read of a text can be read back from its own text, if no params of its
filter run into each other. So two queries that were read and print alike are read
back as the same query. Reading back changes nothing but numbers, which print with
fifteen decimals at most.
-/

namespace MetricLang

-- ---------------------------------------------------------------------------
-- What is read can be read back
-- ---------------------------------------------------------------------------

theorem Shows.lexed {s : String} {ts us : List Token} (h : Shows s ts us) (hts : Lexed ts) :
    Lexed us := by
  obtain ⟨pre, rfl, _⟩ := h
  exact hts.suffix (List.suffix_append pre us)

theorem Word.reads_single {t : Token} {us : List Token} (ht : t.isIdentifier)
    (hus : endsBefore (peek us)) : rule.Reads (t :: us) ⟨t, []⟩ us := by
  have hnot : t.isPunct '!' = false := Token.isPunct_of_isIdentifier _ ht
  refine reads_rule.mpr ⟨rfl, by simp [canStart, ht], ?_, by simp [hnot]⟩
  simp only [endsBefore, Bool.not_eq_true'] at hus
  simp [Runs, joins, hus]

/-- An identifier in front of what goes on with no word is a name. -/
theorem Lexed.isName {t : Token} {us : List Token} (h : Lexed (t :: us)) (ht : t.isIdentifier)
    (hus : Word.endsBefore (peek us)) : IsName t.text := by
  have hword := Word.reads_single ht hus
  obtain ⟨⟨t', more⟩, ⟨ts, hts, hcomplete, htext⟩, hlike⟩ := Word.Reads.spells h hword
  obtain ⟨vs, hread, hend⟩ := Rule.complete_eq_ok.mp hcomplete
  cases hlike with
  | cons hlike hmore =>
    cases hmore
    obtain ⟨row, p, rfl, hrow⟩ := exists_row_of_tokenize hts
    obtain ⟨hrow', _⟩ := Word.reads_rule.mp hread
    have ht' : t'.isIdentifier := hlike.isIdentifier ▸ ht
    obtain ⟨rfl, rfl⟩ := eq_of_append_end hrow' hrow
      (by simp [Word.tokens, Token.isEnd_of_isIdentifier ht']) rfl hend
    exact ⟨t', _, hts, ht', hlike.2⟩

/-- What holds of every item that is read of a text holds of all items after commas. -/
theorem Rule.ItemsRead.forall_of_lexed {close : Char} {item : Rule α} {P : α → Prop}
    {ts us : List Token} {xs : List α} (h : ItemsRead close item ts xs us) (hts : Lexed ts)
    (hitem : ∀ {ts x us}, Lexed ts → item.Reads ts x us → P x ∧ Lexed us) :
    (∀ x ∈ xs, P x) ∧ Lexed us := by
  induction h with
  | nil _ => exact ⟨by simp, hts.tail⟩
  | cons _ _ hfirst _ ih =>
    obtain ⟨hx, hvs⟩ := hitem hts.tail hfirst
    obtain ⟨hxs, hus⟩ := ih hvs
    exact ⟨List.forall_mem_cons.mpr ⟨hx, hxs⟩, hus⟩

theorem Value.legible_of_reads {ts us : List Token} {v : Value} (hts : Lexed ts)
    (h : argument.Reads ts v us) : v.Legible ∧ Lexed us :=
  ⟨(reads_argument.mp h).legible hts, (reads_argument.mp h).lexed hts⟩

theorem FunctionCall.Reads.legible {ts us : List Token} {f : FunctionCall} (h : Reads ts f us)
    (hts : Lexed ts) : f.Legible := by
  obtain ⟨hname, hargs⟩ := h
  cases hargs with
  | none hopened _ =>
    exact ⟨hts.isName hname (Word.endsBefore_of_isPunct hopened (by decide)), by simp⟩
  | some hopened hfirst hmore =>
    have hfirst := Value.legible_of_reads hts.tail.tail (Value.reads_argument.mpr hfirst)
    obtain ⟨hvalues, _⟩ := hmore.forall_of_lexed hfirst.2 Value.legible_of_reads
    exact ⟨hts.isName hname (Word.endsBefore_of_isPunct hopened (by decide)),
      List.forall_mem_cons.mpr ⟨hfirst.1, hvalues⟩⟩

namespace Grouping

theorem EntryReads.legible {ts us : List Token} {e : String} (h : EntryReads ts e us)
    (hts : Lexed ts) : e = "*" ∨ ∃ w : Word, w.Spells e ∧ w.startsWithIdentifier := by
  cases h with
  | star _ _ => exact .inl rfl
  | name hw hfirst =>
    obtain ⟨w, hspells, hlike⟩ := Word.Reads.spells hts hw
    exact .inr ⟨w, hspells, hlike.startsWithIdentifier ▸ hfirst⟩

theorem Reads.legible {ts us : List Token} {g : Grouping} (h : Reads ts g us) (hts : Lexed ts) :
    g.Legible := by
  obtain ⟨_, _, hfirst, hmore⟩ := h
  have hentry := hfirst.legible hts.tail.tail
  obtain ⟨hentries, _⟩ := hmore.forall_of_lexed (hfirst.shows.lexed hts.tail.tail) fun hts h =>
    ⟨(reads_entryRule.mp h).legible hts, (reads_entryRule.mp h).shows.lexed hts⟩
  exact ⟨by simp, List.forall_mem_cons.mpr ⟨hentry, hentries⟩⟩

end Grouping

theorem Aggregator.Reads.legible {ts us : List Token} {a : Aggregator} (h : Reads ts a us)
    (hts : Lexed ts) : a.Legible := by
  cases h with
  | plain hname hcolon =>
    exact ⟨hts.isName hname (Word.endsBefore_of_isPunct hcolon (by decide)), by simp⟩
  | condition hname hopened hfilled hinside _ =>
    refine ⟨hts.isName hname (Word.endsBefore_of_isPunct hopened (by decide)), ?_⟩
    simpa using hinside.readsCondition hts.tail.tail hfilled

namespace Selection

theorem FunctionsRead.legible {ts us : List Token} {fs : List FunctionCall}
    (h : FunctionsRead ts fs us) (hts : Lexed ts) : ∀ f ∈ fs, f.Legible := by
  induction h with
  | nil _ => simp
  | cons _ hf _ ih =>
    exact List.forall_mem_cons.mpr ⟨hf.legible hts.tail, ih (hf.shows.lexed hts.tail)⟩

theorem GroupingReads.legible {ts us : List Token} {g : Option Grouping}
    (h : GroupingReads ts g us) (hts : Lexed ts) : ∀ x ∈ g, x.Legible := by
  cases h with
  | none _ => simp
  | some hg => simpa using hg.legible hts

/-- A selection that is read of a text can be read back, and so can its filter. -/
theorem Reads.legible {ts us : List Token} {s : Selection} (h : Reads ts s us) (hts : Lexed ts) :
    s.Legible ∧ s.filter.Legible := by
  obtain ⟨ha, hmetric, hfirst, _, hfilter, _, hg, hfs⟩ := h
  have hvs := ha.shows.lexed hts
  obtain ⟨w, hw, hlike⟩ := Word.Reads.spells hvs hmetric
  have hws := (Word.Reads.lexed hvs hmetric).tail
  obtain ⟨hlegible, hus, _⟩ := hfilter.legible hws
  exact ⟨⟨⟨_, rfl, ha.legible hts⟩, ⟨w, hw, hlike.startsWithIdentifier ▸ hfirst⟩,
    hg.legible hus.tail, hfs.legible (hg.shows.lexed hus.tail)⟩, hlegible⟩

end Selection

/-- A query that is read of a text can be read back, and so can its filter. -/
theorem Query.Reads.legible {ts us : List Token} {q : Query} (h : Reads ts q us) (hts : Lexed ts) :
    q.Legible ∧ q.innermost.filter.Legible := by
  induction h with
  | selection hs => exact hs.legible hts
  | call hname hopened hinside hmore ih =>
    obtain ⟨hbody, hfilter⟩ := ih hts.tail.tail
    obtain ⟨hargs, _⟩ :=
      hmore.forall_of_lexed (hinside.shows.lexed hts.tail.tail) Value.legible_of_reads
    exact ⟨⟨hts.isName hname (Word.endsBefore_of_isPunct hopened (by decide)), hbody, hargs⟩, hfilter⟩

-- ---------------------------------------------------------------------------
-- What comes back differs in numbers at most
-- ---------------------------------------------------------------------------

/-- Changes every number. -/
def Value.mapNumbers (f : Double → Double) : Value → Value
  | .number d => .number (f d)
  | v => v

def FilterValue.mapNumbers (f : Double → Double) : FilterValue → FilterValue
  | .single v => .single (v.mapNumbers f)
  | .list l => .list { l with items := l.items.map (Value.mapNumbers f) }

def Condition.mapNumbers (f : Double → Double) (c : Condition) : Condition :=
  { c with value := c.value.mapNumbers f }

def Filter.mapNumbers (f : Double → Double) (g : Filter) : Filter :=
  ⟨g.first.mapConditions (Condition.mapNumbers f),
    Param.mapConditionsIn (Condition.mapNumbers f) g.rest⟩

def FunctionCall.mapNumbers (f : Double → Double) (c : FunctionCall) : FunctionCall :=
  { c with args := c.args.map (Value.mapNumbers f) }

def Selection.mapNumbers (f : Double → Double) (s : Selection) : Selection :=
  { s with
    filter := s.filter.mapNumbers f
    functions := s.functions.map (FunctionCall.mapNumbers f) }

def Query.mapNumbers (f : Double → Double) : Query → Query
  | .selection s => .selection (s.mapNumbers f)
  | .call name body args => .call name (body.mapNumbers f) (args.map (Value.mapNumbers f))

theorem Value.reread_eq_mapNumbers : reread = mapNumbers Double.reread := by
  funext v
  cases v <;> rfl

theorem FunctionCall.reread_eq_mapNumbers : reread = mapNumbers Double.reread := by
  funext c
  rw [reread, mapNumbers, Value.reread_eq_mapNumbers]

/-- Reading back a condition changes nothing but numbers if its list is regular. -/
theorem Condition.reread_eq_mapNumbers {c : Condition} (h : c.value.Regular) :
    c.reread = c.mapNumbers Double.reread := by
  obtain ⟨negative, key, relation, v | l⟩ := c
  · simp [reread, mapNumbers, FilterValue.reread, FilterValue.mapNumbers, Value.reread_eq_mapNumbers]
  · have hshown : ValueList.shown l.items.tail l.connectives = l.connectives :=
      ValueList.shown_eq_iff.mpr (by simpa [FilterValue.Regular, ValueList.Regular] using h)
    simp [reread, mapNumbers, FilterValue.reread, FilterValue.mapNumbers, ValueList.reread,
      Value.reread_eq_mapNumbers, hshown]

namespace Param

mutual

theorem mapConditions_congr {f g : Condition → Condition} (p : Param)
    (h : ∀ c ∈ p.conditions, f c = g c) : p.mapConditions f = p.mapConditions g := by
  cases p with
  | group ps => simp only [mapConditions, mapConditionsIn_congr ps h]
  | condition c => simp [mapConditions, h c (by simp [conditions])]
  | connective _ | star => rfl

theorem mapConditionsIn_congr {f g : Condition → Condition} (ps : List Param)
    (h : ∀ c ∈ conditionsIn ps, f c = g c) : mapConditionsIn f ps = mapConditionsIn g ps := by
  cases ps with
  | nil => rfl
  | cons p ps =>
    simp only [conditionsIn, List.forall_mem_append] at h
    simp only [mapConditionsIn, mapConditions_congr p h.1, mapConditionsIn_congr ps h.2]

end

end Param

theorem ValueList.TailReads.length_connectives {ts us : List Token} {items : List Value}
    {cs : List Connective} (h : TailReads ts items cs us) : cs.length + 1 = items.length := by
  induction h with
  | last _ _ => rfl
  | cons _ _ _ ih => simp [← ih]

/-- Lists that are read have one connective between any two items. -/
theorem FilterValue.Reads.regular {ts us : List Token} {v : FilterValue} (h : Reads ts v us) :
    v.Regular := by
  cases h with
  | single _ => trivial
  | list hl =>
    cases hl with
    | empty _ _ => rfl
    | items _ htail =>
      have := htail.length_connectives
      simp only [Regular, ValueList.Regular]
      omega

theorem Condition.Reads.regular {ts us : List Token} {c : Condition} (h : Reads ts c us) :
    c.value.Regular := by
  cases h with
  | positive h | negative _ h =>
    obtain ⟨_, _, _, hvalue⟩ := h
    exact hvalue.regular

theorem Param.SequenceReads.regular {ts us : List Token} {ps : List Param}
    (h : SequenceReads ts ps us) : ∀ c ∈ conditionsIn ps, c.value.Regular := by
  induction h with
  | nil _ => simp [conditionsIn]
  | group _ _ _ _ ihin ih =>
    simp only [conditionsIn, conditions, List.forall_mem_append]
    exact ⟨ihin, ih⟩
  | connective _ _ ih | star _ _ ih => simpa [conditionsIn, conditions] using ih
  | condition hc _ ih =>
    simp only [conditionsIn, conditions, List.forall_mem_append, List.forall_mem_singleton]
    exact ⟨hc.regular, ih⟩

theorem Filter.reread_eq_mapNumbers {f : Filter} (h : ∀ c ∈ f.conditions, c.value.Regular) :
    f.reread = f.mapNumbers Double.reread := by
  have h : ∀ c ∈ f.first.conditions ++ Param.conditionsIn f.rest,
      c.reread = c.mapNumbers Double.reread := fun c hc =>
    Condition.reread_eq_mapNumbers (h c hc)
  rw [List.forall_mem_append] at h
  rw [reread, mapNumbers, Param.mapConditions_congr _ h.1, Param.mapConditionsIn_congr _ h.2]

/-- Reading back a query that was read changes nothing but numbers. -/
theorem Query.Reads.rereadWith_eq_mapNumbers {ts us : List Token} {q : Query} (h : Reads ts q us) :
    q.rereadWith q.innermost.filter.reread = q.mapNumbers Double.reread := by
  induction h with
  | selection hs =>
    obtain ⟨_, _, _, _, hfilter, _⟩ := hs
    have hfilter := Filter.reread_eq_mapNumbers hfilter.regular
    simp only [innermost, rereadWith, mapNumbers, Selection.rereadWith, Selection.mapNumbers,
      hfilter, FunctionCall.reread_eq_mapNumbers]
  | call _ _ _ _ ih =>
    simp only [innermost, rereadWith, mapNumbers, ih, Value.reread_eq_mapNumbers]

/-- What is read of the tokens of a text is read back from its own text, with the numbers
    that print, if no params of its filter run into each other. -/
theorem Query.Reads.readQuery_self {ts us : List Token} {q : Query} (h : Reads ts q us)
    (hts : Lexed ts) (hunfused : q.innermost.filter.isUnfused) :
    readQuery q.text = .ok (q.mapNumbers Double.reread) := by
  obtain ⟨hlegible, hfilter⟩ := h.legible hts
  have hline : IsLine q.innermost.filter.text := Param.isLine_textList _ hfilter
  rw [← h.rereadWith_eq_mapNumbers]
  exact hlegible.readQuery (hfilter.rereads hunfused) hline

/-- What is read of a text is read back from its own, with the numbers that print, if no
    params of its filter run into each other. -/
theorem Query.readQuery_text_of_readQuery {s : String} {q : Query} (h : readQuery s = .ok q)
    (hunfused : q.innermost.filter.isUnfused) :
    readQuery q.text = .ok (q.mapNumbers Double.reread) := by
  obtain ⟨ts, us, hts, hread, _⟩ := exists_reads_of_readText h
  exact (reads_rule.mp hread).readQuery_self (lexed_of_tokensOf hts).1 hunfused

-- ---------------------------------------------------------------------------
-- Given texts
-- ---------------------------------------------------------------------------

/-- The query `sum:m` filtered by a tag `a` that is equal to a value, and what stands
    beside that. -/
def Query.tagged (v : Value) (ps : List Param) : Query :=
  .selection ⟨some ⟨"sum", none⟩, "m", ⟨.condition ⟨false, "a", .equal, .single v⟩, ps⟩, none, []⟩

/-- A line is read as such a query if it is cut into the tokens before the value, a word,
    params and a brace. -/
theorem readQuery_tagged {text : String} {w : Word} {us : List Token} {ps : List Param}
    {x : Token} {p : Position} (ts : List Token) (hline : IsLine text)
    (hcut : cutWithin 20 .start text.toList = some
      (⟨.identifier, "sum", ⟨0, 1, 1⟩, 3⟩ :: ⟨.punct, ":", ⟨3, 1, 4⟩, 4⟩ ::
        ⟨.identifier, "m", ⟨4, 1, 5⟩, 5⟩ :: ⟨.punct, "\x7b", ⟨5, 1, 6⟩, 6⟩ ::
        ⟨.identifier, "a", ⟨6, 1, 7⟩, 7⟩ :: ⟨.punct, ":", ⟨7, 1, 8⟩, 8⟩ :: ts))
    (hw : Word.rule.Reads ts w us) (hplain : Connective.startsWord (peek ts) = false)
    (halone : ['>', '<', '~'].any ((peek ts).isPunct ·) = false)
    (hps : Param.SequenceReads us ps [x, .endAt p]) (hx : x.isPunct '\x7d') :
    readQuery text = .ok (.tagged (.ofWord w) ps) := by
  let key : List Token := ⟨.identifier, "a", ⟨6, 1, 7⟩, 7⟩ :: ⟨.punct, ":", ⟨7, 1, 8⟩, 8⟩ :: ts
  have hkey : Condition.startsKey (peek key) :=
    (rfl : Condition.startsKey ⟨.identifier, "a", ⟨6, 1, 7⟩, 7⟩)
  have hcondition : Condition.Reads key ⟨false, "a", .equal, .single (.ofWord w)⟩ us :=
    .positive (.mk hkey (Word.reads_single rfl rfl)
      (.equal rfl fun c hc => by
        simp [Relation.touched, List.any_eq_false.mp halone c hc])
      (.single (.argument hplain (.word hw))))
  have hmetric : (⟨⟨.identifier, "m", ⟨4, 1, 5⟩, 5⟩, []⟩ : Word).text = "m" := rfl
  have hname (vs : List Token) : Word.rule.Reads _ ⟨⟨.identifier, "m", ⟨4, 1, 5⟩, 5⟩, []⟩
      (⟨.punct, "\x7b", ⟨5, 1, 6⟩, 6⟩ :: vs) := Word.reads_single rfl rfl
  have hsum (vs : List Token) : Aggregator.Reads (⟨.identifier, "sum", ⟨0, 1, 1⟩, 3⟩ ::
      ⟨.punct, ":", ⟨3, 1, 4⟩, 4⟩ :: vs) ⟨"sum", none⟩ vs := .plain rfl rfl
  have hread := Query.Reads.selection (.mk (f := ⟨.condition _, ps⟩) (hsum _) (hname _) rfl rfl
    (.condition hcondition hps) hx (.none rfl) (.nil (rfl : (peek [Token.endAt p]).isPunct '.' = false)))
  rw [hmetric] at hread
  exact readText_of_reads hline (tokensAt_of_cutWithin hcut) (Query.reads_rule.mpr hread) rfl

theorem Value.ofWord_number {w : Word} {d : Double} (hkeyword : Keyword.ofText? w.text = none)
    (hnumber : w.isNumber) (hread : Double.read? w.text.toList = some d) :
    ofWord w = .number d := by
  simp [ofWord, hkeyword, hnumber, hread]

theorem readQuery_zero : readQuery "sum:m\x7ba:0\x7d" = .ok (.tagged (.number (.zero false)) []) := by
  have hword : Value.ofWord ⟨⟨.integer, "0", ⟨8, 1, 9⟩, 9⟩, []⟩ = .number (.zero false) :=
    Value.ofWord_number rfl rfl rfl
  rw [← hword]
  exact readQuery_tagged [⟨.integer, "0", ⟨8, 1, 9⟩, 9⟩, ⟨.punct, "\x7d", ⟨9, 1, 10⟩, 10⟩,
      .endAt ⟨10, 1, 11⟩] rfl
    rfl ⟨by decide, rfl⟩ rfl rfl (.nil rfl) rfl

theorem readQuery_beside :
    readQuery "sum:m\x7ba:b *\x7d" = .ok (.tagged (.identifier "b") [.star]) := by
  have hword : Value.ofWord ⟨⟨.identifier, "b", ⟨8, 1, 9⟩, 9⟩, []⟩ = .identifier "b" := by rfl
  rw [← hword]
  exact readQuery_tagged [⟨.identifier, "b", ⟨8, 1, 9⟩, 9⟩, ⟨.punct, "*", ⟨10, 1, 11⟩, 11⟩,
      ⟨.punct, "\x7d", ⟨11, 1, 12⟩, 12⟩, .endAt ⟨12, 1, 13⟩] rfl
    rfl ⟨by decide, rfl⟩ rfl rfl (.star rfl (.nil rfl)) rfl

theorem readQuery_joined :
    readQuery "sum:m\x7ba:b*\x7d" = .ok (.tagged (.wildcard "b*") []) := by
  have hword : Value.ofWord ⟨⟨.identifier, "b*", ⟨8, 1, 9⟩, 10⟩, []⟩ = .wildcard "b*" := by rfl
  rw [← hword]
  exact readQuery_tagged [⟨.identifier, "b*", ⟨8, 1, 9⟩, 10⟩,
      ⟨.punct, "\x7d", ⟨10, 1, 11⟩, 11⟩, .endAt ⟨11, 1, 12⟩] rfl
    rfl ⟨by decide, rfl⟩ rfl rfl (.nil rfl) rfl

/-- A number below the last decimal that prints. -/
def Double.small : Double := ⟨false, 0x3C9CD2B297D889BC, by decide⟩

theorem readQuery_small :
    readQuery "sum:m\x7ba:0.0000000000000001\x7d" = .ok (.tagged (.number .small) []) := by
  have hword : Value.ofWord ⟨⟨.float, "0.0000000000000001", ⟨8, 1, 9⟩, 26⟩, []⟩ = .number .small :=
    Value.ofWord_number (by decide +kernel) rfl (by decide +kernel)
  rw [← hword]
  exact readQuery_tagged [⟨.float, "0.0000000000000001", ⟨8, 1, 9⟩, 26⟩,
      ⟨.punct, "\x7d", ⟨26, 1, 27⟩, 27⟩, .endAt ⟨27, 1, 28⟩] rfl
    rfl ⟨by decide, rfl⟩ rfl rfl (.nil rfl) rfl

-- ---------------------------------------------------------------------------
-- What a text tells
-- ---------------------------------------------------------------------------

/-- The text of a query tells it: queries that were read and print alike are the same
    when each number is taken as it prints, unless params in their filters run into each other. -/
theorem readQuery_eq_of_text_eq {s s' : String} {q q' : Query} (h : readQuery s = .ok q)
    (h' : readQuery s' = .ok q') (hunfused : q.innermost.filter.isUnfused)
    (hunfused' : q'.innermost.filter.isUnfused) (htext : q.text = q'.text) :
    q.mapNumbers Double.reread = q'.mapNumbers Double.reread := by
  have hq := Query.readQuery_text_of_readQuery h hunfused
  have hq' := Query.readQuery_text_of_readQuery h' hunfused'
  rw [htext, hq'] at hq
  exact (Except.ok.inj hq).symm

/-- For instance two queries that were read of different texts. -/
theorem readQuery_eq_of_text_eq_rounded :
    let q := Query.tagged (.number .small) []
    let q' := Query.tagged (.number (.zero false)) []
    readQuery "sum:m\x7ba:0.0000000000000001\x7d" = .ok q ∧ readQuery "sum:m\x7ba:0\x7d" = .ok q' ∧
      q.innermost.filter.isUnfused ∧ q'.innermost.filter.isUnfused ∧ q.text = q'.text ∧
      q.mapNumbers Double.reread = q'.mapNumbers Double.reread := by
  intro q q'
  have htext : q.text = q'.text := by decide +kernel
  exact ⟨readQuery_small, readQuery_zero, rfl, rfl, htext,
    readQuery_eq_of_text_eq readQuery_small readQuery_zero rfl rfl htext⟩

/-- Two numbers that are rounded to the same decimals print alike, and so do two params
    that print side by side and the one param that they run into. -/
theorem readQuery_text_not_injective :
    (∃ q q', readQuery "sum:m\x7ba:0.0000000000000001\x7d" = .ok q ∧
      readQuery "sum:m\x7ba:0\x7d" = .ok q' ∧ q.text = q'.text ∧ (q == q') = false) ∧
    ∃ q q', readQuery "sum:m\x7ba:b *\x7d" = .ok q ∧ readQuery "sum:m\x7ba:b*\x7d" = .ok q' ∧
      q.text = q'.text ∧ (q == q') = false :=
  ⟨⟨_, _, readQuery_small, readQuery_zero, by decide +kernel, by decide +kernel⟩,
    _, _, readQuery_beside, readQuery_joined, by decide +kernel, by decide +kernel⟩

end MetricLang
