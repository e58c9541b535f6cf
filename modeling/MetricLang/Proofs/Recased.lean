-- SUMMARY: Rows of tokens that differ in letter case, trees in lower case, and the words and values read of such rows.
import MetricLang.Proofs.Layout

/-!
# Rows in another letter case

Recased rows differ in the case of the letters in their identifiers at most. `lower` puts
all that a tree keeps as text into lower case: names, keys, words and conditions. Two trees
with the same lower case have one shape, and have operators, connectives, truth values,
numbers and strings in common. `IgnoresCase` says of a reading that it reads of every
recased row what it reads of a row, up to that; words and values come first.
-/

namespace MetricLang

-- ---------------------------------------------------------------------------
-- Letters
-- ---------------------------------------------------------------------------

theorem toList_toLower (s : String) : s.toLower.toList = s.toList.map Char.toLower :=
  String.toList_map

theorem sameLetters_iff {a b : String} : sameLetters a b ↔ a.toLower = b.toLower := by
  simp [sameLetters, ← String.toList_inj, toList_toLower]

theorem toLower_append (a b : String) : (a ++ b).toLower = a.toLower ++ b.toLower := by
  simp [← String.toList_inj, toList_toLower]

theorem toLower_eq_star {c : Char} : c.toLower = '*' ↔ c = '*' := by
  delta Char.toLower
  split
  · next hupper =>
    have hrange : 65 ≤ c.toNat ∧ c.toNat ≤ 90 := hupper
    constructor
    · intro h
      have hval := congrArg (fun d : Char => d.val.toNat) h
      simp [UInt32.toNat_add] at hval
      omega
    · rintro rfl
      simp at hrange
  · rfl

theorem star_mem_toLower {s : String} : '*' ∈ s.toLower.toList ↔ '*' ∈ s.toList := by
  simp [toList_toLower, toLower_eq_star]

-- ---------------------------------------------------------------------------
-- Trees in lower case
-- ---------------------------------------------------------------------------

/-- The value with its word, if it is one, in lower case. A string is kept as it is. -/
def Value.lower : Value → Value
  | .identifier name => .identifier name.toLower
  | .wildcard pattern => .wildcard pattern.toLower
  | v => v

def ValueList.lower (l : ValueList) : ValueList := { l with items := l.items.map Value.lower }

def FilterValue.lower : FilterValue → FilterValue
  | .single v => .single v.lower
  | .list l => .list l.lower

def Condition.lower (c : Condition) : Condition :=
  { c with key := c.key.toLower, value := c.value.lower }

namespace Param

mutual

def lower : Param → Param
  | .group ps => .group (lowerList ps)
  | .connective c => .connective c
  | .condition c => .condition c.lower
  | .star => .star

def lowerList : List Param → List Param
  | [] => []
  | p :: ps => p.lower :: lowerList ps

end

end Param

def Filter.lower (f : Filter) : Filter := ⟨f.first.lower, Param.lowerList f.rest⟩

def FunctionCall.lower (c : FunctionCall) : FunctionCall :=
  ⟨c.name.toLower, c.args.map Value.lower⟩

def Grouping.lower (g : Grouping) : Grouping := ⟨g.entries.map String.toLower⟩

def Aggregator.lower (a : Aggregator) : Aggregator :=
  ⟨a.name.toLower, a.condition.map String.toLower⟩

def Selection.lower (s : Selection) : Selection :=
  ⟨s.aggregator.map Aggregator.lower, s.metric.toLower, s.filter.lower,
    s.grouping.map Grouping.lower, s.functions.map FunctionCall.lower⟩

def Query.lower : Query → Query
  | .selection s => .selection s.lower
  | .call name body args => .call name.toLower body.lower (args.map Value.lower)

mutual

def Operand.lower : Operand → Operand
  | .number d => .number d
  | .query q => .query q.lower
  | .call name body args => .call name.toLower body.lower (args.map Value.lower)
  | .group body => .group body.lower

def Term.lower : Term → Term
  | .single v => .single v.lower
  | .snoc init op last => .snoc init.lower op last.lower

def Expression.lower : Expression → Expression
  | .single t => .single t.lower
  | .snoc init op last => .snoc init.lower op last.lower

end

def Monitor.lower (m : Monitor) : Monitor :=
  { m with aggregation := m.aggregation.toLower, window := m.window.toLower, query := m.query.lower }

-- ---------------------------------------------------------------------------
-- Tokens
-- ---------------------------------------------------------------------------

/-- Two tokens that differ in the case of letters at most, and that only if they are
    identifiers. -/
structure Token.Recased (t t' : Token) : Prop where
  kind : t.kind = t'.kind
  start : t.start = t'.start
  stop : t.stop = t'.stop
  letters : sameLetters t.text t'.text
  exact : t.isIdentifier = false → t.text = t'.text

namespace Token.Recased

variable {t t' u u' : Token}

instance : Decidable (Recased t t') :=
  decidable_of_iff (t.kind = t'.kind ∧ t.start = t'.start ∧ t.stop = t'.stop ∧
      sameLetters t.text t'.text ∧ (t.isIdentifier = false → t.text = t'.text))
    ⟨fun ⟨hkind, hstart, hstop, hletters, hexact⟩ => ⟨hkind, hstart, hstop, hletters, hexact⟩,
      fun h => ⟨h.kind, h.start, h.stop, h.letters, h.exact⟩⟩

theorem refl (t : Token) : Recased t t := ⟨rfl, rfl, rfl, sameLetters_refl _, fun _ => rfl⟩

theorem isIdentifier (h : Recased t t') : t.isIdentifier = t'.isIdentifier := by
  simp [Token.isIdentifier, h.kind]

theorem symm (h : Recased t t') : Recased t' t :=
  ⟨h.kind.symm, h.start.symm, h.stop.symm, sameLetters_comm _ _ ▸ h.letters,
    fun hother => (h.exact (h.isIdentifier ▸ hother)).symm⟩

theorem text (h : Recased t t') : t.text.toLower = t'.text.toLower := sameLetters_iff.mp h.letters

theorem isEnd (h : Recased t t') : t.isEnd = t'.isEnd := by simp [Token.isEnd, h.kind]

theorem isNumber (h : Recased t t') : t.isNumber = t'.isNumber := by simp [Token.isNumber, h.kind]

theorem isPunct (h : Recased t t') (c : Char) : t.isPunct c = t'.isPunct c := by
  by_cases hkind : t.kind = .punct
  · simp [Token.isPunct, ← h.kind, h.exact (by simp [Token.isIdentifier, hkind])]
  · simp [Token.isPunct, ← h.kind, hkind]

/-- Keywords are compared without the case of letters, so both or neither is one. -/
theorem isKeyword (h : Recased t t') (word : String) : t.isKeyword word = t'.isKeyword word := by
  simp only [Token.isKeyword, h.isIdentifier, sameLetters, of_decide_eq_true h.letters]

theorem touches (h : Recased t t') (hnext : Recased u u') : t.touches u = t'.touches u' := by
  simp [Token.touches, h.stop, hnext.isEnd, hnext.start]

theorem eq_of_isNumber (h : Recased t t') (ht : t.isNumber) : t.text = t'.text := by
  refine h.exact ?_
  simp only [Token.isNumber, decide_eq_true_eq] at ht
  obtain ht | ht := ht <;> simp [Token.isIdentifier, ht]

theorem source (h : Recased t t') : t.source.toLower = t'.source.toLower := by
  by_cases hword : t.isIdentifier
  · have hkind : t.kind = .identifier := of_decide_eq_true hword
    simp only [Token.source, ← h.kind, hkind, h.text]
  · simp only [Token.source, ← h.kind, h.exact (Bool.eq_false_iff.mpr hword)]

theorem canStart (h : Recased t t') : Word.canStart t = Word.canStart t' := by
  simp [Word.canStart, h.isIdentifier, h.isNumber, h.isPunct]

theorem canContinue (h : Recased t t') : Word.canContinue t = Word.canContinue t' := by
  simp [Word.canContinue, h.isIdentifier, h.isNumber, h.isPunct]

end Token.Recased

-- ---------------------------------------------------------------------------
-- Rows
-- ---------------------------------------------------------------------------

/-- Two rows that differ in the case of the letters in their identifiers at most. -/
abbrev Recased (ts ts' : List Token) : Prop := List.Forall₂ Token.Recased ts ts'

namespace Recased

variable {ts ts' row : List Token} {t : Token}

theorem symm (h : Recased ts ts') : Recased ts' ts :=
  (h.imp fun _ _ => Token.Recased.symm).flip

theorem head (h : Recased ts ts') : Token.Recased (peek ts) (peek ts') := by
  cases h with
  | nil => exact .refl _
  | cons hfirst _ => exact hfirst

theorem uncons (h : Recased (t :: ts) row) :
    ∃ t' ts', row = t' :: ts' ∧ Token.Recased t t' ∧ Recased ts ts' := by
  cases h with
  | cons hfirst hmore => exact ⟨_, _, rfl, hfirst, hmore⟩

theorem uncons_punct {c : Char} (h : Recased (t :: ts) row) (ht : t.isPunct c) :
    ∃ t' ts', row = t' :: ts' ∧ t'.isPunct c ∧ Recased ts ts' := by
  obtain ⟨t', ts', rfl, hfirst, hts⟩ := h.uncons
  exact ⟨t', ts', rfl, hfirst.isPunct c ▸ ht, hts⟩

theorem uncons_keyword {word : String} (h : Recased (t :: ts) row) (ht : t.isKeyword word) :
    ∃ t' ts', row = t' :: ts' ∧ t'.isKeyword word ∧ Recased ts ts' := by
  obtain ⟨t', ts', rfl, hfirst, hts⟩ := h.uncons
  exact ⟨t', ts', rfl, hfirst.isKeyword word ▸ ht, hts⟩

theorem uncons_identifier (h : Recased (t :: ts) row) (ht : t.isIdentifier) :
    ∃ t' ts', row = t' :: ts' ∧ t'.isIdentifier ∧ t.text.toLower = t'.text.toLower ∧
      Recased ts ts' := by
  obtain ⟨t', ts', rfl, hfirst, hts⟩ := h.uncons
  exact ⟨t', ts', rfl, hfirst.isIdentifier ▸ ht, hfirst.text, hts⟩

theorem uncons_number (h : Recased (t :: ts) row) (ht : t.isNumber) :
    ∃ t' ts', row = t' :: ts' ∧ t'.isNumber ∧ t.text = t'.text ∧ Recased ts ts' := by
  obtain ⟨t', ts', rfl, hfirst, hts⟩ := h.uncons
  exact ⟨t', ts', rfl, hfirst.isNumber ▸ ht, hfirst.eq_of_isNumber ht, hts⟩

theorem touched (h : Recased (t :: ts) row) : ∃ t' ts', row = t' :: ts' ∧ Token.Recased t t' ∧
    (∀ c, Relation.touched t c ts = Relation.touched t' c ts') ∧ Recased ts ts' := by
  obtain ⟨t', ts', rfl, hfirst, hts⟩ := h.uncons
  exact ⟨t', ts', rfl, hfirst,
    fun c => by simp [Relation.touched, hts.head.isPunct, hfirst.touches hts.head], hts⟩

end Recased

/-- What is read of a row is read of every recased row, up to letter case, and what is left
    of it is recased. -/
def IgnoresCase (lower : α → β) (reads : List Token → α → List Token → Prop) : Prop :=
  ∀ ⦃ts ts' us : List Token⦄ ⦃x : α⦄, Recased ts ts' → reads ts x us →
    ∃ x' us', reads ts' x' us' ∧ lower x = lower x' ∧ Recased us us'

theorem IgnoresCase.of_iff {lower : α → β} {reads reads' : List Token → α → List Token → Prop}
    (h : IgnoresCase lower reads) (hiff : ∀ {ts x us}, reads' ts x us ↔ reads ts x us) :
    IgnoresCase lower reads' := by
  intro ts ts' us x hrow hread
  obtain ⟨x', us', hread', hx, hus⟩ := h hrow (hiff.mp hread)
  exact ⟨x', us', hiff.mpr hread', hx, hus⟩

-- ---------------------------------------------------------------------------
-- Words and values
-- ---------------------------------------------------------------------------

namespace Word

variable {w w' : Word} {ts ts' us : List Token}

theorem runs_of_recased {t : Token} {more row : List Token} (hruns : Runs t more us)
    (h : Recased (t :: (more ++ us)) row) : ∃ t' more' us', row = t' :: (more' ++ us') ∧
      Recased (t :: more) (t' :: more') ∧ Recased us us' ∧ Runs t' more' us' := by
  induction more generalizing t row with
  | nil =>
    obtain ⟨t', us', rfl, ht, hus⟩ := h.uncons
    refine ⟨t', [], us', rfl, .cons ht .nil, hus, ?_⟩
    rwa [Runs, joins, ← ht.touches hus.head, ← hus.head.canContinue]
  | cons u more ih =>
    obtain ⟨hjoins, hruns⟩ := hruns
    obtain ⟨t', row, rfl, ht, hrow⟩ := h.uncons
    obtain ⟨u', more', us', rfl, hmore, hus, hruns'⟩ := ih hruns hrow
    have hu := (List.forall₂_cons.mp hmore).1
    refine ⟨t', u' :: more', us', rfl, .cons ht hmore, hus, ?_, hruns'⟩
    rwa [joins, ← ht.touches hu, ← hu.canContinue]

theorem reads_of_recased (hrow : Recased ts ts') (h : rule.Reads ts w us) :
    ∃ w' us', rule.Reads ts' w' us' ∧ Recased w.tokens w'.tokens ∧ Recased us us' := by
  obtain ⟨rfl, hstart, hruns, hlone⟩ := reads_rule.mp h
  obtain ⟨t', more', us', rfl, htokens, hus, hruns'⟩ := runs_of_recased hruns hrow
  obtain ⟨hfirst, hmore⟩ := List.forall₂_cons.mp htokens
  refine ⟨⟨t', more'⟩, us', reads_rule.mpr ⟨rfl, hfirst.canStart ▸ hstart, hruns', ?_⟩, htokens, hus⟩
  rintro ⟨hnot, hnil⟩
  have hnil : more' = [] := hnil
  rw [hnil, List.forall₂_nil_right_iff] at hmore
  exact hlone ⟨hfirst.isPunct '!' ▸ hnot, hmore⟩

theorem text_of_recased (h : Recased w.tokens w'.tokens) : w.text.toLower = w'.text.toLower := by
  unfold Word.text
  generalize w.tokens = ts, w'.tokens = ts' at h
  induction h with
  | nil => rfl
  | cons hfirst _ ih => simp only [List.map_cons, String.join_cons, toLower_append, hfirst.text, ih]

theorem startsWithIdentifier_of_recased (h : Recased w.tokens w'.tokens) :
    w.startsWithIdentifier = w'.startsWithIdentifier :=
  (List.forall₂_cons.mp h).1.isIdentifier

theorem isNumber_of_recased (h : Recased w.tokens w'.tokens) : w.isNumber = w'.isNumber := by
  obtain ⟨hfirst, hmore⟩ := List.forall₂_cons.mp h
  simp only [isNumber, hfirst.isNumber]
  cases hw : w.more <;> cases hw' : w'.more <;> simp_all

theorem text_of_isNumber_of_recased (h : Recased w.tokens w'.tokens) (hw : w.isNumber) :
    w.text = w'.text := by
  have hw' := isNumber_of_recased h ▸ hw
  obtain ⟨hfirst, _⟩ := List.forall₂_cons.mp h
  simp only [isNumber, Bool.and_eq_true, decide_eq_true_eq] at hw hw'
  simp [Word.text, Word.tokens, hw.2, hw'.2, hfirst.eq_of_isNumber hw.1]

end Word

theorem Keyword.ofText?_of_toLower {a b : String} (h : a.toLower = b.toLower) :
    ofText? a = ofText? b := by
  have hsame : ∀ k : Keyword, sameLetters k.spelling a = sameLetters k.spelling b := fun k => by
    rw [Bool.eq_iff_iff, sameLetters_iff, sameLetters_iff, h]
  simp [ofText?, hsame]

theorem Value.lower_ofWord {w w' : Word} (h : Recased w.tokens w'.tokens) :
    (ofWord w).lower = (ofWord w').lower := by
  have htext := Word.text_of_recased h
  have hstar : '*' ∈ w.text.toList ↔ '*' ∈ w'.text.toList := by
    rw [← star_mem_toLower, htext, star_mem_toLower]
  have hnumber : (if w.isNumber then Double.read? w.text.toList else none) =
      if w'.isNumber then Double.read? w'.text.toList else none := by
    rw [← Word.isNumber_of_recased h]
    split
    · rw [Word.text_of_isNumber_of_recased h ‹_›]
    · rfl
  rw [ofWord, ofWord, Keyword.ofText?_of_toLower htext, hnumber]
  cases (Keyword.ofText? w'.text).bind Keyword.boolean? with
  | some b => rfl
  | none =>
    cases if w'.isNumber then Double.read? w'.text.toList else none with
    | some d => rfl
    | none => by_cases h : '*' ∈ w'.text.toList <;> simp [hstar, h, lower, htext]

theorem Connective.startsWord_of_recased {t t' : Token} (h : Token.Recased t t') :
    startsWord t = startsWord t' := by
  simp [startsWord, h.isKeyword]

theorem Connective.words_ignoreCase : IgnoresCase id Connective.WordReads := by
  intro ts ts' us c hrow h
  cases h with
  | and hfirst halone =>
    obtain ⟨t', us', rfl, hfirst', hus⟩ := hrow.uncons_keyword hfirst
    exact ⟨_, us', .and hfirst' (hus.head.isKeyword _ ▸ halone), rfl, hus⟩
  | andNot hfirst hsecond =>
    obtain ⟨t', row, rfl, hfirst', hrow⟩ := hrow.uncons_keyword hfirst
    obtain ⟨u', us', rfl, hsecond', hus⟩ := hrow.uncons_keyword hsecond
    exact ⟨_, us', .andNot hfirst' hsecond', rfl, hus⟩
  | or hfirst =>
    obtain ⟨t', us', rfl, hfirst', hus⟩ := hrow.uncons_keyword hfirst
    exact ⟨_, us', .or hfirst', rfl, hus⟩
  | isIn hfirst =>
    obtain ⟨t', us', rfl, hfirst', hus⟩ := hrow.uncons_keyword hfirst
    exact ⟨_, us', .isIn hfirst', rfl, hus⟩

theorem Connective.ignoresCase : IgnoresCase id Connective.Reads := by
  intro ts ts' us c hrow h
  cases h with
  | comma hcomma =>
    obtain ⟨t', us', rfl, hcomma', hus⟩ := hrow.uncons_punct hcomma
    exact ⟨_, us', .comma hcomma', rfl, hus⟩
  | word hword =>
    obtain ⟨c', us', hword', hc, hus⟩ := Connective.words_ignoreCase hrow hword
    exact ⟨c', us', .word hword', hc, hus⟩

theorem Value.argument_ignoresCase : IgnoresCase Value.lower Value.ArgumentReads := by
  intro ts ts' us v hrow h
  cases h with
  | string hstring =>
    obtain ⟨t', us', rfl, ht, hus⟩ := hrow.uncons
    have htext := ht.exact (by simp [Token.isIdentifier, hstring])
    exact ⟨_, us', .string (ht.kind ▸ hstring), by rw [htext], hus⟩
  | word hword =>
    obtain ⟨w', us', hword', hw, hus⟩ := Word.reads_of_recased hrow hword
    exact ⟨_, us', .word hword', Value.lower_ofWord hw, hus⟩

theorem Value.ignoresCase : IgnoresCase Value.lower Value.Reads := by
  intro ts ts' us v hrow h
  cases h with
  | connective hc =>
    obtain ⟨c', us', hc', rfl, hus⟩ := Connective.words_ignoreCase hrow hc
    exact ⟨_, us', .connective hc', rfl, hus⟩
  | argument hplain hv =>
    obtain ⟨v', us', hv', hlower, hus⟩ := Value.argument_ignoresCase hrow hv
    exact ⟨v', us', .argument (Connective.startsWord_of_recased hrow.head ▸ hplain) hv', hlower, hus⟩

theorem Rule.items_ignoreCase {close : Char} {item : Rule α} {lower : α → β}
    (hitem : IgnoresCase lower item.Reads) :
    IgnoresCase (List.map lower) (Rule.ItemsRead close item) := by
  intro ts ts' us xs hrow h
  induction h generalizing ts' with
  | nil hclosed =>
    obtain ⟨t', us', rfl, hclosed', hus⟩ := hrow.uncons_punct hclosed
    exact ⟨[], us', .nil hclosed', rfl, hus⟩
  | cons hgoes hcomma hfirst _ ih =>
    obtain ⟨t', row, rfl, ht, hrow⟩ := hrow.uncons
    obtain ⟨x', row, hfirst', hx, hrow⟩ := hitem hrow hfirst
    obtain ⟨xs', us', hmore', hxs, hus⟩ := ih hrow
    exact ⟨x' :: xs', us', .cons (ht.isPunct _ ▸ hgoes) (ht.isPunct _ ▸ hcomma) hfirst' hmore',
      congrArg₂ List.cons hx hxs, hus⟩

theorem Value.arguments_ignoreCase :
    IgnoresCase (List.map Value.lower) (Rule.ItemsRead ')' Value.argument) :=
  Rule.items_ignoreCase (Value.argument_ignoresCase.of_iff Value.reads_argument)

end MetricLang
