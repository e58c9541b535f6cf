-- SUMMARY: Keywords are recognised in any case, and nothing else depends on the case of letters.
import MetricLang.Proofs.Recased

/-!
# Letter case

What a rule reads of one row it reads of every recased one, up to the case of what is kept
as text. Where the rules try one reading only if another fails, the failure carries over
because being recased is symmetric.
-/

namespace MetricLang

-- ---------------------------------------------------------------------------
-- Filters
-- ---------------------------------------------------------------------------

theorem Relation.ignoresCase : IgnoresCase id Relation.Reads := by
  intro ts ts' us r hrow h
  cases h with
  | equal hcolon halone =>
    obtain ⟨t', us', rfl, ht, htouched, hus⟩ := hrow.touched
    exact ⟨_, us', .equal (ht.isPunct _ ▸ hcolon) fun c hc => htouched c ▸ halone c hc, rfl, hus⟩
  | greater hcolon hsign halone =>
    obtain ⟨t', row, rfl, ht, htouched, hrow⟩ := hrow.touched
    rw [htouched] at hsign
    obtain ⟨u', us', rfl, _, htouched, hus⟩ := hrow.touched
    exact ⟨_, us', .greater (ht.isPunct _ ▸ hcolon) hsign (htouched _ ▸ halone), rfl, hus⟩
  | less hcolon hsign halone =>
    obtain ⟨t', row, rfl, ht, htouched, hrow⟩ := hrow.touched
    rw [htouched] at hsign
    obtain ⟨u', us', rfl, _, htouched, hus⟩ := hrow.touched
    exact ⟨_, us', .less (ht.isPunct _ ▸ hcolon) hsign (htouched _ ▸ halone), rfl, hus⟩
  | greaterEqual hcolon hsign hequals =>
    obtain ⟨t', row, rfl, ht, htouched, hrow⟩ := hrow.touched
    rw [htouched] at hsign
    obtain ⟨u', row, rfl, _, htouched, hrow⟩ := hrow.touched
    rw [htouched] at hequals
    obtain ⟨v', us', rfl, _, hus⟩ := hrow.uncons
    exact ⟨_, us', .greaterEqual (ht.isPunct _ ▸ hcolon) hsign hequals, rfl, hus⟩
  | lessEqual hcolon hsign hequals =>
    obtain ⟨t', row, rfl, ht, htouched, hrow⟩ := hrow.touched
    rw [htouched] at hsign
    obtain ⟨u', row, rfl, _, htouched, hrow⟩ := hrow.touched
    rw [htouched] at hequals
    obtain ⟨v', us', rfl, _, hus⟩ := hrow.uncons
    exact ⟨_, us', .lessEqual (ht.isPunct _ ▸ hcolon) hsign hequals, rfl, hus⟩
  | regex hcolon hsign =>
    obtain ⟨t', row, rfl, ht, htouched, hrow⟩ := hrow.touched
    rw [htouched] at hsign
    obtain ⟨u', us', rfl, _, hus⟩ := hrow.uncons
    exact ⟨_, us', .regex (ht.isPunct _ ▸ hcolon) hsign, rfl, hus⟩
  | isIn hword =>
    obtain ⟨t', us', rfl, hword', hus⟩ := hrow.uncons_keyword hword
    exact ⟨_, us', .isIn hword', rfl, hus⟩
  | notIn hfirst hsecond =>
    obtain ⟨t', row, rfl, hfirst', hrow⟩ := hrow.uncons_keyword hfirst
    obtain ⟨u', us', rfl, hsecond', hus⟩ := hrow.uncons_keyword hsecond
    exact ⟨_, us', .notIn hfirst' hsecond', rfl, hus⟩
  | andNot hfirst hsecond =>
    obtain ⟨t', row, rfl, hfirst', hrow⟩ := hrow.uncons_keyword hfirst
    obtain ⟨u', us', rfl, hsecond', hus⟩ := hrow.uncons_keyword hsecond
    exact ⟨_, us', .andNot hfirst' hsecond', rfl, hus⟩

theorem ValueList.tail_of_recased {ts ts' us : List Token} {items : List Value}
    {connectives : List Connective} (hrow : Recased ts ts')
    (h : TailReads ts items connectives us) : ∃ items' us', TailReads ts' items' connectives us' ∧
      items.map Value.lower = items'.map Value.lower ∧ Recased us us' := by
  induction h generalizing ts' with
  | last hitem hclosed =>
    obtain ⟨v', row, hitem', hv, hrow⟩ := Value.ignoresCase hrow hitem
    obtain ⟨t', us', rfl, hclosed', hus⟩ := hrow.uncons_punct hclosed
    exact ⟨[v'], us', .last hitem' hclosed', congrArg (fun v => [v]) hv, hus⟩
  | cons hitem hc _ ih =>
    obtain ⟨v', row, hitem', hv, hrow⟩ := Value.ignoresCase hrow hitem
    obtain ⟨_, row, hc', rfl, hrow⟩ := Connective.ignoresCase hrow hc
    obtain ⟨items', us', htail', hitems, hus⟩ := ih hrow
    exact ⟨v' :: items', us', .cons hitem' hc' htail', congrArg₂ List.cons hv hitems, hus⟩

theorem ValueList.ignoresCase : IgnoresCase ValueList.lower ValueList.Reads := by
  intro ts ts' us l hrow h
  cases h with
  | empty hopened hclosed =>
    obtain ⟨t', row, rfl, hopened', hrow⟩ := hrow.uncons_punct hopened
    obtain ⟨u', us', rfl, hclosed', hus⟩ := hrow.uncons_punct hclosed
    exact ⟨_, us', .empty hopened' hclosed', rfl, hus⟩
  | items hopened htail =>
    obtain ⟨t', row, rfl, hopened', hrow⟩ := hrow.uncons_punct hopened
    obtain ⟨items', us', htail', hitems, hus⟩ := tail_of_recased hrow htail
    exact ⟨_, us', .items hopened' htail', by simp [lower, hitems], hus⟩

theorem FilterValue.ignoresCase : IgnoresCase FilterValue.lower FilterValue.Reads := by
  intro ts ts' us v hrow h
  cases h with
  | single hv =>
    obtain ⟨v', us', hv', hlower, hus⟩ := Value.ignoresCase hrow hv
    exact ⟨_, us', .single hv', congrArg FilterValue.single hlower, hus⟩
  | list hl =>
    obtain ⟨l', us', hl', hlower, hus⟩ := ValueList.ignoresCase hrow hl
    exact ⟨_, us', .list hl', congrArg FilterValue.list hlower, hus⟩

namespace Condition

theorem startsKey_of_recased {t t' : Token} (h : Token.Recased t t') : startsKey t = startsKey t' := by
  simp [startsKey, h.isIdentifier, h.isNumber, Keyword.ofText?_of_toLower h.text]

theorem positive_ignoresCase {negative : Bool} :
    IgnoresCase Condition.lower (PositiveReads negative) := by
  rintro ts ts' us _ hrow ⟨hstarts, hkey, hrelation, hvalue⟩
  have hstarts' := startsKey_of_recased hrow.head ▸ hstarts
  obtain ⟨w', row, hkey', hw, hrow⟩ := Word.reads_of_recased hrow hkey
  obtain ⟨_, row, hrelation', rfl, hrow⟩ := Relation.ignoresCase hrow hrelation
  obtain ⟨v', us', hvalue', hv, hus⟩ := FilterValue.ignoresCase hrow hvalue
  exact ⟨_, us', .mk hstarts' hkey' hrelation' hvalue', by simp [lower, Word.text_of_recased hw, hv], hus⟩

theorem ignoresCase : IgnoresCase Condition.lower Condition.Reads := by
  intro ts ts' us c hrow h
  cases h with
  | positive hc =>
    obtain ⟨c', us', hc', hlower, hus⟩ := positive_ignoresCase hrow hc
    exact ⟨c', us', .positive hc', hlower, hus⟩
  | negative hsign hc =>
    obtain ⟨t', row, rfl, hsign', hrow⟩ := hrow.uncons_punct hsign
    obtain ⟨c', us', hc', hlower, hus⟩ := positive_ignoresCase hrow hc
    exact ⟨c', us', .negative hsign' hc', hlower, hus⟩

end Condition

namespace Param

theorem endsBefore_of_recased {t t' : Token} (h : Token.Recased t t') :
    endsBefore t = endsBefore t' := by
  simp [endsBefore, h.isEnd, h.isPunct]

theorem sequence_ignoresCase : IgnoresCase lowerList SequenceReads := by
  intro ts ts' us ps hrow h
  induction h generalizing ts' with
  | nil hends => exact ⟨[], ts', .nil (endsBefore_of_recased hrow.head ▸ hends), rfl, hrow⟩
  | group hopened _ hclosed _ ih ih' =>
    obtain ⟨t', row, rfl, hopened', hrow⟩ := hrow.uncons_punct hopened
    obtain ⟨ps', row, hin', hps, hrow⟩ := ih hrow
    obtain ⟨u', row, rfl, hclosed', hrow⟩ := hrow.uncons_punct hclosed
    obtain ⟨qs', us', hmore', hqs, hus⟩ := ih' hrow
    exact ⟨_, us', .group hopened' hin' hclosed' hmore', by simp [lowerList, lower, hps, hqs], hus⟩
  | connective hc _ ih =>
    obtain ⟨_, row, hc', rfl, hrow⟩ := Connective.ignoresCase hrow hc
    obtain ⟨qs', us', hmore', hqs, hus⟩ := ih hrow
    exact ⟨_, us', .connective hc' hmore', by simp [lowerList, lower, hqs], hus⟩
  | star hstar _ ih =>
    obtain ⟨t', row, rfl, hstar', hrow⟩ := hrow.uncons_punct hstar
    obtain ⟨qs', us', hmore', hqs, hus⟩ := ih hrow
    exact ⟨_, us', .star hstar' hmore', by simp [lowerList, lower, hqs], hus⟩
  | condition hc _ ih =>
    obtain ⟨c', row, hc', hlower, hrow⟩ := Condition.ignoresCase hrow hc
    obtain ⟨qs', us', hmore', hqs, hus⟩ := ih hrow
    exact ⟨_, us', .condition hc' hmore', by simp [lowerList, lower, hlower, hqs], hus⟩

end Param

/-- A filter has a param at least, and so has what is read of a recased row. -/
theorem Filter.ignoresCase :
    IgnoresCase Filter.lower fun ts (f : Filter) us => Param.SequenceReads ts f.params us := by
  intro ts ts' us f hrow h
  obtain ⟨ps', us', h', hps, hus⟩ := Param.sequence_ignoresCase hrow h
  cases ps' with
  | nil => simp [params, Param.lowerList] at hps
  | cons p' ps' =>
    obtain ⟨hfirst, hrest⟩ := List.cons.inj hps
    exact ⟨⟨p', ps'⟩, us', h', by simp only [lower, hfirst, hrest], hus⟩

-- ---------------------------------------------------------------------------
-- Queries
-- ---------------------------------------------------------------------------

namespace Grouping

theorem entry_ignoresCase : IgnoresCase String.toLower (Rule.Reads entryRule) := by
  intro ts ts' us e hrow h
  cases reads_entryRule.mp h with
  | star hstar halone =>
    obtain ⟨t', us', rfl, ht, hus⟩ := hrow.uncons
    refine ⟨_, us', reads_entryRule.mpr (.star (ht.isPunct _ ▸ hstar) ?_), rfl, hus⟩
    rwa [← ht.touches hus.head, ← hus.head.isPunct, ← hus.head.isPunct]
  | name hw hfirst =>
    obtain ⟨w', us', hw', htokens, hus⟩ := Word.reads_of_recased hrow hw
    have hfirst' := Word.startsWithIdentifier_of_recased htokens ▸ hfirst
    exact ⟨_, us', reads_entryRule.mpr (.name hw' hfirst'), Word.text_of_recased htokens, hus⟩

theorem ignoresCase : IgnoresCase Grouping.lower Grouping.Reads := by
  rintro ts ts' us _ hrow ⟨hword, hopened, hfirst, hmore⟩
  obtain ⟨t', row, rfl, hword', hrow⟩ := hrow.uncons_keyword hword
  obtain ⟨u', row, rfl, hopened', hrow⟩ := hrow.uncons_punct hopened
  obtain ⟨e', row, hfirst', he, hrow⟩ := entry_ignoresCase hrow (reads_entryRule.mpr hfirst)
  obtain ⟨es', us', hmore', hes, hus⟩ := Rule.items_ignoreCase entry_ignoresCase hrow hmore
  exact ⟨_, us', .mk hword' hopened' (reads_entryRule.mp hfirst') hmore', by simp [lower, he, hes], hus⟩

end Grouping

namespace FunctionCall

theorem arguments_ignoreCase : IgnoresCase (List.map Value.lower) ArgumentsRead := by
  intro ts ts' us values hrow h
  cases h with
  | none hopened hclosed =>
    obtain ⟨t', row, rfl, hopened', hrow⟩ := hrow.uncons_punct hopened
    obtain ⟨u', us', rfl, hclosed', hus⟩ := hrow.uncons_punct hclosed
    exact ⟨[], us', .none hopened' hclosed', rfl, hus⟩
  | some hopened hfirst hmore =>
    obtain ⟨t', row, rfl, hopened', hrow⟩ := hrow.uncons_punct hopened
    obtain ⟨v', row, hfirst', hv, hrow⟩ := Value.argument_ignoresCase hrow hfirst
    obtain ⟨values', us', hmore', hvalues, hus⟩ := Value.arguments_ignoreCase hrow hmore
    exact ⟨v' :: values', us', .some hopened' hfirst' hmore', congrArg₂ List.cons hv hvalues, hus⟩

theorem ignoresCase : IgnoresCase FunctionCall.lower FunctionCall.Reads := by
  rintro ts ts' us _ hrow ⟨hname, hargs⟩
  obtain ⟨t', row, rfl, hname', htext, hrow⟩ := hrow.uncons_identifier hname
  obtain ⟨values', us', hargs', hvalues, hus⟩ := arguments_ignoreCase hrow hargs
  exact ⟨_, us', .mk hname' hargs', by simp [lower, htext, hvalues], hus⟩

end FunctionCall

namespace Aggregator

theorem depthAfter_of_recased {t t' : Token} (h : Token.Recased t t') (depth : Nat) :
    depthAfter depth t = depthAfter depth t' := by
  simp [depthAfter, h.isPunct]

theorem endsCondition_of_recased {t t' : Token} (h : Token.Recased t t') :
    endsCondition t = endsCondition t' := by
  simp [endsCondition, h.isEnd, h.isPunct]

theorem condition_of_recased {depth : Nat} {ts ts' cs us : List Token} (hrow : Recased ts ts')
    (h : ConditionReads depth ts cs us) :
    ∃ cs' us', ConditionReads depth ts' cs' us' ∧ Recased cs cs' ∧ Recased us us' := by
  induction h generalizing ts' with
  | close hclosed =>
    obtain ⟨t', us', rfl, hclosed', hus⟩ := hrow.uncons_punct hclosed
    exact ⟨[], us', .close hclosed', .nil, hus⟩
  | @cons depth _ _ _ _ hinside hgoes _ ih =>
    obtain ⟨t', row, rfl, ht, hrow⟩ := hrow.uncons
    obtain ⟨cs', us', hmore', hcs, hus⟩ := ih hrow
    exact ⟨t' :: cs', us', .cons (endsCondition_of_recased ht ▸ hinside) (ht.isPunct _ ▸ hgoes)
      (depthAfter_of_recased ht depth ▸ hmore'), .cons ht hcs, hus⟩

theorem conditionText_of_recased {cs cs' : List Token} (h : Recased cs cs') :
    (conditionText cs).toLower = (conditionText cs').toLower := by
  induction h with
  | nil => rfl
  | cons ht hmore ih =>
    cases hmore with
    | nil => exact ht.source
    | cons hu hmore => simp only [conditionText, toLower_append, ht.source, ht.touches hu, ih]

theorem ignoresCase : IgnoresCase Aggregator.lower Aggregator.Reads := by
  intro ts ts' us a hrow h
  cases h with
  | plain hname hcolon =>
    obtain ⟨t', row, rfl, hname', htext, hrow⟩ := hrow.uncons_identifier hname
    obtain ⟨u', us', rfl, hcolon', hus⟩ := hrow.uncons_punct hcolon
    exact ⟨_, us', .plain hname' hcolon', by simp [lower, htext], hus⟩
  | condition hname hopened hfilled hinside hcolon =>
    obtain ⟨t', row, rfl, hname', htext, hrow⟩ := hrow.uncons_identifier hname
    obtain ⟨u', row, rfl, hopened', hrow⟩ := hrow.uncons_punct hopened
    have hfilled' := hrow.head.isPunct _ ▸ hfilled
    obtain ⟨cs', row, hinside', hcs, hrow⟩ := condition_of_recased hrow hinside
    obtain ⟨v', us', rfl, hcolon', hus⟩ := hrow.uncons_punct hcolon
    exact ⟨_, us', .condition hname' hopened' hfilled' hinside' hcolon',
      by simp [lower, htext, conditionText_of_recased hcs], hus⟩

end Aggregator

namespace Selection

theorem grouping_ignoresCase : IgnoresCase (Option.map Grouping.lower) GroupingReads := by
  intro ts ts' us g hrow h
  cases h with
  | none habsent => exact ⟨none, ts', .none (hrow.head.isKeyword _ ▸ habsent), rfl, hrow⟩
  | some hg =>
    obtain ⟨g', us', hg', hlower, hus⟩ := Grouping.ignoresCase hrow hg
    exact ⟨some g', us', .some hg', congrArg some hlower, hus⟩

theorem functions_ignoreCase : IgnoresCase (List.map FunctionCall.lower) FunctionsRead := by
  intro ts ts' us fs hrow h
  induction h generalizing ts' with
  | nil hends => exact ⟨[], ts', .nil (hrow.head.isPunct _ ▸ hends), rfl, hrow⟩
  | cons hpoint hf _ ih =>
    obtain ⟨t', row, rfl, hpoint', hrow⟩ := hrow.uncons_punct hpoint
    obtain ⟨f', row, hf', hlower, hrow⟩ := FunctionCall.ignoresCase hrow hf
    obtain ⟨fs', us', hmore', hfs, hus⟩ := ih hrow
    exact ⟨f' :: fs', us', .cons hpoint' hf' hmore', congrArg₂ List.cons hlower hfs, hus⟩

theorem ignoresCase : IgnoresCase Selection.lower Selection.Reads := by
  rintro ts ts' us _ hrow ⟨ha, hw, hfirst, ht, hf, hu, hg, hfs⟩
  obtain ⟨a', row, ha', halower, hrow⟩ := Aggregator.ignoresCase hrow ha
  obtain ⟨w', row, hw', htokens, hrow⟩ := Word.reads_of_recased hrow hw
  have hfirst' := Word.startsWithIdentifier_of_recased htokens ▸ hfirst
  obtain ⟨t', row, rfl, ht', hrow⟩ := hrow.uncons_punct ht
  obtain ⟨f', row, hf', hflower, hrow⟩ := Filter.ignoresCase hrow hf
  obtain ⟨u', row, rfl, hu', hrow⟩ := hrow.uncons_punct hu
  obtain ⟨g', row, hg', hglower, hrow⟩ := grouping_ignoresCase hrow hg
  obtain ⟨fs', us', hfs', hfslower, hus⟩ := functions_ignoreCase hrow hfs
  refine ⟨_, us', .mk ha' hw' hfirst' ht' hf' hu' hg' hfs', ?_, hus⟩
  simp [lower, halower, Word.text_of_recased htokens, hflower, hglower, hfslower]

end Selection

theorem Query.ignoresCase : IgnoresCase Query.lower Query.Reads := by
  intro ts ts' us q hrow h
  induction h generalizing ts' with
  | selection hs =>
    obtain ⟨s', us', hs', hlower, hus⟩ := Selection.ignoresCase hrow hs
    exact ⟨_, us', .selection hs', congrArg Query.selection hlower, hus⟩
  | call hname hopened _ hargs ih =>
    obtain ⟨t', row, rfl, hname', htext, hrow⟩ := hrow.uncons_identifier hname
    obtain ⟨u', row, rfl, hopened', hrow⟩ := hrow.uncons_punct hopened
    obtain ⟨q', row, hin', hq, hrow⟩ := ih hrow
    obtain ⟨args', us', hargs', hlower, hus⟩ := Value.arguments_ignoreCase hrow hargs
    exact ⟨_, us', .call hname' hopened' hin' hargs', by simp [lower, htext, hq, hlower], hus⟩

-- ---------------------------------------------------------------------------
-- Expressions and monitors
-- ---------------------------------------------------------------------------

theorem Operator.isAt_of_recased {binds : Bool} {op : Operator} {t t' : Token}
    (h : Token.Recased t t') : IsAt binds op t ↔ IsAt binds op t' := by
  simp [IsAt, h.isPunct]

theorem Operator.ofSigned?_of_recased {t t' : Token} (h : Token.Recased t t') :
    ofSigned? t = ofSigned? t' := by
  simp only [ofSigned?, ← h.isNumber]
  split
  · rw [h.eq_of_isNumber ‹_›]
  · rfl

/-- Is the phrase read of the row up to letter case, with `us` recased left of it? What is
    read of the rest of a phrase goes on from any beginning with the same lower case. -/
def Phrase.ReadsUpToCase (ts us : List Token) : Phrase → Prop
  | .operand v => ∃ v' us', Reads (.operand v') ts us' ∧ v.lower = v'.lower ∧ Recased us us'
  | .term t => ∃ t' us', Reads (.term t') ts us' ∧ t.lower = t'.lower ∧ Recased us us'
  | .factors s t => ∀ s', s.lower = s'.lower →
      ∃ t' us', Reads (.factors s' t') ts us' ∧ t.lower = t'.lower ∧ Recased us us'
  | .expression e => ∃ e' us', Reads (.expression e') ts us' ∧ e.lower = e'.lower ∧ Recased us us'
  | .terms d e => ∀ d', d.lower = d'.lower →
      ∃ e' us', Reads (.terms d' e') ts us' ∧ e.lower = e'.lower ∧ Recased us us'

/-- A call is read only where no query can be, so there the row that is being read and the
    one it was read of change roles. -/
theorem Phrase.Reads.readsUpToCase {p : Phrase} {ts ts' us : List Token} (h : p.Reads ts us)
    (hrow : Recased ts ts') : p.ReadsUpToCase ts' us := by
  induction h generalizing ts' with
  | number hnumber hfinite =>
    obtain ⟨t', us', rfl, hnumber', htext, hus⟩ := hrow.uncons_number hnumber
    exact ⟨_, us', .number hnumber' (htext ▸ hfinite), rfl, hus⟩
  | group hopened _ hclosed ih =>
    obtain ⟨t', row, rfl, hopened', hrow⟩ := hrow.uncons_punct hopened
    obtain ⟨e', row, hin', he, hrow⟩ := ih hrow
    obtain ⟨u', us', rfl, hclosed', hus⟩ := hrow.uncons_punct hclosed
    exact ⟨_, us', .group hopened' hin' hclosed', by simp [Operand.lower, he], hus⟩
  | query hq =>
    obtain ⟨q', us', hq', hlower, hus⟩ := Query.ignoresCase hrow hq
    exact ⟨_, us', .query hq', by simp [Operand.lower, hlower], hus⟩
  | call hno hname hopened _ hargs ih =>
    have hback := hrow.symm
    obtain ⟨t', row, rfl, hname', htext, hrow⟩ := hrow.uncons_identifier hname
    obtain ⟨u', row, rfl, hopened', hrow⟩ := hrow.uncons_punct hopened
    obtain ⟨e', row, hin', he, hrow⟩ := ih hrow
    obtain ⟨args', us', hargs', hlower, hus⟩ := Value.arguments_ignoreCase hrow hargs
    -- a query of the recased row would be one of the row itself
    refine ⟨_, us', .call (fun q ws hq => ?_) hname' hopened' hin' hargs',
      by simp [Operand.lower, htext, he, hlower], hus⟩
    obtain ⟨q', ws', hq', _⟩ := Query.ignoresCase hback hq
    exact hno q' ws' hq'
  | term _ _ ih ih' =>
    obtain ⟨v', row, hfirst', hv, hrow⟩ := ih hrow
    -- the rest of the phrase goes on from the operand as the recased row spells it
    obtain ⟨t', us', hmore', ht, hus⟩ := ih' hrow (.single v') (by simp [Term.lower, hv])
    exact ⟨t', us', .term hfirst' hmore', ht, hus⟩
  | factorsEnd hends =>
    intro s' hs
    refine ⟨s', ts', .factorsEnd fun op hop => hends op ?_, hs, hrow⟩
    exact (Operator.isAt_of_recased hrow.head).mpr hop
  | @factor o _ _ _ op _ _ _ hop _ _ ih ih' =>
    intro s' hs
    obtain ⟨o', row, rfl, ho, hrow⟩ := hrow.uncons
    obtain ⟨v', row, hoperand', hv, hrow⟩ := ih hrow
    obtain ⟨t', us', hmore', ht, hus⟩ := ih' hrow (.snoc s' op v') (by simp [Term.lower, hs, hv])
    exact ⟨t', us', .factor ((Operator.isAt_of_recased ho).mp hop) hoperand' hmore', ht, hus⟩
  | expression _ _ ih ih' =>
    obtain ⟨t', row, hfirst', ht, hrow⟩ := ih hrow
    obtain ⟨e', us', hmore', he, hus⟩ := ih' hrow (.single t') (by simp [Expression.lower, ht])
    exact ⟨e', us', .expression hfirst' hmore', he, hus⟩
  | termsEnd hends hunsigned =>
    intro d' hd
    refine ⟨d', ts', .termsEnd (fun op hop => hends op ?_) ?_, hd, hrow⟩
    · exact (Operator.isAt_of_recased hrow.head).mpr hop
    · exact (Operator.ofSigned?_of_recased hrow.head).symm.trans hunsigned
  | @sum o _ _ _ op _ _ _ hop _ _ ih ih' =>
    intro d' hd
    obtain ⟨o', row, rfl, ho, hrow⟩ := hrow.uncons
    obtain ⟨t', row, hlast', ht, hrow⟩ := ih hrow
    obtain ⟨e', us', hmore', he, hus⟩ :=
      ih' hrow (.snoc d' op t') (by simp [Expression.lower, hd, ht])
    exact ⟨e', us', .sum ((Operator.isAt_of_recased ho).mp hop) hlast' hmore', he, hus⟩
  | @signed o _ _ _ op n _ _ _ hsigned _ _ ih ih' =>
    intro d' hd
    obtain ⟨o', row, rfl, ho, hrow⟩ := hrow.uncons
    obtain ⟨t', row, hlast', ht, hrow⟩ := ih hrow (.single (.number n)) rfl
    obtain ⟨e', us', hmore', he, hus⟩ :=
      ih' hrow (.snoc d' op t') (by simp [Expression.lower, hd, ht])
    exact ⟨e', us', .signed (Operator.ofSigned?_of_recased ho ▸ hsigned) hlast' hmore', he, hus⟩

theorem Expression.ignoresCase : IgnoresCase Expression.lower (Rule.Reads Expression.rule) := by
  intro ts ts' us e hrow h
  obtain ⟨e', us', h', he, hus⟩ := (Expression.reads_rule.mp h).readsUpToCase hrow
  exact ⟨e', us', Expression.reads_rule.mpr h', he, hus⟩

theorem Comparator.ignoresCase : IgnoresCase id Comparator.Reads := by
  intro ts ts' us c hrow h
  cases h with
  | greater hsign halone =>
    obtain ⟨t', us', rfl, ht, htouched, hus⟩ := hrow.touched
    exact ⟨_, us', .greater (ht.isPunct _ ▸ hsign) (htouched _ ▸ halone), rfl, hus⟩
  | greaterEqual hsign hequals =>
    obtain ⟨t', row, rfl, ht, htouched, hrow⟩ := hrow.touched
    rw [htouched] at hequals
    obtain ⟨u', us', rfl, _, hus⟩ := hrow.uncons
    exact ⟨_, us', .greaterEqual (ht.isPunct _ ▸ hsign) hequals, rfl, hus⟩
  | less hsign halone =>
    obtain ⟨t', us', rfl, ht, htouched, hus⟩ := hrow.touched
    exact ⟨_, us', .less (ht.isPunct _ ▸ hsign) (htouched _ ▸ halone), rfl, hus⟩
  | lessEqual hsign hequals =>
    obtain ⟨t', row, rfl, ht, htouched, hrow⟩ := hrow.touched
    rw [htouched] at hequals
    obtain ⟨u', us', rfl, _, hus⟩ := hrow.uncons
    exact ⟨_, us', .lessEqual (ht.isPunct _ ▸ hsign) hequals, rfl, hus⟩

theorem Monitor.ignoresCase : IgnoresCase Monitor.lower Monitor.Reads := by
  rintro ts ts' us _ hrow ⟨ht, hu, hwindow, hv, hw, hq, hc, hn, hd⟩
  obtain ⟨t', row, rfl, ht', htext, hrow⟩ := hrow.uncons_identifier ht
  obtain ⟨u', row, rfl, hu', hrow⟩ := hrow.uncons_punct hu
  obtain ⟨x', row, hwindow', hx, hrow⟩ := Word.reads_of_recased hrow hwindow
  obtain ⟨v', row, rfl, hv', hrow⟩ := hrow.uncons_punct hv
  obtain ⟨w', row, rfl, hw', hrow⟩ := hrow.uncons_punct hw
  obtain ⟨q', row, hq', hlower, hrow⟩ := Query.ignoresCase hrow hq
  obtain ⟨_, row, hc', rfl, hrow⟩ := Comparator.ignoresCase hrow hc
  obtain ⟨n', us', rfl, hn', hdigits, hus⟩ := hrow.uncons_number hn
  refine ⟨_, us', .mk ht' hu' hwindow' hv' hw' hq' hc' hn' (hdigits ▸ hd), ?_, hus⟩
  simp [lower, htext, Word.text_of_recased hx, hlower]

-- ---------------------------------------------------------------------------
-- Rules
-- ---------------------------------------------------------------------------

/-- What the rule reads of a row, in lower case, and how many tokens it takes of it, or
    that it fails. -/
def Rule.outcomeInLower (lower : α → β) (rule : Rule α) (ts : List Token) : Option (β × Nat) :=
  (rule.probe.outcome ts).map (Prod.map lower id)

section

variable {rule : Rule α} {lower : α → β} {ts ts' : List Token}

theorem IgnoresCase.outcome (h : IgnoresCase lower rule.Reads) (hrow : Recased ts ts') {y : β × Nat}
    (hy : rule.outcomeInLower lower ts = some y) : rule.outcomeInLower lower ts' = some y := by
  obtain ⟨⟨x, n⟩, hx, rfl⟩ := Option.map_eq_some_iff.mp hy
  obtain ⟨us, htakes, rfl⟩ := Probe.outcome_eq_some.mp hx
  obtain ⟨x', us', hread', hlower, hus⟩ := h hrow (Rule.takes_probe.mp htakes)
  refine Option.map_eq_some_iff.mpr ⟨(x', ts'.length - us'.length),
    Probe.outcome_eq_some.mpr ⟨us', Rule.takes_probe.mpr hread', rfl⟩, ?_⟩
  simp [hlower, hrow.length_eq, hus.length_eq]

end

theorem IgnoresCase.complete {rule : Rule α} {lower : α → β} {ts ts' : List Token} {y : β}
    (h : IgnoresCase lower rule.Reads) (hrow : Recased ts ts')
    (hy : (rule.complete ts).toOption.map lower = some y) :
    (rule.complete ts').toOption.map lower = some y := by
  obtain ⟨x, hx, rfl⟩ := Option.map_eq_some_iff.mp hy
  obtain ⟨us, hread, hend⟩ := Rule.complete_eq_ok.mp (toOption_eq_some.mp hx)
  obtain ⟨x', us', hread', hlower, hus⟩ := h hrow hread
  have hx' := Rule.complete_eq_ok.mpr ⟨us', hread', hus.head.isEnd ▸ hend⟩
  exact Option.map_eq_some_iff.mpr ⟨x', toOption_eq_some.mpr hx', hlower.symm⟩

theorem IgnoresCase.complete_eq {rule : Rule α} {lower : α → β} {ts ts' : List Token}
    (h : IgnoresCase lower rule.Reads) (hrow : Recased ts ts') :
    (rule.complete ts).toOption.map lower = (rule.complete ts').toOption.map lower :=
  Option.ext fun _ => ⟨h.complete hrow, h.complete hrow.symm⟩

def Statement.lower : Statement → Statement
  | .query q => .query q.lower
  | .expression e => .expression e.lower

/-- Two whole rows that differ in letter case are the same statement up to letter case, or
    neither is one. -/
theorem toOption_statementOf_of_recased {ts ts' : List Token} (h : Recased ts ts') :
    (statementOf ts).toOption.map Statement.lower = (statementOf ts').toOption.map Statement.lower := by
  have hquery := (Query.ignoresCase.of_iff Query.reads_rule).complete_eq h
  have hexpression := Expression.ignoresCase.complete_eq h
  have hlower : ∀ ts, (statementOf ts).toOption.map Statement.lower =
      (((Rule.complete Query.rule ts).toOption.map Query.lower).map .query).or
        (((Rule.complete Expression.rule ts).toOption.map Expression.lower).map .expression) := by
    intro ts
    rw [toOption_statementOf, Option.map_or]
    simp only [Option.map_map]
    rfl
  rw [hlower, hlower, hquery, hexpression]

end MetricLang
