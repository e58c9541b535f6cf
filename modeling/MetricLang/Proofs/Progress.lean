-- SUMMARY: Every rule leaves fewer tokens than it was given, or fails at one of them.
import MetricLang.Proofs.ExpressionReads
import MetricLang.Proofs.Layout

/-!
# Progress

A rule always yields something: a value and a strictly shorter rest of the row, which
ends where the row does, or an error at a token of the row. Errors are made anew by the
rules that catch them, and most of them at a token that is only looked at, so what must
be kept is that a rule looks at nothing but the row.

`Within ts e` says this of a result that is reached by reading on in `ts`. Reading on
keeps it (`Within.bind`), so each rule follows from the rules it is made of, and rules
that call themselves do so by induction on how many tokens are left.
-/

namespace MetricLang

-- ---------------------------------------------------------------------------
-- Results within a row
-- ---------------------------------------------------------------------------

/-- What is left of the row after some of it was read. -/
structure Inside (ts us : List Token) : Prop where
  suffix : us <:+ ts
  ends : endsOnce us

namespace Inside

variable {ts us vs : List Token}

theorem refl (h : endsOnce ts) : Inside ts ts := ⟨List.suffix_refl ts, h⟩

theorem trans (h : Inside ts us) (h' : Inside us vs) : Inside ts vs :=
  ⟨h'.suffix.trans h.suffix, h'.ends⟩

theorem tail {t : Token} (h : Inside ts (t :: us)) (ht : t.isEnd = false) : Inside ts us :=
  ⟨(List.suffix_cons t us).trans h.suffix, endsOnce_cons ht ▸ h.ends⟩

/-- The end of the input is still to come, so the next token is one of the row. -/
theorem peek_mem (h : Inside ts us) : peek us ∈ ts := by
  cases us with
  | nil => cases h.ends
  | cons t us => exact h.suffix.subset List.mem_cons_self

end Inside

/-- The error is at a token of the row. -/
def SyntaxError.IsAt (ts : List Token) (e : SyntaxError) : Prop := ∃ t ∈ ts, e.position = t.start

/-- What was read leaves a part of the row, or the error is at one of its tokens. -/
def Within (ts : List Token) : Except SyntaxError (Read n α) → Prop
  | .ok r => Inside ts r.rest
  | .error e => e.IsAt ts

namespace Within

variable {ts us : List Token} {e : Except SyntaxError (Read n α)}

theorem mono (h : Within us e) (hus : us <:+ ts) : Within ts e := by
  cases e with
  | ok r => exact ⟨h.suffix.trans hus, h.ends⟩
  | error x =>
    obtain ⟨t, ht, hx⟩ := h
    exact ⟨t, hus.subset ht, hx⟩

/-- An error at the next token. -/
theorem atPeek {cause : Cause} (h : Inside ts us) :
    Within ts (.error ⟨cause, (peek us).start⟩ : Except SyntaxError (Read n α)) :=
  ⟨peek us, h.peek_mem, rfl⟩

theorem inside {r : Read n α} (h : Within ts e) (he : e = .ok r) : Inside ts r.rest := by
  rw [he] at h
  exact h

theorem isAt {x : SyntaxError} (h : Within ts e) (he : e = .error x) : x.IsAt ts := by
  rw [he] at h
  exact h

/-- What is read after something that was read in the row is read in the row. -/
theorem bind {f : Read n α → Except SyntaxError (Read m β)} (he : Within ts e)
    (hf : ∀ r, Inside ts r.rest → Within ts (f r)) : Within ts (e >>= f) := by
  cases e with
  | ok r => exact hf r he
  | error x => exact he

end Within

/-- On every row the rule leaves a part of it or fails at one of its tokens, if it has fewer
    than `n` tokens. -/
def Rule.WithinBelow (n : Nat) (rule : Rule α) : Prop :=
  ∀ ⦃ts⦄, ts.length < n → endsOnce ts → Within ts (rule ts)

/-- On every row the rule leaves a part of it or fails at one of its tokens. -/
def Rule.IsWithin (rule : Rule α) : Prop := ∀ ⦃ts⦄, endsOnce ts → Within ts (rule ts)

/-- What the probe takes of a row leaves a part of it. -/
def Probe.IsWithin (probe : Probe α) : Prop :=
  ∀ ⦃ts r⦄, endsOnce ts → probe ts = some r → Inside ts r.rest

/-- What a rule does on a part of the row stays within the row. -/
theorem Rule.IsWithin.after {rule : Rule α} {ts us : List Token} (h : rule.IsWithin)
    (hus : Inside ts us) : Within ts (rule us) :=
  (h hus.ends).mono hus.suffix

theorem Rule.WithinBelow.after {rule : Rule α} {ts us : List Token} (h : rule.WithinBelow n)
    (hus : Inside ts us) (hlt : us.length < n) : Within ts (rule us) :=
  (h hlt hus.ends).mono hus.suffix

theorem Rule.IsWithin.below {rule : Rule α} (h : rule.IsWithin) (n : Nat) : rule.WithinBelow n :=
  fun _ _ hts => h hts

/-- A rule that reads on with itself stays within a row if it does on all shorter ones. -/
theorem Rule.IsWithin.of_step {rule : Rule α}
    (h : ∀ n, rule.WithinBelow n → rule.WithinBelow (n + 1)) : rule.IsWithin := by
  have hbelow : ∀ n, rule.WithinBelow n := by
    intro n
    induction n with
    | zero => exact fun _ hlt => absurd hlt (Nat.not_lt_zero _)
    | succ n ih => exact h n ih
  exact fun ts hts => hbelow (ts.length + 1) (Nat.lt_succ_self _) hts

namespace Read

variable {ts : List Token} {x : Read n α}

/-- Of at most `m` tokens, fewer than `m` are left. -/
theorem rest_lt_of_lt_succ (x : Read n α) (h : n < m + 1) : x.rest.length < m :=
  Nat.lt_of_lt_of_le x.rest_lt (Nat.le_of_lt_succ h)

theorem next_within {rule : Rule β} (hrule : rule.IsWithin) (hx : Inside ts x.rest) :
    Within ts (x.next rule) :=
  (hrule.after hx).bind fun _ hr => hr

theorem next?_within {probe : Probe β} {r : Read n β} (hprobe : probe.IsWithin)
    (hx : Inside ts x.rest) (h : x.next? probe = some r) : Inside ts r.rest := by
  obtain ⟨y, hy, rfl⟩ := Option.map_eq_some_iff.mp h
  exact hx.trans (hprobe hx.ends hy)

end Read

-- ---------------------------------------------------------------------------
-- Single tokens
-- ---------------------------------------------------------------------------

namespace Probe

theorem take_within (p : Token → Bool) : (take p).IsWithin := by
  intro ts r hts h
  obtain ⟨t, us, _, rfl, htakes⟩ := Probe.takes_of_eq_some h
  obtain ⟨rfl, ht, _⟩ := takes_take.mp htakes
  exact (Inside.refl hts).tail ht

theorem punct_within (c : Char) : (punct c).IsWithin := take_within _

theorem keyword_within (k : Keyword) : (keyword k).IsWithin := take_within _

theorem adjacentPunct_within (prev : Token) (c : Char) : (adjacentPunct prev c).IsWithin :=
  take_within _

/-- What is taken is a token of the row. -/
theorem value_mem_of_take {p : Token → Bool} {ts : List Token} {r : Read ts.length Token}
    (h : take p ts = some r) : r.value ∈ ts := by
  obtain ⟨t, us, _, rfl, htakes⟩ := Probe.takes_of_eq_some h
  obtain ⟨rfl, _⟩ := takes_take.mp htakes
  exact List.mem_cons_self

end Probe

namespace Rule

theorem expect_within (what : Expected) (p : Token → Bool) : (expect what p).IsWithin := by
  intro ts hts
  unfold expect
  split
  · next r hr => exact Probe.take_within p hts hr
  · exact .atPeek (.refl hts)

theorem punct_within (c : Char) : (punct c).IsWithin := expect_within _ _

theorem keyword_within (spelling : String) : (keyword spelling).IsWithin := expect_within _ _

theorem identifier_within : identifier.IsWithin := expect_within _ _

theorem moreItems_within {item : Rule α} (close : Char) (what : Expected) (hitem : item.IsWithin) :
    Rule.IsWithin (moreItems close what item) := by
  refine .of_step fun n ih ts hlt hts => ?_
  rw [moreItems]
  split
  · next closed hclosed => exact Probe.punct_within close hts hclosed
  · split
    · exact .atPeek (.refl hts)
    · next comma hcomma =>
      refine .bind (Read.next_within hitem (Probe.punct_within _ hts hcomma)) fun x hx => ?_
      exact (ih.after hx (x.rest_lt_of_lt_succ hlt)).bind fun more hmore => hmore

end Rule

theorem Read.ifJoined_within {ts : List Token} {x : Read n Token} {c : Char} {joined alone : α}
    (hx : Inside ts x.rest) : Inside ts (x.ifJoined c joined alone).rest := by
  unfold Read.ifJoined
  split
  · next t h => exact (Read.next?_within (Probe.adjacentPunct_within _ _) hx h :)
  · exact hx

-- ---------------------------------------------------------------------------
-- Words and values
-- ---------------------------------------------------------------------------

/-- No text is printed for the end of the input, so it is among what is left. -/
theorem Inside.of_shows {s : String} {ts us : List Token} (h : Shows s ts us)
    (hts : endsOnce ts) : Inside ts us := by
  have hus := h.endsOnce hts
  obtain ⟨pre, heq, _⟩ := h
  exact ⟨⟨pre, heq.symm⟩, hus⟩

theorem Word.rule_within : Word.rule.IsWithin := by
  intro ts hts
  cases hread : Word.rule ts with
  | ok r =>
    obtain ⟨w, us, _, rfl, hw⟩ := Rule.reads_of_eq_ok hread
    exact .of_shows (Word.Reads.shows hw) hts
  | error e =>
    cases ts with
    | nil => cases hts
    | cons t ts =>
      rw [rule] at hread
      split at hread
      · next hstart =>
        dsimp only at hread
        split at hread
        · cases hread
          exact .atPeek ((Inside.refl hts).tail (isEnd_of_canStart hstart))
        · cases hread
      · cases hread
        exact .atPeek (.refl hts)

theorem Word.nameRule_within (what : Expected) : (nameRule what).IsWithin := by
  intro ts hts
  refine .bind (Word.rule_within hts) fun w hw => ?_
  split
  · exact hw
  · exact .atPeek (.refl hts)

theorem metricName_within : metricName.IsWithin := Word.nameRule_within _

theorem Connective.keywordProbe_within : keywordProbe.IsWithin := by
  intro ts r hts h
  unfold keywordProbe at h
  split at h
  · next a ha =>
    have hand := Probe.keyword_within _ hts ha
    split at h
    · next both hboth =>
      cases h
      exact (Read.next?_within (Probe.keyword_within _) hand hboth :)
    · cases h
      exact hand
  · split at h
    · next o ho =>
      cases h
      exact (Probe.keyword_within _ hts ho :)
    · obtain ⟨i, hi, rfl⟩ := Option.map_eq_some_iff.mp h
      exact (Probe.keyword_within _ hts hi :)

theorem Connective.rule_within : Connective.rule.IsWithin := by
  intro ts hts
  unfold Connective.rule
  split
  · next c hc => exact (Probe.punct_within _ hts hc :)
  · split
    · next c hc => exact keywordProbe_within hts hc
    · exact .atPeek (.refl hts)

theorem Value.argument_within : Value.argument.IsWithin := by
  intro ts hts
  unfold Value.argument
  split
  · next q value start stop us => exact (Inside.refl hts).tail rfl
  · exact .bind (Word.rule_within hts) fun w hw => hw

theorem Value.rule_within : Value.rule.IsWithin := by
  intro ts hts
  unfold Value.rule
  split
  · next c hc => exact (Connective.keywordProbe_within hts hc :)
  · exact argument_within hts

-- ---------------------------------------------------------------------------
-- Filters
-- ---------------------------------------------------------------------------

namespace Relation

theorem afterColon_within {ts : List Token} {colon : Read n Token} (h : Inside ts colon.rest) :
    Inside ts (afterColon colon).rest := by
  unfold afterColon
  split
  · next hgt =>
    exact Read.ifJoined_within (Read.next?_within (Probe.adjacentPunct_within _ _) h hgt)
  · split
    · next hlt =>
      exact Read.ifJoined_within (Read.next?_within (Probe.adjacentPunct_within _ _) h hlt)
    · exact Read.ifJoined_within h

theorem wordsProbe_within (first second : Keyword) : (wordsProbe first second).IsWithin := by
  intro ts r hts h
  obtain ⟨x, hx, hr⟩ := Option.bind_eq_some_iff.mp h
  exact Read.next?_within (Probe.keyword_within _) (Probe.keyword_within _ hts hx) hr

theorem wordProbe_within : wordProbe.IsWithin := by
  intro ts r hts h
  unfold wordProbe at h
  split at h
  · next x hx =>
    cases h
    exact (Probe.keyword_within _ hts hx :)
  · split at h
    · next x hx =>
      cases h
      exact (wordsProbe_within _ _ hts hx :)
    · obtain ⟨x, hx, rfl⟩ := Option.map_eq_some_iff.mp h
      exact (wordsProbe_within _ _ hts hx :)

theorem rule_within : Relation.rule.IsWithin := by
  intro ts hts
  unfold Relation.rule
  split
  · next colon hcolon => exact afterColon_within (Probe.punct_within _ hts hcolon)
  · split
    · next x hx => exact wordProbe_within hts hx
    · exact .atPeek (.refl hts)

end Relation

namespace ValueList

theorem more_below (opened : Position) (n : Nat) (l : ValueList) :
    Rule.WithinBelow n (more opened l) := by
  induction n generalizing l with
  | zero => exact fun _ hlt => absurd hlt (Nat.not_lt_zero _)
  | succ n ih =>
    intro ts hlt hts
    rw [more]
    refine .bind (Value.rule_within hts) fun item hitem => ?_
    dsimp only
    split
    · next closed hclosed => exact (Read.next?_within (Probe.punct_within _) hitem hclosed :)
    · split
      · exact .atPeek hitem
      · split
        · exact .atPeek hitem
        · next c hc =>
          have hnext := (Read.next_within Connective.rule_within hitem).inside hc
          exact ((ih _).after hnext (c.rest_lt_of_lt_succ hlt)).bind fun tail htail => htail

theorem rule_within : ValueList.rule.IsWithin := by
  intro ts hts
  refine .bind (Rule.punct_within _ hts) fun opened hopened => ?_
  split
  · next closed hclosed => exact (Read.next?_within (Probe.punct_within _) hopened hclosed :)
  · exact Read.next_within (fun us hus => more_below _ _ _ (Nat.lt_succ_self _) hus) hopened

end ValueList

theorem FilterValue.rule_within : FilterValue.rule.IsWithin := by
  intro ts hts
  unfold FilterValue.rule
  split
  · exact .bind (ValueList.rule_within hts) fun l hl => hl
  · exact .bind (Value.rule_within hts) fun v hv => hv

namespace Condition

theorem keyRule_within : keyRule.IsWithin := by
  intro ts hts
  unfold keyRule
  split
  · exact .bind (Word.rule_within hts) fun w hw => hw
  · exact .atPeek (.refl hts)

theorem positiveRule_within (negative : Bool) : (positiveRule negative).IsWithin := by
  intro ts hts
  refine .bind (keyRule_within hts) fun key hkey => ?_
  split
  · exact .atPeek hkey
  · next relation hrelation =>
    have hnext := (Read.next_within Relation.rule_within hkey).inside hrelation
    exact .bind (Read.next_within FilterValue.rule_within hnext) fun v hv => hv

theorem rule_within : Condition.rule.IsWithin := by
  intro ts hts
  unfold Condition.rule
  split
  · next sign hsign =>
    exact Read.next_within (positiveRule_within _) (Probe.punct_within _ hts hsign)
  · exact positiveRule_within _ hts

end Condition

namespace Param

/-- The rest of a group needs the rule for params on rows as long as its own only. -/
theorem groupTail_below {n : Nat} (h : Rule.WithinBelow n rule) (opened : Position) (m : Nat)
    (hm : m ≤ n) : Rule.WithinBelow m (groupTail opened) := by
  induction m with
  | zero => exact fun _ hlt => absurd hlt (Nat.not_lt_zero _)
  | succ m ih =>
    intro ts hlt hts
    rw [groupTail]
    split
    · next closed hclosed => exact (Probe.punct_within _ hts hclosed :)
    · split
      · exact .atPeek (.refl hts)
      · refine .bind (h (Nat.lt_of_lt_of_le hlt hm) hts) fun p hp => ?_
        have hmore := (ih (Nat.le_of_succ_le hm)).after hp (p.rest_lt_of_lt_succ hlt)
        exact hmore.bind fun more hmore => hmore

theorem rule_within : Rule.IsWithin rule := by
  refine .of_step fun n ih ts hlt hts => ?_
  rw [rule]
  split
  · next opened hopened =>
    have hin := Probe.punct_within _ hts hopened
    have htail := groupTail_below ih opened.value.start n (Nat.le_refl n)
    exact (htail.after hin (opened.rest_lt_of_lt_succ hlt)).bind fun params hparams => hparams
  · split
    · next c hc => exact ((Connective.rule_within hts).inside hc :)
    · split
      · next s hs => exact (Probe.punct_within _ hts hs :)
      · exact .bind (Condition.rule_within hts) fun c hc => hc

end Param

namespace Filter

theorem extend_within {ts : List Token} {f : Read n Filter} (hf : Inside ts f.rest) :
    Within ts (extend f) := by
  induction hk : f.rest.length using Nat.strongRecOn generalizing f with
  | ind k ih =>
    rw [extend]
    split
    · exact hf
    · refine .bind (Param.rule_within.after hf) fun p hp => ?_
      exact ih _ (hk ▸ p.rest_lt) hp rfl

theorem rule_within : Filter.rule.IsWithin := by
  intro ts hts
  exact .bind (Param.rule_within hts) fun first hfirst => extend_within hfirst

end Filter

-- ---------------------------------------------------------------------------
-- Queries
-- ---------------------------------------------------------------------------

namespace Grouping

theorem entryRule_within : entryRule.IsWithin := by
  intro ts hts
  unfold entryRule
  split
  · next star hstar =>
    dsimp only
    split
    · exact ⟨star.value, Probe.value_mem_of_take hstar, rfl⟩
    · exact (Probe.punct_within _ hts hstar :)
  · exact Word.nameRule_within _ hts

theorem rule_within : Grouping.rule.IsWithin := by
  intro ts hts
  refine .bind (Rule.keyword_within _ hts) fun word hword => ?_
  refine .bind (Read.next_within (Rule.punct_within _) hword) fun opened hopened => ?_
  refine .bind (Read.next_within entryRule_within hopened) fun first hfirst => ?_
  exact .bind (Read.next_within (Rule.moreItems_within _ _ entryRule_within) hfirst)
    fun more hmore => hmore

end Grouping

namespace FunctionCall

theorem argumentsRule_within : argumentsRule.IsWithin := by
  intro ts hts
  refine .bind (Rule.punct_within _ hts) fun opened hopened => ?_
  split
  · next closed hclosed => exact (Read.next?_within (Probe.punct_within _) hopened hclosed :)
  · refine .bind (Read.next_within Value.argument_within hopened) fun first hfirst => ?_
    exact .bind (Read.next_within (Rule.moreItems_within _ _ Value.argument_within) hfirst)
      fun more hmore => hmore

theorem rule_within : FunctionCall.rule.IsWithin := by
  intro ts hts
  refine .bind (Rule.identifier_within hts) fun name hname => ?_
  exact .bind (Read.next_within argumentsRule_within hname) fun args hargs => hargs

end FunctionCall

namespace Aggregator

theorem conditionTokens_within (depth : Nat) : (conditionTokens depth).IsWithin := by
  intro ts hts
  induction ts generalizing depth with
  | nil => cases hts
  | cons t ts ih =>
    rw [conditionTokens]
    split
    · exact .atPeek (.refl hts)
    · next hinside =>
      have hend : t.isEnd = false := by simp_all
      have hin := (Inside.refl hts).tail hend
      dsimp only
      split
      · exact hin
      · exact .bind ((ih _ hin.ends).mono hin.suffix) fun more hmore => hmore

theorem conditionTail_within : conditionTail.IsWithin := by
  intro ts hts
  unfold conditionTail
  split
  · next closed hclosed => exact ⟨closed.value, Probe.value_mem_of_take hclosed, rfl⟩
  · exact .bind (conditionTokens_within 0 hts) fun tokens htokens => htokens

theorem rule_within : Aggregator.rule.IsWithin := by
  intro ts hts
  refine .bind (Rule.expect_within _ _ hts) fun name hname => ?_
  split
  · next opened hopened =>
    have hin := Read.next?_within (Probe.punct_within _) hname hopened
    refine .bind (Read.next_within conditionTail_within hin) fun condition hcondition => ?_
    exact .bind (Read.next_within (Rule.punct_within _) hcondition) fun colon hcolon => hcolon
  · have hcolon := Read.next_within (Rule.punct_within ':') hname
    split
    · next colon heq => exact (hcolon.inside heq :)
    · next e heq =>
      split
      · next brace hbrace =>
        unfold bareBrace? at hbrace
        split at hbrace
        · cases hbrace
        · next metric hread =>
          split at hbrace
          · cases hbrace
            exact .atPeek ((metricName_within hts).inside hread)
          · cases hbrace
      · exact (hcolon.isAt heq :)

end Aggregator

namespace Selection

theorem groupingAfter_within {ts : List Token} {x : Read n α} (hx : Inside ts x.rest) :
    Within ts (groupingAfter x) := by
  unfold groupingAfter
  split
  · exact .bind (Read.next_within Grouping.rule_within hx) fun g hg => hg
  · exact hx

theorem extend_within {ts : List Token} {s : Read n Selection} (hs : Inside ts s.rest) :
    Within ts (extend s) := by
  induction hk : s.rest.length using Nat.strongRecOn generalizing s with
  | ind k ih =>
    rw [extend]
    split
    · exact hs
    · next point hpoint =>
      have hin := Probe.punct_within _ hs.ends hpoint
      refine .bind ((Read.next_within FunctionCall.rule_within hin).mono hs.suffix) fun f hf => ?_
      exact ih _ (hk ▸ f.rest_lt) hf rfl

theorem rule_within : Selection.rule.IsWithin := by
  intro ts hts
  refine .bind (Aggregator.rule_within hts) fun aggregator haggregator => ?_
  refine .bind (Read.next_within metricName_within haggregator) fun metric hmetric => ?_
  split
  · exact .atPeek hmetric
  · next opened hopened =>
    have hin := Read.next?_within (Probe.punct_within _) hmetric hopened
    refine .bind (Read.next_within Filter.rule_within hin) fun filter hfilter => ?_
    refine .bind (Read.next_within (Rule.punct_within _) hfilter) fun closed hclosed => ?_
    exact .bind (groupingAfter_within hclosed) fun grouping hgrouping => extend_within hgrouping

end Selection

/-- The error of the attempt that got further is the error of one of them. -/
theorem Within.furthest {ts : List Token} {e other : SyntaxError} (h : e.IsAt ts)
    (h' : other.IsAt ts) :
    Within ts (.error (e.furthest other) : Except SyntaxError (Read n α)) := by
  unfold SyntaxError.furthest
  split
  · exact h'
  · exact h

/-- A call needs the rule for what is inside on shorter rows only. -/
theorem callOf_below {n : Nat} {inside : Rule β} {what : Expected}
    {node : String → β → List Value → α} (h : inside.WithinBelow n) :
    Rule.WithinBelow (n + 1) (callOf inside what node) := by
  intro ts hlt hts
  refine .bind (Rule.identifier_within hts) fun name hname => ?_
  refine .bind (Read.next_within (Rule.punct_within _) hname) fun opened hopened => ?_
  have hinside := h.after hopened (opened.rest_lt_of_lt_succ hlt)
  refine .bind hinside fun body hbody => ?_
  exact .bind (Read.next_within (Rule.moreItems_within _ _ Value.argument_within) hbody)
    fun args hargs => hargs

namespace Query

theorem rule_within : Rule.IsWithin rule := by
  refine .of_step fun n ih ts hlt hts => ?_
  have hselection := Selection.rule_within hts
  have hcall : Within ts (callRule ts) := by
    rw [callRule_eq]
    exact callOf_below ih hlt hts
  rw [rule]
  split
  · next s hs => exact (hselection.inside hs :)
  · next e he =>
    split
    · next c hc => exact hcall.inside hc
    · next other hother => exact .furthest (hselection.isAt he) (hcall.isAt hother)

end Query

-- ---------------------------------------------------------------------------
-- Expressions
-- ---------------------------------------------------------------------------

namespace Operator

theorem additiveProbe_within : additiveProbe.IsWithin := by
  intro ts r hts h
  obtain ⟨op, us, _, rfl, htakes⟩ := Probe.takes_of_eq_some h
  obtain ⟨t, rfl, ht⟩ := takes_additiveProbe.mp htakes
  exact (Inside.refl hts).tail (Token.isEnd_of_isPunct ht.2)

theorem multiplicativeProbe_within : multiplicativeProbe.IsWithin := by
  intro ts r hts h
  obtain ⟨op, us, _, rfl, htakes⟩ := Probe.takes_of_eq_some h
  obtain ⟨t, rfl, ht⟩ := takes_multiplicativeProbe.mp htakes
  exact (Inside.refl hts).tail (Token.isEnd_of_isPunct ht.2)

theorem signedProbe_within : signedProbe.IsWithin := by
  intro ts r hts h
  obtain ⟨signed, us, _, rfl, htakes⟩ := Probe.takes_of_eq_some h
  obtain ⟨t, rfl, ht⟩ := takes_signedProbe.mp htakes
  exact (Inside.refl hts).tail (Token.isEnd_of_isNumber (isNumber_of_ofSigned? ht))

end Operator

variable {n m : Nat} {ts : List Token}

/-- Operands hold expressions of shorter rows. -/
theorem Operand.rule_below (h : Rule.WithinBelow n Expression.rule) :
    Rule.WithinBelow (n + 1) Operand.rule := by
  intro ts hlt hts
  rw [Operand.rule]
  split
  · next number hnumber =>
    unfold Operand.numberOf
    split
    · exact (Probe.take_within _ hts hnumber :)
    · exact ⟨number.value, Probe.value_mem_of_take hnumber, rfl⟩
  · split
    · next opened hopened =>
      have hin := Probe.punct_within _ hts hopened
      refine .bind (h.after hin (opened.rest_lt_of_lt_succ hlt)) fun body hbody => ?_
      exact .bind (Read.next_within (Rule.punct_within _) hbody) fun closed hclosed => hclosed
    · have hquery := Query.rule_within hts
      have hcall : Within ts (Operand.callRule ts) := by
        rw [Phrase.callRule_eq]
        exact callOf_below h hlt hts
      split
      · next q hq => exact (hquery.inside hq :)
      · next e he =>
        split
        · next c hc => exact hcall.inside hc
        · next other hother => exact .furthest (hquery.isAt he) (hcall.isAt hother)

theorem Term.extend_within (h : Rule.WithinBelow m Operand.rule) {t : Read n Term}
    (ht : Inside ts t.rest) (hlt : t.rest.length < m) : Within ts (Term.extend t) := by
  induction hk : t.rest.length using Nat.strongRecOn generalizing t with
  | ind k ih =>
    rw [Term.extend]
    split
    · exact ht
    · next op hop =>
      have hin := ht.trans (Operator.multiplicativeProbe_within ht.ends hop)
      refine .bind (h.after hin (Nat.lt_trans op.rest_lt hlt)) fun v hv => ?_
      have hrest := Nat.lt_trans v.rest_lt op.rest_lt
      exact ih _ (hk ▸ hrest) hv (Nat.lt_trans hrest hlt) rfl

theorem Term.rule_below (h : Rule.WithinBelow n Operand.rule) : Rule.WithinBelow n Term.rule := by
  intro ts hlt hts
  rw [Term.rule]
  exact .bind (h hlt hts) fun v hv => Term.extend_within h hv (Nat.lt_trans v.rest_lt hlt)

theorem Expression.extend_within (h : Rule.WithinBelow m Operand.rule) {e : Read n Expression}
    (he : Inside ts e.rest) (hlt : e.rest.length < m) : Within ts (Expression.extend e) := by
  induction hk : e.rest.length using Nat.strongRecOn generalizing e with
  | ind k ih =>
    rw [Expression.extend]
    split
    · next op hop =>
      have hin := he.trans (Operator.additiveProbe_within he.ends hop)
      have hterm := (Term.rule_below h).after hin (Nat.lt_trans op.rest_lt hlt)
      refine .bind hterm fun t ht => ?_
      have hrest := Nat.lt_trans t.rest_lt op.rest_lt
      exact ih _ (hk ▸ hrest) ht (Nat.lt_trans hrest hlt) rfl
    · split
      · next signed hsigned =>
        have hin := he.trans (Operator.signedProbe_within he.ends hsigned)
        have hshort := Nat.lt_trans signed.rest_lt hlt
        refine .bind (Term.extend_within h (t := signed.as _) hin hshort) fun t ht => ?_
        exact ih _ (hk ▸ t.rest_lt) ht (Nat.lt_trans t.rest_lt hlt) rfl
      · exact he

theorem Expression.rule_below (h : Rule.WithinBelow n Operand.rule) :
    Rule.WithinBelow n Expression.rule := by
  intro ts hlt hts
  rw [Expression.rule]
  exact .bind (Term.rule_below h hlt hts) fun t ht =>
    Expression.extend_within h ht (Nat.lt_trans t.rest_lt hlt)

theorem Expression.rule_within : Rule.IsWithin Expression.rule :=
  .of_step fun _ ih => Expression.rule_below (Operand.rule_below ih)

theorem Operand.rule_within : Rule.IsWithin Operand.rule :=
  fun _ hts => Operand.rule_below (Expression.rule_within.below _) (Nat.lt_succ_self _) hts

theorem Term.rule_within : Rule.IsWithin Term.rule :=
  fun _ hts => Term.rule_below (Operand.rule_within.below _) (Nat.lt_succ_self _) hts

theorem Comparator.rule_within : Comparator.rule.IsWithin := by
  intro ts hts
  unfold Comparator.rule
  split
  · next hgt => exact Read.ifJoined_within (Probe.punct_within _ hts hgt)
  · split
    · next hlt => exact Read.ifJoined_within (Probe.punct_within _ hts hlt)
    · exact .atPeek (.refl hts)

theorem Monitor.thresholdRule_within : Monitor.thresholdRule.IsWithin := by
  intro ts hts
  have hnumber := Rule.expect_within .threshold (·.isNumber) hts
  unfold Monitor.thresholdRule
  cases hread : Rule.expect .threshold (·.isNumber) ts with
  | error e => exact (hnumber.isAt hread :)
  | ok r =>
    have hrest := hnumber.inside hread
    obtain ⟨t, us, _, rfl, ht⟩ := Rule.reads_of_eq_ok hread
    obtain ⟨rfl, _⟩ := Rule.reads_expect.mp ht
    dsimp only [bind, Except.bind]
    split
    · exact hrest
    · exact ⟨t, List.mem_cons_self, rfl⟩

theorem Monitor.rule_within : Monitor.rule.IsWithin := by
  intro ts hts
  refine .bind (Rule.identifier_within hts) fun aggregation haggregation => ?_
  refine .bind (Read.next_within (Rule.punct_within _) haggregation) fun opened hopened => ?_
  refine .bind (Read.next_within Word.rule_within hopened) fun window hwindow => ?_
  refine .bind (Read.next_within (Rule.punct_within _) hwindow) fun closed hclosed => ?_
  refine .bind (Read.next_within (Rule.punct_within _) hclosed) fun colon hcolon => ?_
  refine .bind (Read.next_within Query.rule_within hcolon) fun query hquery => ?_
  refine .bind (Read.next_within Comparator.rule_within hquery) fun comparator hcomparator => ?_
  exact .bind (Read.next_within Monitor.thresholdRule_within hcomparator) fun d hd => hd

-- ---------------------------------------------------------------------------
-- All rules
-- ---------------------------------------------------------------------------

end MetricLang
