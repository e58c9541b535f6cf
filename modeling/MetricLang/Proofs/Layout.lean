-- SUMMARY: Of the places of tokens, a rule sees only which tokens touch.
import MetricLang.Proofs.Sources
import MetricLang.Proofs.Transport

/-!
# Layout

Rows of the same layout differ in the places of their tokens at most, and the same
tokens touch in them. A rule that succeeds on one row succeeds on the other, with the
same value and as many tokens taken: for each rule, what it reads is `Local`, and it
never goes past the end of the input, so that no other token can follow what it reads.
Where the rules try one reading only if another fails, the failure carries over because
having the same layout is symmetric.
-/

namespace MetricLang

-- ---------------------------------------------------------------------------
-- Rows
-- ---------------------------------------------------------------------------

/-- Does the row end with the end of the input, which is nowhere else in it? -/
def endsOnce : List Token → Bool
  | [] => false
  | [t] => t.isEnd
  | t :: u :: ts => !t.isEnd && endsOnce (u :: ts)

/-- Which tokens of the row touch the next one. -/
def touching : List Token → List Bool
  | [] => []
  | t :: ts => t.touches (peek ts) :: touching ts

/-- Two whole rows in which the same tokens touch, and which otherwise differ in the
    places of their tokens at most. -/
structure SameLayout (ts ts' : List Token) : Prop where
  ends : endsOnce ts
  ends' : endsOnce ts'
  like : List.Forall₂ Token.Like ts ts'
  touch : touching ts = touching ts'

theorem endsOnce_cons {t : Token} {ts : List Token} (ht : t.isEnd = false) :
    endsOnce (t :: ts) = endsOnce ts := by
  cases ts <;> simp [endsOnce, ht]

theorem endsOnce_of_append {pre us : List Token} (h : endsOnce (pre ++ us))
    (hpre : ∀ t ∈ pre, t.isEnd = false) : endsOnce us := by
  induction pre with
  | nil => exact h
  | cons t pre ih =>
    obtain ⟨ht, hpre⟩ := List.forall_mem_cons.mp hpre
    exact ih (endsOnce_cons ht ▸ h) hpre

/-- No text is printed for the end of the input, so it is among what is left. -/
theorem Shows.endsOnce {s : String} {ts us : List Token} (h : Shows s ts us)
    (hts : endsOnce ts) : endsOnce us := by
  obtain ⟨pre, rfl, hpre, _⟩ := h
  exact endsOnce_of_append hts hpre

theorem Tracks.like_and_touching {ts ts' : List Token} (h : Tracks [] [] ts ts') :
    List.Forall₂ Token.Like ts ts' ∧ touching ts = touching ts' := by
  induction h with
  | nil => exact ⟨.nil, rfl⟩
  | @cons t t' ts ts' hlike htouch hmore ih =>
    have hfirst : t.touches (peek ts) = t'.touches (peek ts') := by
      by_cases hlt : 0 < ts.length
      · exact htouch hlt
      · obtain ⟨rfl, rfl⟩ := hmore.eq_of_length (Nat.le_of_not_lt hlt)
        rfl
    exact ⟨.cons hlike ih.1, congrArg₂ _ hfirst ih.2⟩

namespace SameLayout

variable {ts ts' row : List Token} {t : Token}

theorem symm (h : SameLayout ts ts') : SameLayout ts' ts :=
  ⟨h.ends', h.ends, (h.like.imp fun _ _ => Token.Like.symm).flip, h.touch.symm⟩

theorem tracks (h : SameLayout ts ts') : Tracks [] [] ts ts' := by
  have hlike := h.like
  have htouch := h.touch
  clear h
  induction hlike with
  | nil => exact .nil
  | cons hfirst _ ih =>
    obtain ⟨hhead, htail⟩ := List.cons.inj htouch
    exact .cons hfirst (fun _ => hhead) (ih htail)

theorem of_tracks (h : Tracks [] [] ts ts') (hts : endsOnce ts) (hts' : endsOnce ts') :
    SameLayout ts ts' :=
  ⟨hts, hts', h.like_and_touching.1, h.like_and_touching.2⟩

theorem like_peek (h : SameLayout ts ts') : Token.Like (peek ts) (peek ts') := by
  cases h.like with
  | nil => exact Token.Like.refl _
  | cons hfirst _ => exact hfirst

/-- The first tokens, if they are not the end, and what follows them. -/
theorem uncons (h : SameLayout (t :: ts) row) (ht : t.isEnd = false) : ∃ t' ts', row = t' :: ts' ∧
    Token.Like t t' ∧ t.touches (peek ts) = t'.touches (peek ts') ∧ SameLayout ts ts' := by
  obtain ⟨hends, hends', hlike, htouch⟩ := h
  cases hlike with
  | cons hfirst hmore =>
    obtain ⟨hhead, htail⟩ := List.cons.inj htouch
    rw [endsOnce_cons ht] at hends
    rw [endsOnce_cons (hfirst.isEnd ▸ ht)] at hends'
    exact ⟨_, _, rfl, hfirst, hhead, hends, hends', hmore, htail⟩

theorem uncons_punct {c : Char} (h : SameLayout (t :: ts) row) (ht : t.isPunct c) :
    ∃ t' ts', row = t' :: ts' ∧ t'.isPunct c ∧ SameLayout ts ts' := by
  obtain ⟨t', ts', rfl, hlike, _, hts⟩ := h.uncons (Token.isEnd_of_isPunct ht)
  exact ⟨t', ts', rfl, hlike.isPunct c ▸ ht, hts⟩

theorem uncons_identifier (h : SameLayout (t :: ts) row) (ht : t.isIdentifier) :
    ∃ t' ts', row = t' :: ts' ∧ t'.isIdentifier ∧ t.text = t'.text ∧ SameLayout ts ts' := by
  obtain ⟨t', ts', rfl, hlike, _, hts⟩ := h.uncons (Token.isEnd_of_isIdentifier ht)
  exact ⟨t', ts', rfl, hlike.isIdentifier ▸ ht, hlike.2, hts⟩

theorem uncons_number (h : SameLayout (t :: ts) row) (ht : t.isNumber) :
    ∃ t' ts', row = t' :: ts' ∧ t'.isNumber ∧ t.text = t'.text ∧ SameLayout ts ts' := by
  obtain ⟨t', ts', rfl, hlike, _, hts⟩ := h.uncons (Token.isEnd_of_isNumber ht)
  exact ⟨t', ts', rfl, hlike.isNumber ▸ ht, hlike.2, hts⟩

theorem touched (h : SameLayout (t :: ts) row) (ht : t.isEnd = false) :
    ∃ t' ts', row = t' :: ts' ∧ Token.Like t t' ∧
      (∀ c, Relation.touched t c ts = Relation.touched t' c ts') ∧ SameLayout ts ts' := by
  obtain ⟨t', ts', rfl, hlike, htouch, hts⟩ := h.uncons ht
  exact ⟨t', ts', rfl, hlike, fun c => by simp [Relation.touched, hts.like_peek.isPunct, htouch], hts⟩

end SameLayout

-- ---------------------------------------------------------------------------
-- Readings
-- ---------------------------------------------------------------------------

/-- What is read of a row is read of every row of the same layout, and what is left of
    them has the same layout too. -/
def IgnoresPlaces (reads : List Token → α → List Token → Prop) : Prop :=
  ∀ ⦃ts ts' us : List Token⦄ ⦃x : α⦄, SameLayout ts ts' → reads ts x us →
    ∃ us', SameLayout us us' ∧ reads ts' x us'

/-- At the end of a row no other token can follow, so what stops there is not asked for. -/
theorem Local.ignoresPlaces {ends : Token → Bool} {reads : List Token → α → List Token → Prop}
    (h : Local ends reads) (hshows : ∀ {ts x us}, reads ts x us → ∃ s, Shows s ts us) :
    IgnoresPlaces reads := by
  intro ts ts' us x hlayout hread
  obtain ⟨s, hs⟩ := hshows hread
  have hus := hs.endsOnce hlayout.ends
  obtain ⟨us', htracks, hread'⟩ := h hread hlayout.tracks (Nat.zero_le _) fun heq => by
    rw [List.eq_nil_of_length_eq_zero heq.symm] at hus
    cases hus
  obtain ⟨s', hs'⟩ := hshows hread'
  exact ⟨us', .of_tracks htracks hus (hs'.endsOnce hlayout.ends'), hread'⟩

theorem IgnoresPlaces.of_iff {reads reads' : List Token → α → List Token → Prop}
    (h : IgnoresPlaces reads) (hiff : ∀ {ts x us}, reads' ts x us ↔ reads ts x us) :
    IgnoresPlaces reads' := by
  intro ts ts' us x hlayout hread
  obtain ⟨us', hus, hread'⟩ := h hlayout (hiff.mp hread)
  exact ⟨us', hus, hiff.mpr hread'⟩

theorem Word.text_ignoresPlaces :
    IgnoresPlaces fun ts s us => ∃ w, Word.rule.Reads ts w us ∧ w.text = s := by
  have hlocal : Local Word.endsBefore fun ts s us => ∃ w, Word.rule.Reads ts w us ∧ w.text = s := by
    rintro us us' ts ts' vs _ ⟨w, hw, rfl⟩ htracks hle hend
    obtain ⟨w', vs', hvs, hw', hlike⟩ := Word.reads_of_tracks hw htracks hle hend
    exact ⟨vs', hvs, w', hw', hlike.text⟩
  exact hlocal.ignoresPlaces fun ⟨_, hw, _⟩ => ⟨_, Word.Reads.shows hw⟩

theorem Connective.ignoresPlaces : IgnoresPlaces Connective.Reads :=
  Connective.local_reads.ignoresPlaces fun h => ⟨_, h.shows⟩

theorem Value.arguments_ignorePlaces : IgnoresPlaces (Rule.ItemsRead ')' Value.argument) :=
  Value.local_arguments.ignoresPlaces fun h => ⟨_, Value.shows_textTail h⟩

theorem Condition.ignoresPlaces : IgnoresPlaces Condition.Reads :=
  Condition.local_reads.ignoresPlaces fun h => ⟨_, h.shows⟩

theorem Param.sequence_ignoresPlaces : IgnoresPlaces Param.SequenceReads :=
  Param.local_sequenceReads.ignoresPlaces fun h => ⟨_, h.shows⟩

theorem Query.ignoresPlaces : IgnoresPlaces Query.Reads :=
  Query.local_reads.ignoresPlaces fun h => ⟨_, h.shows⟩

theorem Param.ignoresPlaces : IgnoresPlaces Param.Reads := by
  intro ts ts' us p hlayout h
  cases h with
  | group hopened hin hclosed =>
    obtain ⟨t', row, rfl, hopened', hlayout⟩ := hlayout.uncons_punct hopened
    obtain ⟨row', hlayout, hin'⟩ := Param.sequence_ignoresPlaces hlayout hin
    obtain ⟨u', us', rfl, hclosed', hus⟩ := hlayout.uncons_punct hclosed
    exact ⟨us', hus, .group hopened' hin' hclosed'⟩
  | connective hc =>
    obtain ⟨us', hus, hc'⟩ := Connective.ignoresPlaces hlayout hc
    exact ⟨us', hus, .connective hc'⟩
  | star hstar =>
    obtain ⟨t', us', rfl, hstar', hus⟩ := hlayout.uncons_punct hstar
    exact ⟨us', hus, .star hstar'⟩
  | condition hc =>
    obtain ⟨us', hus, hc'⟩ := Condition.ignoresPlaces hlayout hc
    exact ⟨us', hus, .condition hc'⟩

theorem CallReads.ignoresPlaces {inside : List Token → β → List Token → Prop}
    {node : String → β → List Value → α} (h : IgnoresPlaces inside) :
    IgnoresPlaces (CallReads inside node) := by
  rintro ts ts' us x hlayout ⟨hname, hopened, hinside, hargs⟩
  obtain ⟨t', row, rfl, hname', htext, hlayout⟩ := hlayout.uncons_identifier hname
  obtain ⟨u', row, rfl, hopened', hlayout⟩ := hlayout.uncons_punct hopened
  obtain ⟨row, hlayout, hinside'⟩ := h hlayout hinside
  obtain ⟨us', hus, hargs'⟩ := Value.arguments_ignorePlaces hlayout hargs
  exact ⟨us', hus, htext ▸ .mk hname' hopened' hinside' hargs'⟩

-- ---------------------------------------------------------------------------
-- Expressions and monitors
-- ---------------------------------------------------------------------------

theorem Operator.isAt_of_like {binds : Bool} {op : Operator} {t t' : Token}
    (h : Token.Like t t') : IsAt binds op t ↔ IsAt binds op t' := by
  simp [IsAt, h.isPunct]

theorem Operator.ofSigned?_of_like {t t' : Token} (h : Token.Like t t') :
    ofSigned? t = ofSigned? t' := by
  simp [ofSigned?, h.isNumber, h.2]

/-- What phrases read. A call is read only where no query can be, so there the row that
    is being read and the one it was read of change roles. -/
theorem Phrase.Reads.of_sameLayout {p : Phrase} {ts ts' us : List Token} (h : p.Reads ts us)
    (hlayout : SameLayout ts ts') : ∃ us', SameLayout us us' ∧ p.Reads ts' us' := by
  induction h generalizing ts' with
  | number hnumber hfinite =>
    obtain ⟨t', us', rfl, hnumber', htext, hus⟩ := hlayout.uncons_number hnumber
    exact ⟨us', hus, .number hnumber' (htext ▸ hfinite)⟩
  | group hopened _ hclosed ih =>
    obtain ⟨t', row, rfl, hopened', hlayout⟩ := hlayout.uncons_punct hopened
    obtain ⟨row', hlayout, hin'⟩ := ih hlayout
    obtain ⟨u', us', rfl, hclosed', hus⟩ := hlayout.uncons_punct hclosed
    exact ⟨us', hus, .group hopened' hin' hclosed'⟩
  | query hq =>
    obtain ⟨us', hus, hq'⟩ := Query.ignoresPlaces hlayout hq
    exact ⟨us', hus, .query hq'⟩
  | call hno hname hopened _ hargs ih =>
    have hback := hlayout.symm
    obtain ⟨t', row, rfl, hname', htext, hlayout⟩ := hlayout.uncons_identifier hname
    obtain ⟨u', row, rfl, hopened', hlayout⟩ := hlayout.uncons_punct hopened
    obtain ⟨row, hlayout, hin'⟩ := ih hlayout
    obtain ⟨us', hus, hargs'⟩ := Value.arguments_ignorePlaces hlayout hargs
    refine ⟨us', hus, htext ▸ .call (fun q ws hq => ?_) hname' hopened' hin' hargs'⟩
    obtain ⟨ws', _, hq'⟩ := Query.ignoresPlaces hback hq
    exact hno q ws' hq'
  | term _ _ ih ih' =>
    obtain ⟨row, hlayout, hfirst'⟩ := ih hlayout
    obtain ⟨us', hus, hmore'⟩ := ih' hlayout
    exact ⟨us', hus, .term hfirst' hmore'⟩
  | factorsEnd hends =>
    refine ⟨ts', hlayout, .factorsEnd fun op hop => hends op ?_⟩
    exact (Operator.isAt_of_like hlayout.like_peek).mpr hop
  | factor hop _ _ ih ih' =>
    obtain ⟨o', row, rfl, hlike, _, hlayout⟩ := hlayout.uncons (Token.isEnd_of_isPunct hop.2)
    obtain ⟨row, hlayout, hoperand'⟩ := ih hlayout
    obtain ⟨us', hus, hmore'⟩ := ih' hlayout
    exact ⟨us', hus, .factor ((Operator.isAt_of_like hlike).mp hop) hoperand' hmore'⟩
  | expression _ _ ih ih' =>
    obtain ⟨row, hlayout, hfirst'⟩ := ih hlayout
    obtain ⟨us', hus, hmore'⟩ := ih' hlayout
    exact ⟨us', hus, .expression hfirst' hmore'⟩
  | termsEnd hends hunsigned =>
    refine ⟨ts', hlayout, .termsEnd (fun op hop => hends op ?_) ?_⟩
    · exact (Operator.isAt_of_like hlayout.like_peek).mpr hop
    · exact (Operator.ofSigned?_of_like hlayout.like_peek).symm.trans hunsigned
  | sum hop _ _ ih ih' =>
    obtain ⟨o', row, rfl, hlike, _, hlayout⟩ := hlayout.uncons (Token.isEnd_of_isPunct hop.2)
    obtain ⟨row, hlayout, hlast'⟩ := ih hlayout
    obtain ⟨us', hus, hmore'⟩ := ih' hlayout
    exact ⟨us', hus, .sum ((Operator.isAt_of_like hlike).mp hop) hlast' hmore'⟩
  | signed hsigned _ _ ih ih' =>
    have hnumber := Operator.isNumber_of_ofSigned? hsigned
    obtain ⟨o', row, rfl, hlike, _, hlayout⟩ := hlayout.uncons (Token.isEnd_of_isNumber hnumber)
    obtain ⟨row, hlayout, hlast'⟩ := ih hlayout
    obtain ⟨us', hus, hmore'⟩ := ih' hlayout
    exact ⟨us', hus, .signed (Operator.ofSigned?_of_like hlike ▸ hsigned) hlast' hmore'⟩

theorem Operand.ignoresPlaces : IgnoresPlaces (Rule.Reads Operand.rule) := by
  intro ts ts' us v hlayout h
  obtain ⟨us', hus, h'⟩ := (Operand.reads_rule.mp h).of_sameLayout hlayout
  exact ⟨us', hus, Operand.reads_rule.mpr h'⟩

theorem Term.ignoresPlaces : IgnoresPlaces (Rule.Reads Term.rule) := by
  intro ts ts' us t hlayout h
  obtain ⟨us', hus, h'⟩ := (Term.reads_rule.mp h).of_sameLayout hlayout
  exact ⟨us', hus, Term.reads_rule.mpr h'⟩

theorem Expression.ignoresPlaces : IgnoresPlaces (Rule.Reads Expression.rule) := by
  intro ts ts' us e hlayout h
  obtain ⟨us', hus, h'⟩ := (Expression.reads_rule.mp h).of_sameLayout hlayout
  exact ⟨us', hus, Expression.reads_rule.mpr h'⟩

theorem Comparator.ignoresPlaces : IgnoresPlaces Comparator.Reads := by
  intro ts ts' us c hlayout h
  cases h with
  | greater hsign halone =>
    obtain ⟨t', us', rfl, hlike, htouched, hus⟩ := hlayout.touched (Token.isEnd_of_isPunct hsign)
    exact ⟨us', hus, .greater (hlike.isPunct _ ▸ hsign) (htouched _ ▸ halone)⟩
  | greaterEqual hsign hequals =>
    obtain ⟨t', row, rfl, hlike, htouched, hrow⟩ := hlayout.touched (Token.isEnd_of_isPunct hsign)
    obtain ⟨u', us', rfl, _, hus⟩ := hrow.uncons_punct (Bool.and_eq_true_iff.mp hequals).1
    exact ⟨us', hus, .greaterEqual (hlike.isPunct _ ▸ hsign) (htouched _ ▸ hequals)⟩
  | less hsign halone =>
    obtain ⟨t', us', rfl, hlike, htouched, hus⟩ := hlayout.touched (Token.isEnd_of_isPunct hsign)
    exact ⟨us', hus, .less (hlike.isPunct _ ▸ hsign) (htouched _ ▸ halone)⟩
  | lessEqual hsign hequals =>
    obtain ⟨t', row, rfl, hlike, htouched, hrow⟩ := hlayout.touched (Token.isEnd_of_isPunct hsign)
    obtain ⟨u', us', rfl, _, hus⟩ := hrow.uncons_punct (Bool.and_eq_true_iff.mp hequals).1
    exact ⟨us', hus, .lessEqual (hlike.isPunct _ ▸ hsign) (htouched _ ▸ hequals)⟩

theorem Monitor.ignoresPlaces : IgnoresPlaces Monitor.Reads := by
  rintro ts ts' us m hlayout ⟨ht, hu, hwindow, hv, hw, hq, hc, hn, hd⟩
  obtain ⟨t', row, rfl, ht', htext, hlayout⟩ := hlayout.uncons_identifier ht
  obtain ⟨u', row, rfl, hu', hlayout⟩ := hlayout.uncons_punct hu
  obtain ⟨row, hlayout, x', hwindow', hx⟩ := Word.text_ignoresPlaces hlayout ⟨_, hwindow, rfl⟩
  obtain ⟨v', row, rfl, hv', hlayout⟩ := hlayout.uncons_punct hv
  obtain ⟨w', row, rfl, hw', hlayout⟩ := hlayout.uncons_punct hw
  obtain ⟨row, hlayout, hq'⟩ := Query.ignoresPlaces hlayout hq
  obtain ⟨row, hlayout, hc'⟩ := Comparator.ignoresPlaces hlayout hc
  obtain ⟨n', us', rfl, hn', hdigits, hus⟩ := hlayout.uncons_number hn
  exact ⟨us', hus, htext ▸ hx ▸ .mk ht' hu' hwindow' hv' hw' hq' hc' hn' (hdigits ▸ hd)⟩

-- ---------------------------------------------------------------------------
-- Rules
-- ---------------------------------------------------------------------------

/-- What is read of a row and how many tokens are taken of it, or that nothing is. -/
def Probe.outcome (probe : Probe α) (ts : List Token) : Option (α × Nat) :=
  (probe ts).map fun r => (r.value, ts.length - r.rest.length)

/-- The rule without the reasons why it fails. -/
def Rule.probe (rule : Rule α) : Probe α := fun ts => (rule ts).toOption

theorem Rule.takes_probe {rule : Rule α} {ts us : List Token} {x : α} :
    rule.probe.Takes ts x us ↔ rule.Reads ts x us := by
  refine exists_congr fun _ => ?_
  cases h : rule ts <;> simp [Rule.probe, h, Except.toOption]

theorem Probe.outcome_eq_some {probe : Probe α} {ts : List Token} {x : α} {n : Nat} :
    probe.outcome ts = some (x, n) ↔
      ∃ us, probe.Takes ts x us ∧ n = ts.length - us.length := by
  rw [outcome, Option.map_eq_some_iff]
  constructor
  · rintro ⟨r, hr, heq⟩
    obtain ⟨y, us, _, rfl, htakes⟩ := takes_of_eq_some hr
    cases heq
    exact ⟨us, htakes, rfl⟩
  · rintro ⟨us, htakes, rfl⟩
    exact ⟨_, htakes.eq_some, rfl⟩

theorem IgnoresPlaces.outcome {probe : Probe α} {ts ts' : List Token}
    (h : IgnoresPlaces probe.Takes) (hlayout : SameLayout ts ts') {y : α × Nat}
    (hy : probe.outcome ts = some y) : probe.outcome ts' = some y := by
  obtain ⟨us, htakes, hn⟩ := Probe.outcome_eq_some.mp hy
  obtain ⟨us', hus, htakes'⟩ := h hlayout htakes
  have hlength := hlayout.like.length_eq
  have hlength' := hus.like.length_eq
  exact Probe.outcome_eq_some.mpr ⟨us', htakes', by omega⟩

theorem IgnoresPlaces.probe {reads : List Token → α → List Token → Prop} {rule : Rule α}
    (h : IgnoresPlaces reads) (hiff : ∀ {ts x us}, rule.Reads ts x us ↔ reads ts x us) :
    IgnoresPlaces rule.probe.Takes :=
  h.of_iff (Rule.takes_probe.trans hiff)

theorem IgnoresPlaces.complete {rule : Rule α} {ts ts' : List Token} {x : α}
    (h : IgnoresPlaces rule.Reads) (hlayout : SameLayout ts ts')
    (hread : rule.complete ts = .ok x) : rule.complete ts' = .ok x := by
  obtain ⟨us, hread, hend⟩ := Rule.complete_eq_ok.mp hread
  obtain ⟨us', hus, hread'⟩ := h hlayout hread
  exact Rule.complete_eq_ok.mpr ⟨us', hread', hus.like_peek.isEnd ▸ hend⟩

theorem IgnoresPlaces.complete_eq {rule : Rule α} {ts ts' : List Token}
    (h : IgnoresPlaces rule.Reads) (hlayout : SameLayout ts ts') :
    (rule.complete ts).toOption = (rule.complete ts').toOption := by
  refine Option.ext fun x => ?_
  rw [toOption_eq_some, toOption_eq_some]
  exact ⟨h.complete hlayout, h.complete hlayout.symm⟩

theorem toOption_statementOf (ts : List Token) : (statementOf ts).toOption =
    ((Rule.complete Query.rule ts).toOption.map .query).or
      ((Rule.complete Expression.rule ts).toOption.map .expression) := by
  unfold statementOf
  cases Rule.complete Query.rule ts with
  | ok q => rfl
  | error _ => cases Rule.complete Expression.rule ts <;> rfl

/-- Two whole rows of the same layout are the same statement, or neither is one. -/
theorem toOption_statementOf_of_sameLayout {ts ts' : List Token} (h : SameLayout ts ts') :
    (statementOf ts).toOption = (statementOf ts').toOption := by
  have hquery : IgnoresPlaces (Rule.Reads Query.rule) := Query.ignoresPlaces.of_iff Query.reads_rule
  rw [toOption_statementOf, toOption_statementOf, hquery.complete_eq h,
    Expression.ignoresPlaces.complete_eq h]

end MetricLang
