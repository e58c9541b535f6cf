-- SUMMARY: What is read of a row of tokens is read of a row like it, whatever follows.
import MetricLang.Proofs.ExpressionReads
import MetricLang.Proofs.FilterText

/-!
# Rows of tokens that are alike

A rule looks at the kinds and the texts of tokens and at which of them touch, not
at where they are, and at most one token past those it takes. `Tracks` relates two
rows that agree in this, and `Local` says of a relation that what it reads of one
row it reads of the other, if it may stop at the token that follows there.
-/

namespace MetricLang

-- ---------------------------------------------------------------------------
-- Rows
-- ---------------------------------------------------------------------------

/-- The tokens before `us` and those before `us'` differ in their places at most, and
    the same ones touch. -/
inductive Tracks (us us' : List Token) : List Token → List Token → Prop
  | nil : Tracks us us' us us'
  | cons {t t' : Token} {ts ts' : List Token} (like : Token.Like t t')
      (touch : us.length < ts.length → t.touches (peek ts) = t'.touches (peek ts'))
      (more : Tracks us us' ts ts') : Tracks us us' (t :: ts) (t' :: ts')

namespace Tracks

variable {us us' ts row : List Token} {t : Token}

theorem uncons (h : Tracks us us' (t :: ts) row) (hle : us.length ≤ ts.length) :
    ∃ t' ts', row = t' :: ts' ∧ Token.Like t t' ∧
      (us.length < ts.length → t.touches (peek ts) = t'.touches (peek ts')) ∧
      Tracks us us' ts ts' := by
  cases h with
  | nil => exact absurd hle (Nat.not_succ_le_self _)
  | cons hlike htouch hmore => exact ⟨_, _, rfl, hlike, htouch, hmore⟩

theorem uncons₂ {u : Token} (h : Tracks us us' (t :: u :: ts) row) (hle : us.length ≤ ts.length) :
    ∃ t' u' ts', row = t' :: u' :: ts' ∧ Token.Like t t' ∧ Token.Like u u' ∧
      t.touches u = t'.touches u' ∧
      (us.length < ts.length → u.touches (peek ts) = u'.touches (peek ts')) ∧
      Tracks us us' ts ts' := by
  obtain ⟨t', row, rfl, ht, htouch, h⟩ := h.uncons (Nat.le_succ_of_le hle)
  obtain ⟨u', ts', rfl, hu, htouch', h⟩ := h.uncons hle
  exact ⟨t', u', ts', rfl, ht, hu, htouch (Nat.lt_succ_of_le hle), htouch', h⟩

theorem length_le {ts' : List Token} (h : Tracks us us' ts ts') : us.length ≤ ts.length := by
  induction h with
  | nil => exact Nat.le_refl _
  | cons _ _ _ ih => exact Nat.le_succ_of_le ih

theorem eq_of_length {ts' : List Token} (h : Tracks us us' ts ts') (hlength : ts.length ≤ us.length) :
    ts = us ∧ ts' = us' := by
  cases h with
  | nil => exact ⟨rfl, rfl⟩
  | cons _ _ hmore =>
    have := hmore.length_le
    simp only [List.length_cons] at hlength
    omega

theorem like_peek {ts' : List Token} (h : Tracks us us' ts ts') (hlt : us.length < ts.length) :
    Token.Like (peek ts) (peek ts') := by
  cases h with
  | nil => exact absurd hlt (Nat.lt_irrefl _)
  | cons hlike _ _ => exact hlike

/-- What comes next agrees in what does not depend on its place, if the token that
    follows the second row does so too. -/
theorem peek_of_ends {ts' : List Token} {p : Token → Bool} (h : Tracks us us' ts ts')
    (hp : ∀ {t t' : Token}, Token.Like t t' → p t = p t')
    (hts : us.length < ts.length → p (peek ts)) (hend : us.length = ts.length → p (peek us')) :
    p (peek ts') := by
  cases h with
  | nil => exact hend rfl
  | cons hlike _ hmore =>
    rw [peek_cons, ← hp hlike]
    exact hts (Nat.lt_succ_of_le hmore.length_le)

theorem append (us us' pre : List Token) : Tracks us us' (pre ++ us) (pre ++ us') := by
  induction pre with
  | nil => exact .nil
  | cons t pre ih =>
    refine .cons ⟨rfl, rfl⟩ (fun hlt => ?_) ih
    cases pre with
    | nil => exact absurd hlt (Nat.lt_irrefl _)
    | cons u pre => rfl

end Tracks

/-- What is read of a row is read of every row that tracks it. A reading that goes up to
    the end of the row needs `ends` of the token that follows the other one. -/
def Local (ends : Token → Bool) (reads : List Token → α → List Token → Prop) : Prop :=
  ∀ ⦃us us' ts ts' vs : List Token⦄ ⦃x : α⦄, reads ts x vs → Tracks us us' ts ts' →
    us.length ≤ vs.length → (us.length = vs.length → ends (peek us')) →
    ∃ vs', Tracks us us' vs vs' ∧ reads ts' x vs'

/-- What is read up to the end of a row is read of it in front of more tokens, if it may
    stop there. -/
theorem Local.append {ends : Token → Bool} {reads : List Token → α → List Token → Prop}
    {pre us : List Token} {x : α} (h : Local ends reads) (hread : reads pre x [])
    (hend : ends (peek us)) : reads (pre ++ us) x us := by
  have htracks := Tracks.append [] us pre
  rw [List.append_nil] at htracks
  obtain ⟨vs, hvs, hread⟩ := h hread htracks (Nat.le_refl _) fun _ => hend
  obtain ⟨_, rfl⟩ := hvs.eq_of_length (Nat.le_refl _)
  exact hread

/-- What is read in front of more tokens is read of the tokens before them alone. -/
theorem Local.exists_span {ends : Token → Bool} {reads : List Token → α → List Token → Prop}
    {ts us : List Token} {x : α} (h : Local ends reads) (hread : reads ts x us)
    (hle : us.length ≤ ts.length) (hend : ends .absent) : ∃ pre, ts = pre ++ us ∧ reads pre x [] := by
  obtain ⟨pre, vs, rfl, hlength⟩ : ∃ pre vs, ts = pre ++ vs ∧ vs.length = us.length :=
    ⟨ts.take (ts.length - us.length), ts.drop (ts.length - us.length),
      (List.take_append_drop _ ts).symm, by rw [List.length_drop]; omega⟩
  have htracks := Tracks.append vs [] pre
  rw [List.append_nil] at htracks
  obtain ⟨row, hrow, hread⟩ := h hread htracks (Nat.le_of_eq hlength) fun _ => hend
  obtain ⟨rfl, rfl⟩ := hrow.eq_of_length (Nat.le_of_eq hlength.symm)
  exact ⟨pre, rfl, hread⟩

/-- What is read up to a punctuation character and with it ends there. -/
theorem Local.before {ends : Token → Bool} {reads : List Token → α → List Token → Prop}
    (h : Local ends reads) (c : Char) :
    Local (fun _ => true) fun ts x us => ∃ t, reads ts x (t :: us) ∧ t.isPunct c := by
  intro us us' ts ts' vs x ⟨t, hread, ht⟩ htracks hle _
  obtain ⟨row, hrow, hread'⟩ := h hread htracks (Nat.le_succ_of_le hle) fun hlength => by
    rw [List.length_cons] at hlength
    omega
  obtain ⟨t', vs', rfl, hlike, _, hvs⟩ := hrow.uncons hle
  exact ⟨vs', hvs, t', hread', hlike.isPunct c ▸ ht⟩

theorem Local.mono {ends ends' : Token → Bool} {reads : List Token → α → List Token → Prop}
    (h : Local ends reads) (himp : ∀ t, ends' t → ends t) : Local ends' reads := by
  intro us us' ts ts' vs x hread htracks hle hend
  exact h hread htracks hle fun heq => himp _ (hend heq)

-- ---------------------------------------------------------------------------
-- Words and values
-- ---------------------------------------------------------------------------

/-- Does a word end before the token, whatever touches it? -/
def Word.endsBefore (t : Token) : Bool := !canContinue t

theorem Word.endsBefore_of_isPunct {t : Token} {c : Char} (h : t.isPunct c)
    (hc : c ∉ ['.', '/', '-', '*']) : endsBefore t := by
  simp only [endsBefore, Bool.not_eq_true', Bool.eq_false_iff]
  intro hgo
  simp [isPunct_of_canContinue hgo hc] at h

theorem Word.runs_of_tracks {us us' more vs row : List Token} {t : Token} (hruns : Runs t more vs)
    (h : Tracks us us' (t :: (more ++ vs)) row) (hle : us.length ≤ vs.length)
    (hend : us.length = vs.length → Word.endsBefore (peek us')) :
    ∃ t' more' vs', row = t' :: (more' ++ vs') ∧ List.Forall₂ Token.Like (t :: more) (t' :: more') ∧
      Tracks us us' vs vs' ∧ Runs t' more' vs' := by
  induction more generalizing t row with
  | nil =>
    rw [List.nil_append] at h
    obtain ⟨t', vs', rfl, hlike, htouch, h⟩ := h.uncons hle
    refine ⟨t', [], vs', rfl, .cons hlike .nil, h, ?_⟩
    by_cases hlt : us.length < vs.length
    · rwa [Runs, joins, htouch hlt, (h.like_peek hlt).canContinue] at hruns
    · obtain ⟨rfl, rfl⟩ := h.eq_of_length (by omega)
      have := hend rfl
      simp_all [Runs, joins, endsBefore]
  | cons u more ih =>
    obtain ⟨hjoins, hruns⟩ := hruns
    obtain ⟨t', row, rfl, hlike, htouch, h⟩ :=
      h.uncons (by simp only [List.cons_append, List.length_cons, List.length_append]; omega)
    obtain ⟨u', more', vs', rfl, hlikes, hvs, hruns'⟩ := ih hruns h
    have htouch := htouch (by simp only [List.cons_append, List.length_cons, List.length_append]; omega)
    have hu := (List.forall₂_cons.mp hlikes).1
    refine ⟨t', u' :: more', vs', rfl, .cons hlike hlikes, hvs, ?_, hruns'⟩
    exact (congrArg₂ _ htouch hu.canContinue).symm.trans hjoins

theorem Word.reads_of_tracks {us us' ts ts' vs : List Token} {w : Word}
    (h : Word.rule.Reads ts w vs) (htracks : Tracks us us' ts ts') (hle : us.length ≤ vs.length)
    (hend : us.length = vs.length → Word.endsBefore (peek us')) :
    ∃ w' vs', Tracks us us' vs vs' ∧ Word.rule.Reads ts' w' vs' ∧ Word.Like w' w := by
  obtain ⟨rfl, hstart, hruns, hlone⟩ := Word.reads_rule.mp h
  obtain ⟨t', more', vs', rfl, hlikes, hvs, hruns'⟩ := runs_of_tracks hruns htracks hle hend
  have hlike : Word.Like ⟨t', more'⟩ w :=
    List.Forall₂.flip (List.Forall₂.imp (fun _ _ h => Token.Like.symm h) hlikes)
  have hformed := Formed.of_like ⟨hstart, canContinue_of_runs hruns, hlone⟩ hlike
  exact ⟨⟨t', more'⟩, vs', hvs, Word.reads_rule.mpr ⟨rfl, hformed.start, hruns', hformed.notLone⟩, hlike⟩

theorem Connective.local_wordReads :
    Local (fun t => !t.isKeyword Keyword.not.spelling) Connective.WordReads := by
  intro us us' ts ts' vs c h htracks hle hend
  cases h with
  | and hfirst halone =>
    obtain ⟨t', vs', rfl, hlike, _, hvs⟩ := htracks.uncons hle
    refine ⟨vs', hvs, .and (hlike.isKeyword _ ▸ hfirst) ?_⟩
    simpa using hvs.peek_of_ends (p := fun t => !t.isKeyword Keyword.not.spelling)
      (fun h => by simp [h.isKeyword]) (fun _ => by simp [halone]) hend
  | andNot hfirst hsecond =>
    obtain ⟨t', u', vs', rfl, ht, hu, _, _, hvs⟩ := htracks.uncons₂ hle
    exact ⟨vs', hvs, .andNot (ht.isKeyword _ ▸ hfirst) (hu.isKeyword _ ▸ hsecond)⟩
  | or hfirst =>
    obtain ⟨t', vs', rfl, hlike, _, hvs⟩ := htracks.uncons hle
    exact ⟨vs', hvs, .or (hlike.isKeyword _ ▸ hfirst)⟩
  | isIn hfirst =>
    obtain ⟨t', vs', rfl, hlike, _, hvs⟩ := htracks.uncons hle
    exact ⟨vs', hvs, .isIn (hlike.isKeyword _ ▸ hfirst)⟩

theorem Connective.local_reads :
    Local (fun t => !t.isKeyword Keyword.not.spelling) Connective.Reads := by
  intro us us' ts ts' vs c h htracks hle hend
  cases h with
  | comma hcomma =>
    obtain ⟨t', vs', rfl, hlike, _, hvs⟩ := htracks.uncons hle
    exact ⟨vs', hvs, .comma (hlike.isPunct _ ▸ hcomma)⟩
  | word hc =>
    obtain ⟨vs', hvs, hc'⟩ := Connective.local_wordReads hc htracks hle hend
    exact ⟨vs', hvs, .word hc'⟩

theorem Value.local_argumentReads : Local Word.endsBefore Value.ArgumentReads := by
  intro us us' ts ts' vs v h htracks hle hend
  cases h with
  | string hkind =>
    obtain ⟨t', vs', rfl, hlike, _, hvs⟩ := htracks.uncons hle
    refine ⟨vs', hvs, ?_⟩
    rw [hlike.2]
    exact .string (hlike.1 ▸ hkind)
  | word hw =>
    obtain ⟨w', vs', hvs, hw', hlike⟩ := Word.reads_of_tracks hw htracks hle hend
    exact ⟨vs', hvs, hlike.ofWord ▸ .word hw'⟩

theorem Value.startsWord_of_like {t t' : Token} (h : Token.Like t t') :
    Connective.startsWord t = Connective.startsWord t' := by
  simp [Connective.startsWord, h.isKeyword]

theorem Word.not_isKeyword_of_endsBefore {t : Token} (h : Word.endsBefore t) (word : String) :
    t.isKeyword word = false := by
  rw [← Bool.not_eq_true]
  intro hword
  simp [Word.endsBefore, Word.canContinue, Token.isIdentifier_of_isKeyword hword] at h

theorem Value.ArgumentReads.rest_lt {ts us : List Token} {v : Value} (h : ArgumentReads ts v us) :
    us.length < ts.length :=
  (Value.reads_argument.mpr h).rest_lt

theorem Value.local_reads : Local Word.endsBefore Value.Reads := by
  intro us us' ts ts' vs v h htracks hle hend
  cases h with
  | connective hc =>
    obtain ⟨vs', hvs, hc'⟩ := Connective.local_wordReads hc htracks hle fun heq => by
      simp [Word.not_isKeyword_of_endsBefore (hend heq)]
    exact ⟨vs', hvs, .connective hc'⟩
  | argument hplain hv =>
    obtain ⟨vs', hvs, hv'⟩ := Value.local_argumentReads hv htracks hle hend
    have hlike := htracks.like_peek (Nat.lt_of_le_of_lt hle hv.rest_lt)
    exact ⟨vs', hvs, .argument (Value.startsWord_of_like hlike ▸ hplain) hv'⟩

theorem Rule.local_itemsRead {ends : Token → Bool} {close : Char} {item : Rule α}
    (hitem : Local ends item.Reads) : Local (fun _ => true) (ItemsRead close item) := by
  intro us us' ts ts' vs xs h htracks hle _
  induction h generalizing ts' with
  | nil hclosed =>
    obtain ⟨t', vs', rfl, hlike, _, hvs⟩ := htracks.uncons hle
    exact ⟨vs', hvs, .nil (hlike.isPunct _ ▸ hclosed)⟩
  | cons hgoes hcomma hfirst hmore ih =>
    have hlt := hmore.rest_lt
    have := hfirst.rest_lt
    obtain ⟨t', ws', rfl, hlike, _, hws⟩ := htracks.uncons (by omega)
    obtain ⟨xs', hxs, hfirst'⟩ := hitem hfirst hws (by omega) fun heq => by omega
    obtain ⟨vs', hvs, hmore'⟩ := ih hxs hle fun _ => rfl
    exact ⟨vs', hvs, .cons (hlike.isPunct _ ▸ hgoes) (hlike.isPunct _ ▸ hcomma) hfirst' hmore'⟩

theorem Value.local_argument : Local Word.endsBefore (Rule.Reads Value.argument) := by
  intro us us' ts ts' vs v h htracks hle hend
  obtain ⟨vs', hvs, h'⟩ := Value.local_argumentReads (Value.reads_argument.mp h) htracks hle hend
  exact ⟨vs', hvs, Value.reads_argument.mpr h'⟩

theorem Value.local_arguments : Local (fun _ => true) (Rule.ItemsRead ')' Value.argument) :=
  @Rule.local_itemsRead _ Word.endsBefore _ _ Value.local_argument

-- ---------------------------------------------------------------------------
-- Filters
-- ---------------------------------------------------------------------------

theorem Tracks.uncons_touched {us us' ts row : List Token} {t : Token}
    (h : Tracks us us' (t :: ts) row) (hlt : us.length < ts.length) :
    ∃ t' ts', row = t' :: ts' ∧ Token.Like t t' ∧
      (∀ c, Relation.touched t c ts = Relation.touched t' c ts') ∧ Tracks us us' ts ts' := by
  obtain ⟨t', ts', rfl, hlike, htouch, h⟩ := h.uncons (Nat.le_of_lt hlt)
  exact ⟨t', ts', rfl, hlike,
    fun c => by simp [Relation.touched, (h.like_peek hlt).isPunct, htouch hlt], h⟩

/-- A relation is told apart by what touches it, so a value has to follow. -/
theorem Relation.local_reads : Local (fun _ => false) Relation.Reads := by
  intro us us' ts ts' vs r h htracks hle hend
  have hlt : us.length < vs.length := Nat.lt_of_le_of_ne hle fun heq => by simpa using hend heq
  have hlt' : us.length < vs.length + 1 := Nat.lt_succ_of_lt hlt
  have hlt'' : us.length < vs.length + 1 + 1 := Nat.lt_succ_of_lt hlt'
  cases h with
  | equal hcolon halone =>
    obtain ⟨t', vs', rfl, ht, htouched, hvs⟩ := htracks.uncons_touched hlt
    exact ⟨vs', hvs, .equal (ht.isPunct _ ▸ hcolon) fun c hc => htouched c ▸ halone c hc⟩
  | greater hcolon hsign halone =>
    obtain ⟨t', row, rfl, ht, htouched, htracks⟩ := htracks.uncons_touched hlt'
    rw [htouched] at hsign
    obtain ⟨u', vs', rfl, _, htouched, hvs⟩ := htracks.uncons_touched hlt
    exact ⟨vs', hvs, .greater (ht.isPunct _ ▸ hcolon) hsign (htouched _ ▸ halone)⟩
  | less hcolon hsign halone =>
    obtain ⟨t', row, rfl, ht, htouched, htracks⟩ := htracks.uncons_touched hlt'
    rw [htouched] at hsign
    obtain ⟨u', vs', rfl, _, htouched, hvs⟩ := htracks.uncons_touched hlt
    exact ⟨vs', hvs, .less (ht.isPunct _ ▸ hcolon) hsign (htouched _ ▸ halone)⟩
  | greaterEqual hcolon hsign hequals =>
    obtain ⟨t', row, rfl, ht, htouched, htracks⟩ := htracks.uncons_touched hlt''
    rw [htouched] at hsign
    obtain ⟨u', row, rfl, _, htouched, htracks⟩ := htracks.uncons_touched hlt'
    rw [htouched] at hequals
    obtain ⟨v', vs', rfl, _, _, hvs⟩ := htracks.uncons hle
    exact ⟨vs', hvs, .greaterEqual (ht.isPunct _ ▸ hcolon) hsign hequals⟩
  | lessEqual hcolon hsign hequals =>
    obtain ⟨t', row, rfl, ht, htouched, htracks⟩ := htracks.uncons_touched hlt''
    rw [htouched] at hsign
    obtain ⟨u', row, rfl, _, htouched, htracks⟩ := htracks.uncons_touched hlt'
    rw [htouched] at hequals
    obtain ⟨v', vs', rfl, _, _, hvs⟩ := htracks.uncons hle
    exact ⟨vs', hvs, .lessEqual (ht.isPunct _ ▸ hcolon) hsign hequals⟩
  | regex hcolon hsign =>
    obtain ⟨t', row, rfl, ht, htouched, htracks⟩ := htracks.uncons_touched hlt'
    rw [htouched] at hsign
    obtain ⟨u', vs', rfl, _, _, hvs⟩ := htracks.uncons hle
    exact ⟨vs', hvs, .regex (ht.isPunct _ ▸ hcolon) hsign⟩
  | isIn hword =>
    obtain ⟨t', vs', rfl, ht, _, hvs⟩ := htracks.uncons hle
    exact ⟨vs', hvs, .isIn (ht.isKeyword _ ▸ hword)⟩
  | notIn hfirst hsecond =>
    obtain ⟨t', u', vs', rfl, ht, hu, _, _, hvs⟩ := htracks.uncons₂ hle
    exact ⟨vs', hvs, .notIn (ht.isKeyword _ ▸ hfirst) (hu.isKeyword _ ▸ hsecond)⟩
  | andNot hfirst hsecond =>
    obtain ⟨t', u', vs', rfl, ht, hu, _, _, hvs⟩ := htracks.uncons₂ hle
    exact ⟨vs', hvs, .andNot (ht.isKeyword _ ▸ hfirst) (hu.isKeyword _ ▸ hsecond)⟩

theorem ValueList.TailReads.rest_lt {ts us : List Token} {items : List Value}
    {connectives : List Connective} (h : TailReads ts items connectives us) :
    us.length < ts.length := by
  induction h with
  | last hitem _ => exact Nat.lt_of_succ_lt (Value.reads_rule.mpr hitem).rest_lt
  | cons hitem hc _ ih =>
    have := (Value.reads_rule.mpr hitem).rest_lt
    have := (Connective.reads_rule.mpr hc).rest_lt
    omega

theorem ValueList.local_tailReads {us us' ts ts' vs : List Token} {items : List Value}
    {connectives : List Connective} (h : TailReads ts items connectives vs)
    (htracks : Tracks us us' ts ts') (hle : us.length ≤ vs.length) :
    ∃ vs', Tracks us us' vs vs' ∧ TailReads ts' items connectives vs' := by
  induction h generalizing ts' with
  | last hitem hclosed =>
    have hlt := Nat.lt_succ_of_le hle
    obtain ⟨row, hrow, hitem'⟩ := Value.local_reads hitem htracks (Nat.le_of_lt hlt)
      fun heq => absurd heq (Nat.ne_of_lt hlt)
    obtain ⟨t', vs', rfl, hlike, _, hvs⟩ := hrow.uncons hle
    exact ⟨vs', hvs, .last hitem' (hlike.isPunct _ ▸ hclosed)⟩
  | @cons ts xs ws vs v c items connectives hitem hc htail ih =>
    have hconnective := (Connective.reads_rule.mpr hc).rest_lt
    have hlt := htail.rest_lt
    obtain ⟨xs', hxs, hitem'⟩ := Value.local_reads hitem htracks (by omega) fun heq => by omega
    obtain ⟨ws', hws, hc'⟩ := Connective.local_reads hc hxs (by omega) fun heq => by omega
    obtain ⟨vs', hvs, htail'⟩ := ih hws hle
    exact ⟨vs', hvs, .cons hitem' hc' htail'⟩

theorem ValueList.local_reads : Local (fun _ => true) ValueList.Reads := by
  intro us us' ts ts' vs l h htracks hle _
  cases h with
  | empty hopened hclosed =>
    obtain ⟨t', u', vs', rfl, ht, hu, _, _, hvs⟩ := htracks.uncons₂ hle
    exact ⟨vs', hvs, .empty (ht.isPunct _ ▸ hopened) (hu.isPunct _ ▸ hclosed)⟩
  | items hopened htail =>
    have := htail.rest_lt
    obtain ⟨t', row, rfl, ht, _, hrow⟩ := htracks.uncons (by omega)
    obtain ⟨vs', hvs, htail'⟩ := local_tailReads htail hrow hle
    exact ⟨vs', hvs, .items (ht.isPunct _ ▸ hopened) htail'⟩

theorem FilterValue.local_reads : Local Word.endsBefore FilterValue.Reads := by
  intro us us' ts ts' vs v h htracks hle hend
  cases h with
  | single hv =>
    obtain ⟨vs', hvs, hv'⟩ := Value.local_reads hv htracks hle hend
    exact ⟨vs', hvs, .single hv'⟩
  | list hl =>
    obtain ⟨vs', hvs, hl'⟩ := ValueList.local_reads hl htracks hle fun _ => rfl
    exact ⟨vs', hvs, .list hl'⟩

theorem Condition.local_positiveReads {negative : Bool} :
    Local Word.endsBefore (PositiveReads negative) := by
  intro us us' ts ts' vs c h htracks hle hend
  obtain ⟨hstarts, hkey, hrelation, hvalue⟩ := h
  have hlt := (FilterValue.reads_rule.mpr hvalue).rest_lt
  have hlt' := (Relation.reads_rule.mpr hrelation).rest_lt
  have hlt'' := hkey.rest_lt
  have hlike := htracks.like_peek (by omega)
  obtain ⟨w', row, hrow, hkey', hw⟩ := Word.reads_of_tracks hkey htracks (by omega) fun heq => by omega
  obtain ⟨row, hrow, hrelation'⟩ := Relation.local_reads hrelation hrow (by omega) fun heq => by omega
  obtain ⟨vs', hvs, hvalue'⟩ := FilterValue.local_reads hvalue hrow hle hend
  exact ⟨vs', hvs, hw.text ▸ .mk (startsKey_of_like hlike ▸ hstarts) hkey' hrelation' hvalue'⟩

theorem Condition.local_reads : Local Word.endsBefore Condition.Reads := by
  intro us us' ts ts' vs c h htracks hle hend
  cases h with
  | positive hc =>
    obtain ⟨vs', hvs, hc'⟩ := local_positiveReads hc htracks hle hend
    exact ⟨vs', hvs, .positive hc'⟩
  | negative hsign hc =>
    have := (Condition.reads_positiveRule.mpr hc).rest_lt
    obtain ⟨t', row, rfl, ht, _, hrow⟩ := htracks.uncons (by omega)
    obtain ⟨vs', hvs, hc'⟩ := local_positiveReads hc hrow hle hend
    exact ⟨vs', hvs, .negative (ht.isPunct _ ▸ hsign) hc'⟩

theorem Param.endsBefore_of_like {t t' : Token} (h : Token.Like t t') :
    endsBefore t = endsBefore t' := by
  simp [endsBefore, h.isEnd, h.isPunct]

theorem Param.word_endsBefore {t : Token} (h : endsBefore t) : Word.endsBefore t := by
  simp only [endsBefore, Bool.or_eq_true] at h
  simp only [Word.endsBefore, Bool.not_eq_true', Bool.eq_false_iff]
  intro hgo
  obtain (h | h) | h := h
  · have := Word.isPlain_of_canContinue hgo
    simp_all [Token.isEnd, TokenKind.isPlain]
  · simp [Word.isPunct_of_canContinue hgo (p := '\x7d') (by decide)] at h
  · simp [Word.isPunct_of_canContinue hgo (p := ')') (by decide)] at h

theorem Param.SequenceReads.rest_le {ts us : List Token} {ps : List Param}
    (h : SequenceReads ts ps us) : us.length ≤ ts.length := by
  induction h with
  | nil _ => exact Nat.le_refl _
  | group _ _ _ _ ih ih' => simp only [List.length_cons] at *; omega
  | connective hc _ ih => exact Nat.le_trans ih (Nat.le_of_lt (Connective.reads_rule.mpr hc).rest_lt)
  | star _ _ ih => exact Nat.le_succ_of_le ih
  | condition hc _ ih => exact Nat.le_trans ih (Nat.le_of_lt (Condition.reads_rule.mpr hc).rest_lt)

theorem Param.local_sequenceReads : Local endsBefore SequenceReads := by
  intro us us' ts ts' vs ps h htracks hle hend
  induction h generalizing ts' with
  | nil hends =>
    exact ⟨ts', htracks, .nil (htracks.peek_of_ends endsBefore_of_like (fun _ => hends) hend)⟩
  | group hopened hin hclosed hmore ih ih' =>
    have hlt := hmore.rest_le
    have hlt' := hin.rest_le
    simp only [List.length_cons] at hlt'
    obtain ⟨t', row, rfl, ht, _, hrow⟩ := htracks.uncons (by omega)
    obtain ⟨row, hrow, hin'⟩ := ih hrow (by simp only [List.length_cons]; omega)
      fun heq => by simp only [List.length_cons] at heq; omega
    obtain ⟨u', row, rfl, hu, _, hrow⟩ := hrow.uncons (by omega)
    obtain ⟨vs', hvs, hmore'⟩ := ih' hrow hle hend
    exact ⟨vs', hvs, .group (ht.isPunct _ ▸ hopened) hin' (hu.isPunct _ ▸ hclosed) hmore'⟩
  | @connective ts ws vs c ps hc hmore ih =>
    have hends : us.length = ws.length → Word.endsBefore (peek us') := fun heq => by
      have := hmore.rest_le
      exact word_endsBefore (hend (by omega))
    obtain ⟨row, hrow, hc'⟩ := Connective.local_reads hc htracks (Nat.le_trans hle hmore.rest_le)
      fun heq => by simp [Word.not_isKeyword_of_endsBefore (hends heq)]
    obtain ⟨vs', hvs, hmore'⟩ := ih hrow hle hend
    exact ⟨vs', hvs, .connective hc' hmore'⟩
  | star hstar hmore ih =>
    obtain ⟨t', row, rfl, ht, _, hrow⟩ := htracks.uncons (Nat.le_trans hle hmore.rest_le)
    obtain ⟨vs', hvs, hmore'⟩ := ih hrow hle hend
    exact ⟨vs', hvs, .star (ht.isPunct _ ▸ hstar) hmore'⟩
  | @condition ts ws vs c ps hc hmore ih =>
    have hends : us.length = ws.length → Word.endsBefore (peek us') := fun heq => by
      have := hmore.rest_le
      exact word_endsBefore (hend (by omega))
    obtain ⟨row, hrow, hc'⟩ := Condition.local_reads hc htracks (Nat.le_trans hle hmore.rest_le) hends
    obtain ⟨vs', hvs, hmore'⟩ := ih hrow hle hend
    exact ⟨vs', hvs, .condition hc' hmore'⟩

-- ---------------------------------------------------------------------------
-- Queries
-- ---------------------------------------------------------------------------

theorem Grouping.local_entryRule : Local (fun _ => false) (Rule.Reads entryRule) := by
  intro us us' ts ts' vs e h htracks hle hend
  have hlt : us.length < vs.length := Nat.lt_of_le_of_ne hle fun heq => by simpa using hend heq
  cases reads_entryRule.mp h with
  | star hstar halone =>
    obtain ⟨t', vs', rfl, ht, htouch, hvs⟩ := htracks.uncons hle
    have hpeek := hvs.like_peek hlt
    refine ⟨vs', hvs, reads_entryRule.mpr (.star (ht.isPunct _ ▸ hstar) ?_)⟩
    rwa [← htouch hlt, ← hpeek.isPunct, ← hpeek.isPunct]
  | name hw hfirst =>
    obtain ⟨w', vs', hvs, hw', hlike⟩ := Word.reads_of_tracks hw htracks hle fun heq => by
      simpa using hend heq
    exact ⟨vs', hvs, reads_entryRule.mpr
      (hlike.text ▸ .name hw' (hlike.startsWithIdentifier.trans hfirst))⟩

theorem Grouping.local_entries : Local (fun _ => true) (Rule.ItemsRead '\x7d' entryRule) :=
  @Rule.local_itemsRead _ (fun _ => false) _ _ local_entryRule

theorem Grouping.local_reads : Local (fun _ => true) Grouping.Reads := by
  intro us us' ts ts' vs g h htracks hle _
  obtain ⟨hword, hopened, hfirst, hmore⟩ := h
  have := hmore.rest_lt
  have := (Grouping.reads_entryRule.mpr hfirst).rest_lt
  obtain ⟨t', u', row, rfl, ht, hu, _, _, hrow⟩ := htracks.uncons₂ (by omega)
  obtain ⟨row, hrow, hfirst'⟩ := local_entryRule (Grouping.reads_entryRule.mpr hfirst) hrow
    (by omega) fun heq => by omega
  obtain ⟨vs', hvs, hmore'⟩ := local_entries hmore hrow hle fun _ => rfl
  exact ⟨vs', hvs, .mk (ht.isKeyword _ ▸ hword) (hu.isPunct _ ▸ hopened)
    (Grouping.reads_entryRule.mp hfirst') hmore'⟩

theorem FunctionCall.ArgumentsRead.rest_lt {ts us : List Token} {vs : List Value}
    (h : ArgumentsRead ts vs us) : us.length < ts.length :=
  (reads_argumentsRule.mpr h).rest_lt

theorem FunctionCall.local_argumentsRead : Local (fun _ => true) ArgumentsRead := by
  intro us us' ts ts' vs values h htracks hle _
  cases h with
  | none hopened hclosed =>
    obtain ⟨t', u', vs', rfl, ht, hu, _, _, hvs⟩ := htracks.uncons₂ hle
    exact ⟨vs', hvs, .none (ht.isPunct _ ▸ hopened) (hu.isPunct _ ▸ hclosed)⟩
  | some hopened hfirst hmore =>
    have := hmore.rest_lt
    have := hfirst.rest_lt
    obtain ⟨t', row, rfl, ht, _, hrow⟩ := htracks.uncons (by omega)
    obtain ⟨row, hrow, hfirst'⟩ := Value.local_argumentReads hfirst hrow (by omega)
      fun heq => by omega
    obtain ⟨vs', hvs, hmore'⟩ := Value.local_arguments hmore hrow hle fun _ => rfl
    exact ⟨vs', hvs, .some (ht.isPunct _ ▸ hopened) hfirst' hmore'⟩

theorem FunctionCall.local_reads : Local (fun _ => true) FunctionCall.Reads := by
  intro us us' ts ts' vs f h htracks hle hend
  obtain ⟨hname, hargs⟩ := h
  have := hargs.rest_lt
  obtain ⟨t', row, rfl, ht, _, hrow⟩ := htracks.uncons (by omega)
  obtain ⟨vs', hvs, hargs'⟩ := local_argumentsRead hargs hrow hle hend
  exact ⟨vs', hvs, ht.2 ▸ .mk (ht.isIdentifier ▸ hname) hargs'⟩

namespace Aggregator

theorem endsCondition_of_like {t t' : Token} (h : Token.Like t t') :
    endsCondition t = endsCondition t' := by
  simp [endsCondition, h.isEnd, h.isPunct]

theorem depthAfter_of_like {t t' : Token} (h : Token.Like t t') (depth : Nat) :
    depthAfter depth t = depthAfter depth t' := by
  simp [depthAfter, h.isPunct]

theorem ConditionReads.rest_lt {depth : Nat} {ts cs us : List Token}
    (h : ConditionReads depth ts cs us) : us.length < ts.length :=
  (reads_conditionTokens.mpr h).rest_lt

theorem source_of_like {t t' : Token} (h : Token.Like t t') : t.source = t'.source := by
  simp [Token.source, h.1, h.2]

/-- The tokens of a condition are those before the parenthesis that closes it. -/
theorem ConditionReads.eq_append {depth : Nat} {ts cs us : List Token}
    (h : ConditionReads depth ts cs us) : ∃ t, ts = cs ++ t :: us ∧ t.isPunct ')' := by
  induction h with
  | close hclosed => exact ⟨_, rfl, hclosed⟩
  | cons _ _ _ ih =>
    obtain ⟨t, rfl, ht⟩ := ih
    exact ⟨t, rfl, ht⟩

theorem conditionText_of_tracks {us us' cs cs' vs vs' : List Token}
    (h : Tracks us us' (cs ++ vs) (cs' ++ vs')) (hlength : cs.length = cs'.length)
    (hle : us.length ≤ vs.length) : conditionText cs = conditionText cs' := by
  have hle : ∀ cs : List Token, us.length ≤ (cs ++ vs).length := fun cs => by
    rw [List.length_append]
    omega
  induction cs generalizing cs' with
  | nil => rw [List.eq_nil_of_length_eq_zero hlength.symm]
  | cons t cs ih =>
    obtain ⟨t', cs', rfl⟩ := List.exists_cons_of_length_eq_add_one hlength.symm
    obtain ⟨_, _, hrow, ht, htouch, hmore⟩ := h.uncons (hle cs)
    obtain ⟨rfl, rfl⟩ := List.cons.inj hrow
    have ih := ih hmore (Nat.succ_inj.mp hlength)
    cases cs with
    | nil =>
      obtain rfl := List.eq_nil_of_length_eq_zero (Nat.succ_inj.mp hlength).symm
      exact source_of_like ht
    | cons u cs =>
      obtain ⟨u', cs', rfl⟩ := List.exists_cons_of_length_eq_add_one (Nat.succ_inj.mp hlength).symm
      have htouch : t.touches u = t'.touches u' := htouch (Nat.lt_succ_of_le (hle cs))
      simp only [conditionText, source_of_like ht, htouch, ih]

theorem ConditionReads.of_tracks {us us' ts ts' cs vs : List Token} {depth : Nat}
    (h : ConditionReads depth ts cs vs) (htracks : Tracks us us' ts ts')
    (hle : us.length ≤ vs.length) : ∃ cs' vs', Tracks us us' vs vs' ∧
      ConditionReads depth ts' cs' vs' ∧ cs.length = cs'.length := by
  induction h generalizing ts' with
  | close hclosed =>
    obtain ⟨t', vs', rfl, ht, _, hvs⟩ := htracks.uncons hle
    exact ⟨[], vs', hvs, .close (ht.isPunct _ ▸ hclosed), rfl⟩
  | @cons depth t ts vs cs hinside hgoes hmore ih =>
    have := hmore.rest_lt
    obtain ⟨t', row, rfl, ht, _, hrow⟩ := htracks.uncons (by omega)
    obtain ⟨cs', vs', hvs, hmore', hlength⟩ := ih hrow hle
    refine ⟨t' :: cs', vs', hvs, .cons (endsCondition_of_like ht ▸ hinside)
      (ht.isPunct _ ▸ hgoes) (depthAfter_of_like ht depth ▸ hmore'), ?_⟩
    simp [hlength]

theorem local_conditionTail : Local (fun _ => true) (Rule.Reads conditionTail) := by
  intro us us' ts ts' vs c h htracks hle _
  obtain ⟨hfilled, cs, hinside, rfl⟩ := reads_conditionTail.mp h
  have hlt := hinside.rest_lt
  have hpeek := htracks.like_peek (by omega)
  obtain ⟨cs', vs', hvs, hinside', hlength⟩ := hinside.of_tracks htracks hle
  obtain ⟨close, hts, _⟩ := hinside.eq_append
  obtain ⟨close', hts', _⟩ := hinside'.eq_append
  have htext := conditionText_of_tracks (hts ▸ hts' ▸ htracks) hlength
    (by simp only [List.length_cons]; omega)
  exact ⟨vs', hvs, reads_conditionTail.mpr ⟨hpeek.isPunct _ ▸ hfilled, cs', hinside', htext⟩⟩

theorem local_reads : Local (fun _ => true) Reads := by
  intro us us' ts ts' vs a h htracks hle _
  cases h with
  | plain hname hcolon =>
    obtain ⟨t', u', vs', rfl, ht, hu, _, _, hvs⟩ := htracks.uncons₂ hle
    exact ⟨vs', hvs, ht.2 ▸ .plain (ht.isIdentifier ▸ hname) (hu.isPunct _ ▸ hcolon)⟩
  | condition hname hopened hfilled hinside hcolon =>
    have := hinside.rest_lt
    simp only [List.length_cons] at this
    obtain ⟨t', u', row, rfl, ht, hu, _, _, hrow⟩ := htracks.uncons₂ (by omega)
    have htail := reads_conditionTail.mpr ⟨hfilled, _, hinside, rfl⟩
    obtain ⟨row', hrow', htail'⟩ := local_conditionTail htail hrow (Nat.le_succ_of_le hle) fun _ => rfl
    obtain ⟨v', vs', rfl, hv, _, hvs⟩ := hrow'.uncons hle
    obtain ⟨hfilled', cs', hinside', htext⟩ := reads_conditionTail.mp htail'
    refine ⟨vs', hvs, ?_⟩
    rw [ht.2, htext]
    exact .condition (ht.isIdentifier ▸ hname) (hu.isPunct _ ▸ hopened) hfilled' hinside'
      (hv.isPunct _ ▸ hcolon)

end Aggregator

namespace Query

/-- May a query end before the token? No function and no grouping may begin with it. -/
def endsBefore (t : Token) : Bool :=
  !t.isPunct '.' && !t.isKeyword Keyword.groupBy.spelling

theorem endsBefore_of_like {t t' : Token} (h : Token.Like t t') : endsBefore t = endsBefore t' := by
  simp [endsBefore, h.isPunct, h.isKeyword]

theorem endsBefore_of_isPunct {t : Token} {c : Char} (ht : t.isPunct c) (hc : c ≠ '.') :
    endsBefore t := by
  simp [endsBefore, Token.isPunct_of_ne ht hc, Token.isKeyword_of_isPunct _ ht]

end Query

namespace Selection

theorem FunctionsRead.rest_le {ts us : List Token} {fs : List FunctionCall}
    (h : FunctionsRead ts fs us) : us.length ≤ ts.length := by
  induction h with
  | nil => exact Nat.le_refl _
  | cons _ hf _ ih =>
    have := (FunctionCall.reads_rule.mpr hf).rest_lt
    simp only [List.length_cons]
    omega

theorem GroupingReads.rest_le {ts us : List Token} {g : Option Grouping}
    (h : GroupingReads ts g us) : us.length ≤ ts.length := by
  cases h with
  | none => exact Nat.le_refl _
  | some hg => exact Nat.le_of_lt (Grouping.reads_rule.mpr hg).rest_lt

theorem local_functionsRead : Local Query.endsBefore FunctionsRead := by
  intro us us' ts ts' vs fs h htracks hle hend
  induction h generalizing ts' with
  | nil hends =>
    refine ⟨ts', htracks, .nil ?_⟩
    simpa using htracks.peek_of_ends (p := fun t => !t.isPunct '.')
      (fun h => by simp [h.isPunct]) (fun _ => by simp [hends]) fun heq => by
        simpa using (Bool.and_eq_true_iff.mp (hend heq)).1
  | cons hpoint hf hmore ih =>
    have := hmore.rest_le
    have := (FunctionCall.reads_rule.mpr hf).rest_lt
    obtain ⟨t', row, rfl, ht, _, hrow⟩ := htracks.uncons (by omega)
    obtain ⟨row, hrow, hf'⟩ := FunctionCall.local_reads hf hrow (by omega) fun _ => rfl
    obtain ⟨vs', hvs, hmore'⟩ := ih hrow hle hend
    exact ⟨vs', hvs, .cons (ht.isPunct _ ▸ hpoint) hf' hmore'⟩

theorem local_groupingReads : Local Query.endsBefore GroupingReads := by
  intro us us' ts ts' vs g h htracks hle hend
  cases h with
  | none habsent =>
    refine ⟨ts', htracks, .none ?_⟩
    simpa using htracks.peek_of_ends (p := fun t => !t.isKeyword Keyword.groupBy.spelling)
      (fun h => by simp [h.isKeyword]) (fun _ => by simp [habsent]) fun heq => by
        simpa using (Bool.and_eq_true_iff.mp (hend heq)).2
  | some hg =>
    obtain ⟨vs', hvs, hg'⟩ := Grouping.local_reads hg htracks hle fun _ => rfl
    exact ⟨vs', hvs, .some hg'⟩

theorem local_reads : Local Query.endsBefore Reads := by
  rintro us us' ts ts' vs _ @⟨t, u, _, ws, xs, ys, zs, _, a, w, f, g, fs, ha, hw, hfirst, ht, hf,
    hu, hg, hfs⟩ htracks hle hend
  have h₁ := (Aggregator.reads_rule.mpr ha).rest_lt
  have h₂ := hw.rest_lt
  have h₃ := hf.rest_le
  have h₄ := hg.rest_le
  have h₅ := hfs.rest_le
  simp only [List.length_cons] at h₂ h₃
  obtain ⟨row, hrow, ha'⟩ := Aggregator.local_reads ha htracks (by omega) fun _ => rfl
  obtain ⟨w', row, hrow, hw', hlike⟩ := Word.reads_of_tracks hw hrow
    (by simp only [List.length_cons]; omega) fun heq => by simp only [List.length_cons] at heq; omega
  obtain ⟨t', row, rfl, ht', _, hrow⟩ := hrow.uncons (by omega)
  obtain ⟨row, hrow, hf'⟩ := Param.local_sequenceReads hf hrow
    (by simp only [List.length_cons]; omega) fun heq => by simp only [List.length_cons] at heq; omega
  obtain ⟨u', row, rfl, hu', _, hrow⟩ := hrow.uncons (by omega)
  obtain ⟨row, hrow, hg'⟩ := local_groupingReads hg hrow (by omega) fun heq => hend (by omega)
  obtain ⟨vs', hvs, hfs'⟩ := local_functionsRead hfs hrow hle hend
  exact ⟨vs', hvs, hlike.text ▸ .mk ha' hw' (hlike.startsWithIdentifier.trans hfirst)
    (ht'.isPunct _ ▸ ht) hf' (hu'.isPunct _ ▸ hu) hg' hfs'⟩

end Selection

theorem Query.Reads.rest_lt {ts us : List Token} {q : Query} (h : Reads ts q us) :
    us.length < ts.length :=
  (Query.reads_rule.mpr h).rest_lt

theorem Query.local_reads : Local endsBefore Query.Reads := by
  intro us us' ts ts' vs q h htracks hle hend
  induction h generalizing ts' with
  | selection hs =>
    obtain ⟨vs', hvs, hs'⟩ := Selection.local_reads hs htracks hle hend
    exact ⟨vs', hvs, .selection hs'⟩
  | call hname hopened hbody hargs ih =>
    have := hargs.rest_lt
    have := hbody.rest_lt
    obtain ⟨t', u', row, rfl, ht, hu, _, _, hrow⟩ := htracks.uncons₂ (by omega)
    obtain ⟨row, hrow, hbody'⟩ := ih hrow (by omega) fun heq => by omega
    obtain ⟨vs', hvs, hargs'⟩ := Value.local_arguments hargs hrow hle fun _ => rfl
    exact ⟨vs', hvs, ht.2 ▸ .call (ht.isIdentifier ▸ hname) (hu.isPunct _ ▸ hopened) hbody' hargs'⟩

end MetricLang
