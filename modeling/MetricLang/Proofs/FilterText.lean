-- SUMMARY: Printed filters are read back.
import MetricLang.Proofs.FilterReads
import MetricLang.Proofs.ValueText

/-!
# Reading printed filters

As for values, whatever follows a printed relation, list, condition or sequence of
params is a parameter of its theorem. What has to be known of it is only what its
neighbour could run into.
-/

namespace MetricLang

-- ---------------------------------------------------------------------------
-- Connectives and relations
-- ---------------------------------------------------------------------------

namespace Connective

theorem Reads.not_isNot {ts us : List Token} {c : Connective} (h : Reads ts c us) :
    (peek ts).isKeyword Keyword.not.spelling = false := by
  cases h with
  | comma ht => exact Token.isKeyword_of_isPunct _ ht
  | word h => exact h.not_isNot

theorem text_eq {c : Connective} (hc : c ≠ .comma) : c.text = " " ++ c.spelling ++ " " := by
  cases c <;> first | rfl | exact absurd rfl hc

/-- What is printed between two things stops a word. -/
theorem stops_text (c : Connective) (rest : List Char) : Stops (c.text.toList ++ rest) := by
  cases c <;> rfl

/-- Only the comma prints without a blank in front. -/
theorem head_text {c : Connective} {P : Prop} {rest : List Char} (h : P → c = .comma) :
    P → (c.text.toList ++ rest).head?.any (!isBlank ·) := by
  intro hp
  rw [h hp]
  rfl

/-- A printed connective is read back. -/
theorem reads_text {c : Connective} {rest : List Char} {p : Position} {us : List Token}
    (hnot : c = .and → (peek us).isKeyword Keyword.not.spelling = false)
    (hus : tokensAt {} (p.after c.text.toList) rest = .ok us) :
    ∃ ts, tokensAt {} p (c.text.toList ++ rest) = .ok ts ∧ Reads ts c us := by
  by_cases hc : c = .comma
  · subst hc
    exact ⟨_, tokensAt_punct rfl hus, .comma (isPunct_singleton _ _ _)⟩
  · rw [text_eq hc, tokensAt_after_spaced] at hus
    obtain ⟨ts, hts, hread⟩ := wordReads hc rfl hnot hus
    rw [text_eq hc, tokensAt_spaced]
    exact ⟨ts, hts, .word hread⟩

end Connective

namespace Relation

theorem stops_text (r : Relation) (rest : List Char) : Stops (r.text.toList ++ rest) := by
  cases r <;> rfl

/-- Only relations in words print with a blank in front. -/
theorem head_text {r : Relation} {rest : List Char} (h : ¬ r.isWord) :
    (r.text.toList ++ rest).head?.any (!isBlank ·) := by
  cases r <;> first | rfl | exact absurd rfl h

section

variable {t u : Token} {us : List Token} {c : Char}

theorem touched_of_place (ht : u.isPunct c) (hplace : t.stop = u.start.offset) :
    touched t c (u :: us) := by
  simp [touched, ht, Token.touches, hplace, Token.isEnd_of_isPunct ht]

theorem touched_of_isPunct (h : (peek us).isPunct c = false) : touched t c us = false := by
  simp [touched, h]

end

/-- A printed relation is read back in front of what is no sign of a relation. -/
theorem reads_text {r : Relation} {rest : List Char} {p : Position} {us : List Token}
    (hsigns : ∀ c ∈ ['>', '<', '~', '='], (peek us).isPunct c = false)
    (hus : tokensAt {} (p.after r.text.toList) rest = .ok us) :
    ∃ ts, tokensAt {} p (r.text.toList ++ rest) = .ok ts ∧ Reads ts r us := by
  have hequals : ∀ t : Token, touched t '=' us = false :=
    fun t => touched_of_isPunct (hsigns '=' (by simp))
  cases r with
  | equal =>
    refine ⟨_, tokensAt_punct (c := ':') rfl hus, .equal (isPunct_singleton _ _ _) ?_⟩
    intro c hc
    refine touched_of_isPunct (hsigns c ?_)
    simp only [List.mem_cons, List.not_mem_nil, or_false] at hc ⊢
    tauto
  | greater =>
    refine ⟨_, tokensAt_punct (c := ':') rfl (tokensAt_punct (c := '>') rfl hus), ?_⟩
    exact .greater (isPunct_singleton _ _ _) (touched_of_place (isPunct_singleton _ _ _) rfl)
      (hequals _)
  | less =>
    refine ⟨_, tokensAt_punct (c := ':') rfl (tokensAt_punct (c := '<') rfl hus), ?_⟩
    exact .less (isPunct_singleton _ _ _) (touched_of_place (isPunct_singleton _ _ _) rfl)
      (hequals _)
  | greaterEqual =>
    refine ⟨_, tokensAt_punct (c := ':') rfl (tokensAt_punct (c := '>') rfl
      (tokensAt_punct (c := '=') rfl hus)), ?_⟩
    exact .greaterEqual (isPunct_singleton _ _ _) (touched_of_place (isPunct_singleton _ _ _) rfl)
      (touched_of_place (isPunct_singleton _ _ _) rfl)
  | lessEqual =>
    refine ⟨_, tokensAt_punct (c := ':') rfl (tokensAt_punct (c := '<') rfl
      (tokensAt_punct (c := '=') rfl hus)), ?_⟩
    exact .lessEqual (isPunct_singleton _ _ _) (touched_of_place (isPunct_singleton _ _ _) rfl)
      (touched_of_place (isPunct_singleton _ _ _) rfl)
  | regex =>
    refine ⟨_, tokensAt_punct (c := ':') rfl (tokensAt_punct (c := '~') rfl hus), ?_⟩
    exact .regex (isPunct_singleton _ _ _) (touched_of_place (isPunct_singleton _ _ _) rfl)
  | isIn =>
    obtain ⟨t, hts, ht⟩ := Keyword.isIn.tokensAt rfl ((tokensAt_after_spaced _ _ _).symm.trans hus)
    exact ⟨_, (tokensAt_spaced _ _ _).trans hts, .isIn ht⟩
  | notIn =>
    obtain ⟨t, u, hts, ht, hu⟩ :=
      Keyword.not.tokensAt_pair .isIn rfl ((tokensAt_after_spaced _ _ _).symm.trans hus)
    exact ⟨_, (tokensAt_spaced _ _ _).trans hts, .notIn ht hu⟩
  | andNot =>
    obtain ⟨t, u, hts, ht, hu⟩ :=
      Keyword.and.tokensAt_pair .not rfl ((tokensAt_after_spaced _ _ _).symm.trans hus)
    exact ⟨_, (tokensAt_spaced _ _ _).trans hts, .andNot ht hu⟩

end Relation

-- ---------------------------------------------------------------------------
-- Values of a condition
-- ---------------------------------------------------------------------------

namespace ValueList

/-- The items of a printed list are read back, from one item on. -/
theorem tailReads_text {v : Value} {vs : List Value} {cs : List Connective} {rest : List Char}
    {p : Position} {us : List Token} (hitems : ∀ x ∈ v :: vs, x.LegibleInFilter)
    (htail : TailLegible v vs cs)
    (hus : tokensAt {} (((p.after v.text.toList).after (textTail vs cs).toList).after [')']) rest =
      .ok us) :
    ∃ ts, tokensAt {} p (v.text.toList ++ ((textTail vs cs).toList ++ ')' :: rest)) = .ok ts ∧
      TailReads ts ((v :: vs).map Value.reread) (shown vs cs) us ∧
      ((∀ w : Word, w.Spells v.text → w.first.isKeyword Keyword.not.spelling = false) →
        (peek ts).isKeyword Keyword.not.spelling = false) := by
  induction vs generalizing v cs p with
  | nil =>
    obtain ⟨ts, hts, hread, hnot⟩ := (hitems v List.mem_cons_self).reads
      (v.stoppedBy_of_stops rfl) (fun _ => rfl)
      (Token.isKeyword_of_isPunct _ (isPunct_singleton _ _ _)) (tokensAt_punct rfl hus)
    exact ⟨ts, hts, .last hread (isPunct_singleton _ _ _), hnot⟩
  | cons x vs ih =>
    obtain ⟨hv, hvs⟩ := List.forall_mem_cons.mp hitems
    obtain ⟨hrem, hand, htail⟩ := htail
    simp only [textTail, String.toList_append, Position.after_append, List.append_assoc] at hus ⊢
    obtain ⟨xs, hxs, htail, hnot⟩ := ih hvs htail hus
    obtain ⟨ws, hws, hc⟩ := Connective.reads_text (fun hc => hnot (hand hc)) hxs
    obtain ⟨ts, hts, hread, hnot⟩ := hv.reads (v.stoppedBy_of_stops (Connective.stops_text _ _))
      (Connective.head_text fun hend => not_not.mp fun hc => hrem hc hend) hc.not_isNot hws
    exact ⟨ts, hts, .cons hread hc htail, hnot⟩

/-- A printed list is read back, but for connectives that it does not print. -/
theorem Legible.reads_text {l : ValueList} {rest : List Char} {p : Position} {us : List Token}
    (h : l.Legible) (hus : tokensAt {} (p.after l.text.toList) rest = .ok us) :
    ∃ ts, tokensAt {} p (l.text.toList ++ rest) = .ok ts ∧ Reads ts l.reread us := by
  obtain ⟨items, cs⟩ := l
  cases items with
  | nil =>
    have hchars : (text ⟨[], cs⟩).toList = ['('] ++ [')'] := by simp [text]
    rw [hchars, Position.after_append] at hus
    rw [hchars]
    have hclosed := tokensAt_punct (c := ')') rfl hus
    exact ⟨_, tokensAt_punct rfl hclosed, .empty (isPunct_singleton _ _ _)
      (isPunct_singleton _ _ _)⟩
  | cons v vs =>
    simp only [text, String.toList_append, Position.after_append, List.append_assoc] at hus ⊢
    obtain ⟨ts, hts, htail, _⟩ := tailReads_text h.items (h.tail v rfl) hus
    exact ⟨_, tokensAt_punct (c := '(') rfl hts, .items (isPunct_singleton _ _ _) htail⟩

end ValueList

namespace FilterValue

/-- No value of a condition begins with another punctuation than these. -/
theorem Reads.isPunct_peek {ts us : List Token} {v : FilterValue} (h : Reads ts v us) {c : Char}
    (hc : c ∉ ['*', '!', '(']) : (peek ts).isPunct c = false := by
  cases h with
  | single hv => exact hv.isPunct_peek (by rintro rfl; simp at hc) (by rintro rfl; simp at hc)
  | list hl => exact Token.isPunct_of_ne hl.isPunct_peek (by rintro rfl; simp at hc)

/-- A printed value of a condition is read back. -/
theorem Legible.reads_text {v : FilterValue} {rest : List Char} {p : Position} {us : List Token}
    (h : v.Legible) (hends : v.stoppedBy rest)
    (hrem : v.EndsInComment → rest.head?.any (!isBlank ·))
    (hnot : (peek us).isKeyword Keyword.not.spelling = false)
    (hus : tokensAt {} (p.after v.text.toList) rest = .ok us) :
    ∃ ts, tokensAt {} p (v.text.toList ++ rest) = .ok ts ∧ Reads ts v.reread us := by
  cases v with
  | single v =>
    obtain ⟨ts, hts, hread, _⟩ := Value.LegibleInFilter.reads h hends hrem hnot hus
    exact ⟨ts, hts, .single hread⟩
  | list l =>
    obtain ⟨ts, hts, hread⟩ := ValueList.Legible.reads_text h hus
    exact ⟨ts, hts, .list hread⟩

end FilterValue

-- ---------------------------------------------------------------------------
-- Conditions
-- ---------------------------------------------------------------------------

namespace Condition

theorem startsKey_of_like {t u : Token} (h : Token.Like t u) : startsKey t = startsKey u := by
  simp [startsKey, h.isIdentifier, h.isNumber, h.2]

/-- A printed condition is read back. -/
theorem Legible.reads_text {c : Condition} {rest : List Char} {p : Position} {us : List Token}
    (h : c.Legible) (hends : c.value.stoppedBy rest)
    (hrem : c.value.EndsInComment → rest.head?.any (!isBlank ·))
    (hnot : (peek us).isKeyword Keyword.not.spelling = false)
    (hus : tokensAt {} (p.after c.text.toList) rest = .ok us) :
    ∃ ts, tokensAt {} p (c.text.toList ++ rest) = .ok ts ∧ Reads ts c.reread us := by
  have hpositive : ∀ {p : Position}, tokensAt {} (((p.after c.key.toList).after
      c.relation.text.toList).after c.value.text.toList) rest = .ok us →
      ∃ ts, tokensAt {} p (c.key.toList ++ (c.relation.text.toList ++
        (c.value.text.toList ++ rest))) = .ok ts ∧ PositiveReads c.negative ts c.reread us := by
    intro p hus
    obtain ⟨vs, hvs, hv⟩ := h.value.reads_text hends hrem hnot hus
    have hsigns : ∀ s ∈ ['>', '<', '~', '='], s ∉ ['*', '!', '('] :=
      List.all_iff_forall_prop.mp (by decide)
    obtain ⟨ws, hws, hr⟩ := Relation.reads_text (fun s hs => hv.isPunct_peek (hsigns s hs)) hvs
    obtain ⟨w, hw, hstarts⟩ := h.key
    obtain ⟨ts, w', hts, hread, hlike⟩ := hw.reads (Relation.stops_text _ _)
      (fun hend => Relation.head_text fun hword => h.keyEnds hword ⟨w, hw, hend⟩) hws
    refine ⟨ts, hts, ?_⟩
    have hkey : c.key = w'.text := by rw [hlike.text, hw.text_eq]
    rw [reread, hkey]
    refine .mk ?_ hread hr hv
    obtain ⟨rfl, _⟩ := Word.reads_rule.mp hread
    exact (startsKey_of_like hlike.first).trans hstarts
  cases hneg : c.negative with
  | false =>
    simp only [text, hneg, Bool.false_eq_true, if_false, String.empty_append, String.toList_append,
      Position.after_append, List.append_assoc] at hus ⊢
    obtain ⟨ts, hts, hread⟩ := hpositive hus
    exact ⟨ts, hts, .positive (hneg ▸ hread)⟩
  | true =>
    simp only [text, hneg, if_true, String.toList_append, Position.after_append,
      List.append_assoc] at hus ⊢
    obtain ⟨ts, hts, hread⟩ := hpositive hus
    exact ⟨_, tokensAt_punct (c := '!') rfl hts, .negative (isPunct_singleton _ _ _) (hneg ▸ hread)⟩

end Condition

-- ---------------------------------------------------------------------------
-- Params and filters
-- ---------------------------------------------------------------------------

namespace Param

theorem SequenceReads.not_isNot {ts us : List Token} {ps : List Param}
    (h : SequenceReads ts ps us) : (peek ts).isKeyword Keyword.not.spelling = false := by
  cases h with
  | nil hends =>
    simp only [endsBefore, Bool.or_eq_true] at hends
    obtain (hends | hends) | hends := hends
    · exact Token.isKeyword_of_isEnd _ hends
    · exact Token.isKeyword_of_isPunct _ hends
    · exact Token.isKeyword_of_isPunct _ hends
  | group ht _ _ _ => exact Token.isKeyword_of_isPunct _ ht
  | connective hc _ => exact hc.not_isNot
  | star ht _ => exact Token.isKeyword_of_isPunct _ ht
  | condition hc _ =>
    cases hc with
    | positive hc =>
      obtain ⟨hstarts, _⟩ := hc
      exact Condition.isKeyword_of_startsKey hstarts rfl
    | negative ht _ => exact Token.isKeyword_of_isPunct _ ht

theorem stops_text {q : Param} {rest : List Char} (h : q.beginsWord = false) :
    Stops (q.text.toList ++ rest) := by
  cases q with
  | group ps =>
    simp only [text, String.toList_append, List.append_assoc]
    rfl
  | connective c => exact Connective.stops_text c rest
  | condition c =>
    simp only [beginsWord, Bool.not_eq_false'] at h
    simp only [text, Condition.text, h, if_true, String.toList_append, List.append_assoc]
    rfl
  | star => cases h

theorem head_text {q : Param} {rest : List Char} (h : q.beginsName = false) :
    (q.text.toList ++ rest).head?.all (!isIdentifierPart ·) := by
  cases hword : q.beginsWord with
  | false => exact head_of_stops (stops_text hword)
  | true =>
    cases q with
    | condition c =>
      obtain ⟨negative, key, relation, value⟩ := c
      simp only [beginsWord, Bool.not_eq_true'] at hword
      simp only [beginsName, hword, Bool.not_false, Bool.true_and] at h
      simp only [text, Condition.text, hword, Bool.false_eq_true, if_false, String.empty_append,
        String.toList_append, List.append_assoc]
      cases hkey : key.toList with
      | nil => exact head_of_stops (Relation.stops_text relation _)
      | cons d ds => simpa [hkey] using h
    | star => cases h
    | _ => cases hword

/-- What does not fuse with a param ends it. -/
theorem stoppedBy_textList {p : Param} {ps : List Param} {rest : List Char}
    (hfuses : ps.head?.all (!p.fuses ·)) (hstops : Stops rest) :
    p.stoppedBy ((textList ps).toList ++ rest) := by
  have hword : (∀ q, p.fuses q = false → q.beginsWord = false) →
      Stops ((textList ps).toList ++ rest) := by
    intro hfuses'
    cases ps with
    | nil => exact hstops
    | cons q qs =>
      simp only [textList, String.toList_append, List.append_assoc]
      exact stops_text (hfuses' q (by simpa using hfuses))
  cases p with
  | condition c =>
    obtain ⟨_, _, _, value⟩ := c
    cases value with
    | single v =>
      cases v with
      | string s q => rfl
      | connective c =>
        cases ps with
        | nil => exact head_of_stops hstops
        | cons q qs =>
          simp only [textList, String.toList_append, List.append_assoc]
          exact head_text (by simpa [fuses] using hfuses)
      | _ => exact hword fun q hq => hq
    | list l => rfl
  | _ => rfl

/-- Only connectives in words print with a blank in front. -/
theorem head_of_beginsBlank {q : Param} {rest : List Char} (hq : q.Legible)
    (h : q.beginsBlank = false) : (q.text.toList ++ rest).head?.any (!isBlank ·) := by
  cases q with
  | group ps =>
    simp only [text, String.toList_append, List.append_assoc]
    rfl
  | connective c =>
    cases c <;> first | rfl | cases h
  | condition c =>
    obtain ⟨w, hw, _⟩ := Condition.Legible.key hq
    cases hneg : c.negative with
    | true =>
      simp only [text, Condition.text, hneg, if_true, String.toList_append, List.append_assoc]
      rfl
    | false =>
      obtain ⟨d, ds, hkey⟩ := List.exists_cons_of_ne_nil hw.toList_ne_nil
      have hblank : isBlank d = false :=
        not_isBlank_of_isPlainChar (hw.isPlainChar_of_mem d (by simp [hkey]))
      simp [text, Condition.text, hneg, hkey, hblank]
  | star => rfl

mutual

/-- A printed param is read back. -/
theorem reads_text (q : Param) {rest : List Char} {p : Position} {us : List Token}
    (h : q.Legible) (hunfused : q.isUnfused) (hstopped : q.stoppedBy rest)
    (hrem : q.EndsInComment → rest.head?.any (!isBlank ·))
    (hnot : (peek us).isKeyword Keyword.not.spelling = false)
    (hus : tokensAt {} (p.after q.text.toList) rest = .ok us) :
    ∃ ts, tokensAt {} p (q.text.toList ++ rest) = .ok ts ∧
      Reads ts (q.mapConditions Condition.reread) us := by
  cases q with
  | group ps =>
    simp only [text, String.toList_append, Position.after_append, List.append_assoc] at hus ⊢
    have hclosed := tokensAt_punct (c := ')') rfl hus
    have hends : ∀ {t : Token}, t.isPunct ')' → endsBefore (peek (t :: us)) := by
      intro t ht
      simp [endsBefore, ht]
    obtain ⟨ts, hts, hread⟩ := sequenceReads_text ps h hunfused rfl (fun _ _ _ => rfl)
      (hends (isPunct_singleton _ _ _)) hclosed
    exact ⟨_, tokensAt_punct (c := '(') rfl hts,
      .group (isPunct_singleton _ _ _) hread (isPunct_singleton _ _ _)⟩
  | connective c =>
    obtain ⟨ts, hts, hread⟩ := Connective.reads_text (fun _ => hnot) hus
    exact ⟨ts, hts, .connective hread⟩
  | condition c =>
    obtain ⟨ts, hts, hread⟩ := Condition.Legible.reads_text h hstopped hrem hnot hus
    exact ⟨ts, hts, .condition hread⟩
  | star => exact ⟨_, tokensAt_punct (c := '*') rfl hus, .star (isPunct_singleton _ _ _)⟩

/-- A printed sequence of params is read back. -/
theorem sequenceReads_text (ps : List Param) {rest : List Char} {p : Position} {us : List Token}
    (h : LegibleIn ps) (hunfused : areUnfused ps) (hstops : Stops rest)
    (hrem : ∀ q ∈ ps.getLast?, q.EndsInComment → rest.head?.any (!isBlank ·))
    (hends : endsBefore (peek us))
    (hus : tokensAt {} (p.after (textList ps).toList) rest = .ok us) :
    ∃ ts, tokensAt {} p ((textList ps).toList ++ rest) = .ok ts ∧
      SequenceReads ts (mapConditionsIn Condition.reread ps) us := by
  cases ps with
  | nil => exact ⟨us, hus, .nil hends⟩
  | cons q qs =>
    simp only [areUnfused, Bool.and_eq_true] at hunfused
    obtain ⟨⟨hq, hfuses⟩, hqs⟩ := hunfused
    obtain ⟨hqLegible, hblank, hqsLegible⟩ := h
    simp only [textList, String.toList_append, Position.after_append, List.append_assoc] at hus ⊢
    have hmoreRem : ∀ x ∈ qs.getLast?, x.EndsInComment → rest.head?.any (!isBlank ·) := by
      intro x hx
      refine hrem x ?_
      cases qs <;> simp_all
    have hqRem : q.EndsInComment → ((textList qs).toList ++ rest).head?.any (!isBlank ·) := by
      intro hend
      cases qs with
      | nil => exact hrem q rfl hend
      | cons x xs =>
        simp only [textList, String.toList_append, List.append_assoc]
        refine head_of_beginsBlank hqsLegible.1 ?_
        rw [← Bool.not_eq_true]
        exact fun hx => hblank hx hend
    obtain ⟨vs, hvs, hmore⟩ := sequenceReads_text qs hqsLegible hqs hstops hmoreRem hends hus
    obtain ⟨ts, hts, hread⟩ := reads_text q hqLegible hq (stoppedBy_textList hfuses hstops) hqRem
      hmore.not_isNot hvs
    exact ⟨ts, hts, hread.cons hmore⟩

end

end Param

/-- A printed filter is read back in front of what ends a filter. -/
theorem Filter.Legible.reads_text {f : Filter} {rest : List Char} {p : Position} {us : List Token}
    (h : f.Legible) (hunfused : f.isUnfused) (hstops : Stops rest)
    (hrem : f.EndsInComment → rest.head?.any (!isBlank ·)) (hends : Param.endsBefore (peek us))
    (hus : tokensAt {} (p.after f.text.toList) rest = .ok us) :
    ∃ ts, tokensAt {} p (f.text.toList ++ rest) = .ok ts ∧ rule.Reads ts f.reread us := by
  obtain ⟨ts, hts, hread⟩ := Param.sequenceReads_text f.params h hunfused hstops
    (fun q hq hend => hrem ⟨q, hq, hend⟩) hends hus
  exact ⟨ts, hts, reads_rule.mpr hread⟩

end MetricLang
