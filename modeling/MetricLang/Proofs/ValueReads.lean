-- SUMMARY: What the rules for words, connectives and values read.
import MetricLang.Proofs.Reads

/-!
# Reading words and values

A word is a run of tokens that touch, taken as far as it goes. A value is a
connective where one is spelled, else a string or what a word stands for.
-/

namespace MetricLang

-- ---------------------------------------------------------------------------
-- Words
-- ---------------------------------------------------------------------------

namespace Word

/-- Does a word that got to `prev` go on with `t`? -/
def joins (prev t : Token) : Bool := prev.touches t && canContinue t

/-- Does a word go on from `prev` with just the tokens `more`, when `us` follow them? -/
def Runs (prev : Token) : List Token → List Token → Prop
  | [], us => joins prev (peek us) = false
  | t :: more, us => joins prev t = true ∧ Runs t more us

theorem split_eq_iff {prev : Token} {ts more us : List Token} :
    split prev ts = (more, us) ↔ ts = more ++ us ∧ Runs prev more us := by
  induction ts generalizing prev more with
  | nil =>
    cases more with
    | nil =>
      simp only [split, Prod.mk.injEq, true_and, List.nil_append, Runs]
      constructor
      · rintro rfl
        exact ⟨rfl, rfl⟩
      · exact fun h => h.1
    | cons t more => simp [split]
  | cons t ts ih =>
    simp only [split]
    split
    · next hjoins =>
      cases more with
      | nil =>
        simp only [List.nil_append, Prod.mk.injEq, reduceCtorEq, false_and, Runs, false_iff, not_and]
        rintro rfl
        simp [joins, hjoins]
      | cons u more =>
        have := @ih t more
        simp only [Prod.ext_iff] at this
        simp only [Prod.mk.injEq, List.cons.injEq, List.cons_append, Runs]
        constructor
        · rintro ⟨⟨rfl, hm⟩, hu⟩
          obtain ⟨hts, hrun⟩ := this.mp ⟨hm, hu⟩
          exact ⟨⟨rfl, hts⟩, hjoins, hrun⟩
        · rintro ⟨⟨rfl, hts⟩, _, hrun⟩
          obtain ⟨hm, hu⟩ := this.mpr ⟨hts, hrun⟩
          exact ⟨⟨rfl, hm⟩, hu⟩
    · next hjoins =>
      cases more with
      | nil =>
        simp only [Prod.mk.injEq, true_and, List.nil_append, Runs]
        constructor
        · rintro rfl
          simpa [joins] using hjoins
        · exact fun h => h.1
      | cons u more =>
        simp only [Prod.mk.injEq, reduceCtorEq, false_and, List.cons_append, List.cons.injEq, Runs,
          false_iff, not_and]
        rintro ⟨rfl, _⟩ h
        exact absurd h hjoins

theorem reads_rule {ts us : List Token} {w : Word} : rule.Reads ts w us ↔
    ts = w.tokens ++ us ∧ canStart w.first ∧ Runs w.first w.more us ∧
      ¬ (w.first.isPunct '!' ∧ w.more = []) := by
  obtain ⟨first, more⟩ := w
  constructor
  · rintro ⟨h, hts⟩
    cases ts with
    | nil => cases hts
    | cons t ts =>
      simp only [rule] at hts
      split at hts
      · next hstart =>
        split at hts
        · cases hts
        · next hlone =>
          simp only [Except.ok.injEq, Read.mk.injEq, Word.mk.injEq] at hts
          obtain ⟨⟨rfl, hmore⟩, hus⟩ := hts
          obtain ⟨rfl, hrun⟩ := split_eq_iff.mp (Prod.ext hmore hus)
          refine ⟨rfl, hstart, hrun, ?_⟩
          simpa [hmore] using hlone
      · cases hts
  · rintro ⟨rfl, hstart, hrun, hlone⟩
    have hsplit := split_eq_iff.mpr ⟨rfl, hrun⟩
    refine ⟨by simp only [tokens, List.cons_append, List.length_cons, List.length_append]; omega, ?_⟩
    simp only [tokens, List.cons_append, rule, if_pos hstart, hsplit]
    rw [if_neg (by simpa using hlone)]

theorem reads_nameRule {what : Expected} {ts us : List Token} {s : String} :
    (nameRule what).Reads ts s us ↔
      ∃ w, rule.Reads ts w us ∧ w.startsWithIdentifier ∧ s = w.text := by
  constructor
  · rintro ⟨h, hts⟩
    obtain ⟨_, hrule, hts⟩ := bind_eq_ok.mp hts
    obtain ⟨w, vs, _, rfl, hw⟩ := Rule.reads_of_eq_ok hrule
    split at hts
    · next hfirst =>
      cases pure_eq_ok.mp hts
      exact ⟨w, hw, hfirst, rfl⟩
    · cases hts
  · rintro ⟨w, hw, hfirst, rfl⟩
    exact ⟨hw.rest_lt, bind_eq_ok.mpr ⟨_, hw.eq_ok,
      by simp [hfirst, Read.map, pure, Except.pure]⟩⟩

theorem isEnd_of_canStart {t : Token} (h : canStart t) : t.isEnd = false := by
  simp only [canStart, Bool.or_eq_true] at h
  obtain ((h | h) | h) | h := h
  · exact Token.isEnd_of_isIdentifier h
  · exact Token.isEnd_of_isNumber h
  · exact Token.isEnd_of_isPunct h
  · exact Token.isEnd_of_isPunct h

/-- No word begins with another punctuation than the star and the negation sign. -/
theorem isPunct_of_canStart {t : Token} {p : Char} (h : canStart t) (hstar : '*' ≠ p)
    (hnot : '!' ≠ p) : t.isPunct p = false := by
  simp only [canStart, Bool.or_eq_true] at h
  obtain ((h | h) | h) | h := h
  · exact Token.isPunct_of_isIdentifier p h
  · exact Token.isPunct_of_isNumber p h
  · exact Token.isPunct_of_ne h hstar
  · exact Token.isPunct_of_ne h hnot

/-- No word goes on with another punctuation than these. -/
theorem isPunct_of_canContinue {t : Token} {p : Char} (h : canContinue t)
    (hp : p ∉ ['.', '/', '-', '*']) : t.isPunct p = false := by
  simp only [canContinue, Bool.or_eq_true, List.any_eq_true] at h
  obtain (h | h) | ⟨c, hc, h⟩ := h
  · exact Token.isPunct_of_isIdentifier p h
  · exact Token.isPunct_of_isNumber p h
  · exact Token.isPunct_of_ne h (by rintro rfl; exact hp hc)

end Word

-- ---------------------------------------------------------------------------
-- Connectives
-- ---------------------------------------------------------------------------

/-- A keyword is found by its spelling. -/
theorem Keyword.ofText?_of_isKeyword {t : Token} {k : Keyword} (h : t.isKeyword k.spelling) :
    ofText? t.text = some k := by
  have hsame : ∀ l : Keyword, sameLetters l.spelling t.text = sameLetters l.spelling k.spelling := by
    intro l
    simp only [Token.isKeyword, Bool.and_eq_true, sameLetters, decide_eq_true_eq] at h
    simp [sameLetters, h.2]
  simp only [ofText?, hsame]
  cases k <;> decide

namespace Connective

/-- The tokens of a connective that is spelled in words. -/
inductive WordReads : List Token → Connective → List Token → Prop
  | and {t : Token} {us : List Token} (first : t.isKeyword Keyword.and.spelling)
      (alone : (peek us).isKeyword Keyword.not.spelling = false) : WordReads (t :: us) .and us
  | andNot {t u : Token} {us : List Token} (first : t.isKeyword Keyword.and.spelling)
      (second : u.isKeyword Keyword.not.spelling) : WordReads (t :: u :: us) .andNot us
  | or {t : Token} {us : List Token} (first : t.isKeyword Keyword.or.spelling) :
      WordReads (t :: us) .or us
  | isIn {t : Token} {us : List Token} (first : t.isKeyword Keyword.isIn.spelling) :
      WordReads (t :: us) .isIn us

/-- May a connective begin with the token, if it is spelled in words? -/
def startsWord (t : Token) : Bool :=
  t.isKeyword Keyword.and.spelling || t.isKeyword Keyword.or.spelling
    || t.isKeyword Keyword.isIn.spelling

theorem takes_keywordProbe {ts us : List Token} {c : Connective} :
    keywordProbe.Takes ts c us ↔ WordReads ts c us := by
  constructor
  · rintro ⟨h, hts⟩
    simp only [keywordProbe] at hts
    split at hts
    · next hand =>
      obtain ⟨t, vs, _, rfl, htakes⟩ := Probe.takes_of_eq_some hand
      obtain ⟨rfl, ht⟩ := Probe.takes_keyword.mp htakes
      split at hts
      · next hnot =>
        obtain ⟨u, ws, _, rfl, htakes⟩ := Read.takes_of_next? hnot
        obtain ⟨rfl, hu⟩ := Probe.takes_keyword.mp htakes
        cases hts
        exact .andNot ht hu
      · next hnot =>
        cases hts
        exact .and ht (Probe.keyword_eq_none.mp (Read.next?_eq_none.mp hnot))
    · split at hts
      · next hor =>
        obtain ⟨t, vs, _, rfl, htakes⟩ := Probe.takes_of_eq_some hor
        obtain ⟨rfl, ht⟩ := Probe.takes_keyword.mp htakes
        cases hts
        exact .or ht
      · obtain ⟨_, hin, he⟩ := Option.map_eq_some_iff.mp hts
        obtain ⟨t, vs, _, rfl, htakes⟩ := Probe.takes_of_eq_some hin
        obtain ⟨rfl, ht⟩ := Probe.takes_keyword.mp htakes
        cases he
        exact .isIn ht
  · intro h
    cases h with
    | and ht hnot =>
      refine ⟨Nat.lt_succ_self _, ?_⟩
      simp only [keywordProbe, (Probe.takes_keyword.mpr ⟨rfl, ht⟩).eq_some]
      rw [Read.next?_eq_none.mpr (Probe.keyword_eq_none.mpr hnot)]
      rfl
    | andNot ht hu =>
      refine ⟨Nat.lt_succ_of_lt (Nat.lt_succ_self _), ?_⟩
      simp only [keywordProbe, (Probe.takes_keyword.mpr ⟨rfl, ht⟩).eq_some]
      rw [Read.next?_of_takes (Probe.takes_keyword.mpr ⟨rfl, hu⟩)]
      rfl
    | @or t us ht =>
      have hand : (peek (t :: us)).isKeyword Keyword.and.spelling = false :=
        Token.isKeyword_of_ne (k := .or) ht (by decide)
      refine ⟨Nat.lt_succ_self _, ?_⟩
      simp only [keywordProbe, (Probe.takes_keyword.mpr ⟨rfl, ht⟩).eq_some,
        Probe.keyword_eq_none.mpr hand]
      rfl
    | @isIn t us ht =>
      have hand : (peek (t :: us)).isKeyword Keyword.and.spelling = false :=
        Token.isKeyword_of_ne (k := .isIn) ht (by decide)
      have hor : (peek (t :: us)).isKeyword Keyword.or.spelling = false :=
        Token.isKeyword_of_ne (k := .isIn) ht (by decide)
      refine ⟨Nat.lt_succ_self _, ?_⟩
      simp only [keywordProbe, (Probe.takes_keyword.mpr ⟨rfl, ht⟩).eq_some,
        Probe.keyword_eq_none.mpr hand, Probe.keyword_eq_none.mpr hor]
      rfl

theorem keywordProbe_eq_none {ts : List Token} :
    keywordProbe ts = none ↔ startsWord (peek ts) = false := by
  simp only [startsWord, Bool.or_eq_false_iff, ← Probe.keyword_eq_none]
  unfold keywordProbe
  split
  · split <;> simp [*]
  · split <;> simp [*]

/-- The tokens of a connective. -/
inductive Reads : List Token → Connective → List Token → Prop
  | comma {t : Token} {us : List Token} (isComma : t.isPunct ',') : Reads (t :: us) .comma us
  | word {ts us : List Token} {c : Connective} (spelled : WordReads ts c us) : Reads ts c us

theorem WordReads.startsWord {ts us : List Token} {c : Connective} (h : WordReads ts c us) :
    startsWord (peek ts) := by
  cases h <;> simp_all [Connective.startsWord]

theorem isIdentifier_of_startsWord {t : Token} (h : startsWord t) : t.isIdentifier := by
  simp only [startsWord, Bool.or_eq_true] at h
  obtain (h | h) | h := h <;> exact Token.isIdentifier_of_isKeyword h

theorem WordReads.isPunct_peek {ts us : List Token} {c : Connective} {p : Char}
    (h : WordReads ts c us) : (peek ts).isPunct p = false :=
  Token.isPunct_of_isIdentifier p (isIdentifier_of_startsWord h.startsWord)

theorem reads_rule {ts us : List Token} {c : Connective} :
    rule.Reads ts c us ↔ Reads ts c us := by
  constructor
  · rintro ⟨h, hts⟩
    simp only [rule] at hts
    split at hts
    · next hcomma =>
      obtain ⟨t, vs, _, rfl, htakes⟩ := Probe.takes_of_eq_some hcomma
      obtain ⟨rfl, ht⟩ := Probe.takes_punct.mp htakes
      cases hts
      exact .comma ht
    · split at hts
      · next hword =>
        cases hts
        exact .word (takes_keywordProbe.mp ⟨h, hword⟩)
      · cases hts
  · intro h
    cases h with
    | @comma t us ht =>
      have hcomma : (Probe.punct ',').Takes (t :: us) t us := Probe.takes_punct.mpr ⟨rfl, ht⟩
      exact ⟨hcomma.1, by simp [rule, hcomma.eq_some, Read.as]⟩
    | word h =>
      have hword := takes_keywordProbe.mpr h
      refine ⟨hword.1, ?_⟩
      simp only [rule, Probe.punct_eq_none.mpr h.isPunct_peek, hword.eq_some]

/-- No connective begins with another punctuation than the comma. -/
theorem Reads.isPunct_peek {ts us : List Token} {c : Connective} (h : Reads ts c us) {p : Char}
    (hp : ',' ≠ p) : (peek ts).isPunct p = false := by
  cases h with
  | comma ht => exact Token.isPunct_of_ne ht hp
  | word h => exact h.isPunct_peek

theorem Reads.isEnd_peek {ts us : List Token} {c : Connective} (h : Reads ts c us) :
    (peek ts).isEnd = false := by
  cases h with
  | comma ht => exact Token.isEnd_of_isPunct ht
  | word h => exact Token.isEnd_of_isIdentifier (isIdentifier_of_startsWord h.startsWord)

end Connective

-- ---------------------------------------------------------------------------
-- Values
-- ---------------------------------------------------------------------------

namespace Value

/-- The tokens of a value outside filters. -/
inductive ArgumentReads : List Token → Value → List Token → Prop
  | string {q : Quote} {t : Token} {us : List Token} (isString : t.kind = .string q) :
      ArgumentReads (t :: us) (.string t.text q) us
  | word {ts us : List Token} {w : Word} (spelled : Word.rule.Reads ts w us) :
      ArgumentReads ts (ofWord w) us

theorem reads_argument {ts us : List Token} {v : Value} :
    argument.Reads ts v us ↔ ArgumentReads ts v us := by
  constructor
  · rintro ⟨h, hts⟩
    unfold argument at hts
    split at hts
    · cases hts
      exact .string rfl
    · obtain ⟨_, hrule, hts⟩ := bind_eq_ok.mp hts
      obtain ⟨w, vs, _, rfl, hw⟩ := Rule.reads_of_eq_ok hrule
      cases pure_eq_ok.mp hts
      exact .word hw
  · intro h
    cases h with
    | @string q t _ ht =>
      obtain ⟨kind, text, start, stop⟩ := t
      cases ht
      exact ⟨Nat.lt_succ_self _, rfl⟩
    | @word _ _ w hw =>
      refine ⟨hw.rest_lt, ?_⟩
      obtain ⟨hts, hfirst, _⟩ := Word.reads_rule.mp hw
      unfold argument
      split
      · simp only [Word.tokens, List.cons_append, List.cons.injEq] at hts
        simp [← hts.1, Word.canStart, Token.isIdentifier, Token.isNumber, Token.isPunct] at hfirst
      · exact bind_eq_ok.mpr ⟨_, hw.eq_ok, rfl⟩

theorem ArgumentReads.isEnd_peek {ts us : List Token} {v : Value} (h : ArgumentReads ts v us) :
    (peek ts).isEnd = false := by
  cases h with
  | string ht => simp [Token.isEnd, ht]
  | word hw =>
    obtain ⟨rfl, hstart, _⟩ := Word.reads_rule.mp hw
    exact Word.isEnd_of_canStart hstart

theorem ArgumentReads.isPunct_peek {ts us : List Token} {v : Value} (h : ArgumentReads ts v us)
    {p : Char} (hstar : '*' ≠ p) (hnot : '!' ≠ p) : (peek ts).isPunct p = false := by
  cases h with
  | string ht => simp [Token.isPunct, ht]
  | word hw =>
    obtain ⟨rfl, hstart, _⟩ := Word.reads_rule.mp hw
    exact Word.isPunct_of_canStart hstart hstar hnot

/-- The tokens of a value of a filter. -/
inductive Reads : List Token → Value → List Token → Prop
  | connective {ts us : List Token} {c : Connective} (spelled : Connective.WordReads ts c us) :
      Reads ts (.connective c) us
  | argument {ts us : List Token} {v : Value}
      (plain : Connective.startsWord (peek ts) = false) (read : ArgumentReads ts v us) :
      Reads ts v us

theorem reads_rule {ts us : List Token} {v : Value} : rule.Reads ts v us ↔ Reads ts v us := by
  constructor
  · rintro ⟨h, hts⟩
    unfold rule at hts
    split at hts
    · next hprobe =>
      obtain ⟨c, vs, _, rfl, hc⟩ := Probe.takes_of_eq_some hprobe
      cases hts
      exact .connective (Connective.takes_keywordProbe.mp hc)
    · next hprobe =>
      exact .argument (Connective.keywordProbe_eq_none.mp hprobe) (reads_argument.mp ⟨h, hts⟩)
  · intro h
    cases h with
    | connective hc =>
      have hprobe := Connective.takes_keywordProbe.mpr hc
      exact ⟨hprobe.1, by simp [rule, hprobe.eq_some, Read.map]⟩
    | argument hplain hv =>
      have hread := reads_argument.mpr hv
      refine ⟨hread.rest_lt, ?_⟩
      simp only [rule, Connective.keywordProbe_eq_none.mpr hplain, hread.eq_ok]

theorem Reads.isEnd_peek {ts us : List Token} {v : Value} (h : Reads ts v us) :
    (peek ts).isEnd = false := by
  cases h with
  | connective hc =>
    exact Token.isEnd_of_isIdentifier (Connective.isIdentifier_of_startsWord hc.startsWord)
  | argument _ hv => exact hv.isEnd_peek

theorem Reads.isPunct_peek {ts us : List Token} {v : Value} (h : Reads ts v us) {p : Char}
    (hstar : '*' ≠ p) (hnot : '!' ≠ p) : (peek ts).isPunct p = false := by
  cases h with
  | connective hc => exact hc.isPunct_peek
  | argument _ hv => exact hv.isPunct_peek hstar hnot

end Value

end MetricLang
