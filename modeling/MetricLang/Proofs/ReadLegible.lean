-- SUMMARY: What is read from a text is legible.
import MetricLang.Proofs.FilterText
import MetricLang.Proofs.Lexed

/-!
# Legible by reading

Whatever the rules for values and filters read from the tokens of a text can be read
back from its own text, but for params that fuse: `Param.SequenceReads.legible`.
-/

namespace MetricLang

-- ---------------------------------------------------------------------------
-- Strings
-- ---------------------------------------------------------------------------

theorem Quote.mem_of_readBody? {q : Quote} {cs value rest : List Char} {c : Char}
    (h : q.readBody? cs = some (value, rest)) (hc : c ∈ value) : c ∈ cs := by
  fun_induction Quote.readBody? q cs generalizing value rest with
  | case1 => cases h
  | case2 d cs ih =>
    obtain ⟨⟨v, r⟩, hr, he⟩ := Option.map_eq_some_iff.mp h
    simp only [Prod.mk.injEq] at he
    obtain ⟨rfl, rfl⟩ := he
    split at hc
    · obtain rfl | hc := List.mem_cons.mp hc
      · simp
      · exact List.mem_cons_of_mem _ (List.mem_cons_of_mem _ (ih hr hc))
    · obtain rfl | hc := List.mem_cons.mp hc
      · simp
      · obtain rfl | hc := List.mem_cons.mp hc
        · simp
        · exact List.mem_cons_of_mem _ (List.mem_cons_of_mem _ (ih hr hc))
  | case3 =>
    cases h
    cases hc
  | case4 => cases h
  | case5 d cs hslash hd hstop ih =>
    obtain ⟨⟨v, r⟩, hr, he⟩ := Option.map_eq_some_iff.mp h
    cases he
    obtain rfl | hc := List.mem_cons.mp hc
    · exact List.mem_cons_self
    · exact List.mem_cons_of_mem _ (ih hr hc)

/-- A string that was read is a line. -/
theorem Lexed.isLine_of_string {t : Token} {us : List Token} {q : Quote} (h : Lexed (t :: us))
    (ht : t.kind = .string q) : IsLine t.text := by
  obtain ⟨_, kind, text, taken, rest, rfl, hfit, _, hline⟩ := h.exists_text (by simp [Token.isEnd, ht])
  cases ht
  obtain hread | ⟨_, hread | ⟨_, hread | ⟨_, hread⟩⟩⟩ := Lexeme.read?_eq_some_iff.mp hfit.2
  · obtain ⟨q', _, hread⟩ := Lexeme.string?_eq_some hread
    rw [IsLine, List.all_eq_true]
    intro c hc
    cases hcs : taken ++ rest with
    | nil => simp [hcs, Quote.read?] at hread
    | cons d ds =>
      rw [hcs] at hread hline
      simp only [Quote.read?] at hread
      split at hread
      · simpa using hline c (List.mem_cons_of_mem d (Quote.mem_of_readBody? hread hc))
      · cases hread
  · have hkind := (Lexeme.number?_eq_some hread).2
    dsimp only at hkind
    split at hkind <;> cases hkind
  · cases (Lexeme.identifier?_eq_some hread).2
  · obtain ⟨_, _, _, hkind, _⟩ := Lexeme.punct?_eq_some hread
    cases hkind

-- ---------------------------------------------------------------------------
-- Values
-- ---------------------------------------------------------------------------

theorem Word.Like.endsInComment {w v : Word} (h : Like w v) : w.endsInComment = v.endsInComment := by
  have htexts : w.tokens.map (·.text) = v.tokens.map (·.text) := h.texts
  have hlast : ∀ u : Word, (u.tokens.getLast (List.cons_ne_nil _ _)).text =
      (u.tokens.map (·.text)).getLast (by simp [tokens]) := fun u => (List.getLast_map _).symm
  simp only [Word.endsInComment, hlast, htexts]

theorem Word.Reads.lexed {ts us : List Token} {w : Word} (h : Lexed ts)
    (hw : rule.Reads ts w us) : Lexed us := by
  obtain ⟨rfl, _⟩ := reads_rule.mp hw
  exact h.suffix (List.suffix_append _ us)

theorem Keyword.not_endsInComment (k : Keyword) : ¬ EndsInComment k.spelling :=
  k.isName.not_endsInComment k.sameLetters_rem

namespace Value

/-- What a word stands for, and what it is told from. -/
theorem ofWord_cases (w : Word) : (∃ b, ofWord w = .boolean b) ∨
    (∃ d : Double, ofWord w = .number d ∧ d.isFinite) ∨
    (ofWord w = .wildcard w.text ∧ '*' ∈ w.text.toList) ∨
    (ofWord w = .identifier w.text ∧ '*' ∉ w.text.toList ∧
      (Keyword.ofText? w.text).bind Keyword.boolean? = none ∧
      ¬ (w.isNumber ∧ (Double.read? w.text.toList).isSome)) := by
  unfold ofWord
  split
  · exact .inl ⟨_, rfl⟩
  · next hboolean =>
    split
    · next d hnumber =>
      split at hnumber
      · exact .inr (.inl ⟨d, rfl, Double.isFinite_of_read? hnumber⟩)
      · cases hnumber
    · next hnumber =>
      split
      · next hstar => exact .inr (.inr (.inl ⟨rfl, hstar⟩))
      · next hstar =>
        refine .inr (.inr (.inr ⟨rfl, hstar, hboolean, ?_⟩))
        rintro ⟨hw, hsome⟩
        simp [hw] at hnumber
        simp [hnumber] at hsome

variable {ts us : List Token} {v : Value}

theorem ArgumentReads.lexed (h : Lexed ts) (hv : ArgumentReads ts v us) : Lexed us := by
  cases hv with
  | string _ => exact h.tail
  | word hw => exact Word.Reads.lexed h hw

theorem ArgumentReads.legible (h : Lexed ts) (hv : ArgumentReads ts v us) : v.Legible := by
  cases hv with
  | string ht => exact h.isLine_of_string ht
  | @word _ _ w hw =>
    obtain ⟨w', hspells, hlike⟩ := Word.Reads.spells h hw
    obtain ⟨b, he⟩ | ⟨d, he, hd⟩ | ⟨he, hstar⟩ | ⟨he, hstar, hboolean, hnumber⟩ := ofWord_cases w
    · rw [he]
      trivial
    · rw [he]
      exact hd
    · rw [he]
      exact ⟨w', hspells, hstar⟩
    · rw [he]
      exact ⟨w', hspells, hstar, hboolean, hlike.isNumber ▸ hnumber⟩

/-- What follows a value that ends with the word for comments is neither a name nor the end. -/
theorem ArgumentReads.peek_of_endsInComment (h : Lexed ts) (hv : ArgumentReads ts v us)
    (hend : EndsInComment v.text) : (peek us).isIdentifier = false ∧ (peek us).isEnd = false := by
  obtain ⟨x, hx, hcomment⟩ := hend
  cases hv with
  | string _ => exact absurd hx Quote.not_spells_wrap
  | @word _ _ w hw =>
    obtain ⟨w', hspells, hlike⟩ := Word.Reads.spells h hw
    have hsame : (ofWord w).text = w.text → (peek us).isIdentifier = false ∧ (peek us).isEnd = false := by
      intro htext
      cases (htext ▸ hx).unique hspells
      exact Word.Reads.peek_of_endsInComment h hw (hlike.endsInComment ▸ hcomment)
    obtain ⟨b, he⟩ | ⟨d, he, hd⟩ | ⟨he, _⟩ | ⟨he, _⟩ := ofWord_cases w
    · obtain ⟨k, hk, _⟩ := boolean_text b
      rw [he, hk] at hx
      exact absurd ⟨x, hx, hcomment⟩ k.not_endsInComment
    · rw [he] at hx
      obtain ⟨y, hy, _, hend, _⟩ := Double.exists_word hd
      cases hx.unique hy
      simp [hcomment] at hend
    · exact hsame (by rw [he]; rfl)
    · exact hsame (by rw [he]; rfl)

/-- A value begins with an operator only if its tokens do. -/
theorem ArgumentReads.not_isKeyword (h : Lexed ts) (hv : ArgumentReads ts v us) {k : Keyword}
    (hk : k.isOperator) (hpeek : (peek ts).isKeyword k.spelling = false) :
    ∀ x : Word, x.Spells v.text → x.first.isKeyword k.spelling = false := by
  intro x hx
  cases hv with
  | string _ => exact absurd hx Quote.not_spells_wrap
  | @word _ _ w hw =>
    obtain ⟨w', hspells, hlike⟩ := Word.Reads.spells h hw
    obtain ⟨rfl, _⟩ := Word.reads_rule.mp hw
    have hsame : (ofWord w).text = w.text → x.first.isKeyword k.spelling = false := by
      intro htext
      cases (htext ▸ hx).unique hspells
      exact (hlike.first.isKeyword _).trans hpeek
    obtain ⟨b, he⟩ | ⟨d, he, hd⟩ | ⟨he, _⟩ | ⟨he, _⟩ := ofWord_cases w
    · obtain ⟨l, hl, hb⟩ := boolean_text b
      rw [he, hl] at hx
      obtain ⟨t, _, htext, ht⟩ := l.isName.exists_word
      cases hx.unique ht
      have hne : sameLetters l.spelling k.spelling = false := by
        cases k <;> cases hk <;> cases l <;> first | rfl | cases hb
      simp [Token.isKeyword, htext, hne]
    · rw [he] at hx
      obtain ⟨y, hy, hnumber, _⟩ := Double.exists_word hd
      cases hx.unique hy
      simp only [Word.isNumber, Bool.and_eq_true] at hnumber
      exact Token.isKeyword_of_isNumber _ hnumber.1
    · exact hsame (by rw [he]; rfl)
    · exact hsame (by rw [he]; rfl)

end Value

-- ---------------------------------------------------------------------------
-- Values of filters
-- ---------------------------------------------------------------------------

namespace Connective

/-- No printed connective ends with the word for comments. -/
theorem not_endsInComment {c : Connective} (hc : c ≠ .comma) : ¬ EndsInComment c.spelling := by
  cases c with
  | comma => exact absurd rfl hc
  | and => exact Keyword.and.not_endsInComment
  | or => exact Keyword.or.not_endsInComment
  | isIn => exact Keyword.isIn.not_endsInComment
  | andNot =>
    rintro ⟨w, hw, _⟩
    exact absurd (hw.isPlainChar_of_mem ' ' (by decide)) (by decide)

/-- No printed connective begins with a negation. -/
theorem spelling_not_isNot {c : Connective} (hc : c ≠ .comma) {w : Word}
    (hw : w.Spells c.spelling) : w.first.isKeyword Keyword.not.spelling = false := by
  have hkeyword : ∀ k : Keyword, sameLetters k.spelling Keyword.not.spelling = false →
      w.Spells k.spelling → w.first.isKeyword Keyword.not.spelling = false := by
    intro k hk hw
    obtain ⟨t, _, htext, ht⟩ := k.isName.exists_word
    cases hw.unique ht
    simp [Token.isKeyword, htext, hk]
  cases c with
  | comma => exact absurd rfl hc
  | and => exact hkeyword .and rfl hw
  | or => exact hkeyword .or rfl hw
  | isIn => exact hkeyword .isIn rfl hw
  | andNot => exact absurd (hw.isPlainChar_of_mem ' ' (by decide)) (by decide)

theorem WordReads.ne_comma {ts us : List Token} {c : Connective} (h : WordReads ts c us) :
    c ≠ .comma := by
  cases h <;> nofun

theorem WordReads.lexed {ts us : List Token} {c : Connective} (h : Lexed ts)
    (hc : WordReads ts c us) : Lexed us := by
  cases hc with
  | and _ _ | or _ | isIn _ => exact h.tail
  | andNot _ _ => exact h.tail.tail

theorem Reads.lexed {ts us : List Token} {c : Connective} (h : Lexed ts) (hc : Reads ts c us) :
    Lexed us := by
  cases hc with
  | comma _ => exact h.tail
  | word hc => exact hc.lexed h

/-- A connective that is no comma begins with a name. -/
theorem Reads.isIdentifier_peek {ts us : List Token} {c : Connective} (hc : Reads ts c us)
    (hcomma : c ≠ .comma) : (peek ts).isIdentifier := by
  cases hc with
  | comma _ => exact absurd rfl hcomma
  | word h => exact isIdentifier_of_startsWord h.startsWord

theorem Reads.not_isNot_rest {ts us : List Token} {c : Connective} (hc : Reads ts c us)
    (hand : c = .and) : (peek us).isKeyword Keyword.not.spelling = false := by
  subst hand
  cases hc with
  | word h =>
    cases h with
    | and _ halone => exact halone

end Connective

namespace Value

variable {ts us : List Token} {v : Value}

theorem Reads.lexed (h : Lexed ts) (hv : Reads ts v us) : Lexed us := by
  cases hv with
  | connective hc => exact hc.lexed h
  | argument _ hv => exact hv.lexed h

theorem Reads.legible (h : Lexed ts) (hv : Reads ts v us) : v.LegibleInFilter := by
  cases hv with
  | connective hc => exact hc.ne_comma
  | argument hplain hv =>
    have hlegible := hv.legible h
    have hwords : ∀ w : Word, w.Spells v.text → Connective.startsWord w.first = false := by
      intro w hw
      simp only [Connective.startsWord, Bool.or_eq_false_iff] at hplain ⊢
      exact ⟨⟨hv.not_isKeyword h (k := .and) rfl hplain.1.1 w hw,
        hv.not_isKeyword h (k := .or) rfl hplain.1.2 w hw⟩,
        hv.not_isKeyword h (k := .isIn) rfl hplain.2 w hw⟩
    cases v with
    | connective c => cases hlegible
    | _ => exact ⟨hlegible, hwords⟩

theorem Reads.peek_of_endsInComment (h : Lexed ts) (hv : Reads ts v us)
    (hend : EndsInComment v.text) : (peek us).isIdentifier = false ∧ (peek us).isEnd = false := by
  cases hv with
  | connective hc => exact absurd hend (Connective.not_endsInComment hc.ne_comma)
  | argument _ hv => exact hv.peek_of_endsInComment h hend

/-- A value begins with a negation only if its tokens do. -/
theorem Reads.not_isNot (h : Lexed ts) (hv : Reads ts v us)
    (hpeek : (peek ts).isKeyword Keyword.not.spelling = false) {w : Word} (hw : w.Spells v.text) :
    w.first.isKeyword Keyword.not.spelling = false := by
  cases hv with
  | connective hc => exact Connective.spelling_not_isNot hc.ne_comma hw
  | argument _ hv => exact hv.not_isKeyword h rfl hpeek w hw

end Value

-- ---------------------------------------------------------------------------
-- Values of a condition
-- ---------------------------------------------------------------------------

namespace ValueList

theorem TailReads.lexed {ts us : List Token} {items : List Value} {cs : List Connective}
    (h : Lexed ts) (hitems : TailReads ts items cs us) : Lexed us := by
  induction hitems with
  | last hv _ => exact (hv.lexed h).tail
  | cons hv hc _ ih => exact ih (hc.lexed (hv.lexed h))

theorem Reads.lexed {ts us : List Token} {l : ValueList} (h : Lexed ts) (hl : Reads ts l us) :
    Lexed us := by
  cases hl with
  | empty _ _ => exact h.tail.tail
  | items _ htail => exact htail.lexed h.tail

theorem TailReads.legible {ts us : List Token} {items : List Value} {cs : List Connective}
    (h : Lexed ts) (hitems : TailReads ts items cs us) : (∀ v ∈ items, v.LegibleInFilter) ∧
      (∀ v ∈ items.head?, TailLegible v items.tail cs) ∧
      ∀ v ∈ items.head?, (peek ts).isKeyword Keyword.not.spelling = false →
        ∀ w : Word, w.Spells v.text → w.first.isKeyword Keyword.not.spelling = false := by
  induction hitems with
  | last hv _ =>
    simp only [List.mem_singleton, List.head?_cons, Option.mem_def, Option.some.injEq, forall_eq']
    exact ⟨fun v hv' => hv' ▸ hv.legible h, trivial, fun hpeek _ => hv.not_isNot h hpeek⟩
  | @cons ts vs ws us v c items connectives hv hc htail ih =>
    have hvs := hv.lexed h
    obtain ⟨hitems, htailLegible, hnot⟩ := ih (hc.lexed hvs)
    simp only [List.head?_cons, Option.mem_def, Option.some.injEq, forall_eq', List.tail_cons]
    refine ⟨List.forall_mem_cons.mpr ⟨hv.legible h, hitems⟩, ?_, fun hpeek _ => hv.not_isNot h hpeek⟩
    cases items with
    | nil => trivial
    | cons x items =>
      refine ⟨fun hc' hend => ?_, fun hc' => ?_, htailLegible x rfl⟩
      · have := (hv.peek_of_endsInComment h hend).1
        simp [hc.isIdentifier_peek hc'] at this
      · exact fun w => hnot x rfl (hc.not_isNot_rest hc') w

theorem Reads.legible {ts us : List Token} {l : ValueList} (h : Lexed ts) (hl : Reads ts l us) :
    l.Legible := by
  cases hl with
  | empty _ _ => exact ⟨nofun, nofun⟩
  | items _ htail =>
    obtain ⟨hitems, htailLegible, _⟩ := htail.legible h.tail
    exact ⟨hitems, htailLegible⟩

end ValueList

namespace FilterValue

variable {ts us : List Token} {v : FilterValue}

theorem Reads.lexed (h : Lexed ts) (hv : Reads ts v us) : Lexed us := by
  cases hv with
  | single hv => exact hv.lexed h
  | list hl => exact hl.lexed h

theorem Reads.legible (h : Lexed ts) (hv : Reads ts v us) : v.Legible := by
  cases hv with
  | single hv => exact hv.legible h
  | list hl => exact hl.legible h

theorem Reads.peek_of_endsInComment (h : Lexed ts) (hv : Reads ts v us) (hend : v.EndsInComment) :
    (peek us).isIdentifier = false ∧ (peek us).isEnd = false := by
  cases hv with
  | single hv => exact hv.peek_of_endsInComment h hend
  | list _ => cases hend

end FilterValue

-- ---------------------------------------------------------------------------
-- Conditions
-- ---------------------------------------------------------------------------

theorem Relation.Reads.lexed {ts us : List Token} {r : Relation} (h : Lexed ts)
    (hr : Reads ts r us) : Lexed us := by
  cases hr with
  | equal _ _ | isIn _ => exact h.tail
  | greater _ _ _ | less _ _ _ | regex _ _ | notIn _ _ | andNot _ _ => exact h.tail.tail
  | greaterEqual _ _ _ | lessEqual _ _ _ => exact h.tail.tail.tail

/-- A relation in words begins with a name. -/
theorem Relation.Reads.isIdentifier_peek {ts us : List Token} {r : Relation} (hr : Reads ts r us)
    (hword : r.isWord) : (peek ts).isIdentifier := by
  cases hr with
  | isIn ht | notIn ht _ | andNot ht _ => exact Token.isIdentifier_of_isKeyword ht
  | _ => cases hword

namespace Condition

variable {negative : Bool} {ts us : List Token} {c : Condition}

theorem PositiveReads.lexed (h : Lexed ts) (hc : PositiveReads negative ts c us) : Lexed us := by
  obtain ⟨_, hw, hr, hv⟩ := hc
  exact hv.lexed (hr.lexed (Word.Reads.lexed h hw))

theorem PositiveReads.legible (h : Lexed ts) (hc : PositiveReads negative ts c us) :
    c.Legible := by
  obtain ⟨hstarts, hw, hr, hv⟩ := hc
  have hvs := Word.Reads.lexed h hw
  obtain ⟨w', hspells, hlike⟩ := Word.Reads.spells h hw
  refine ⟨⟨w', hspells, ?_⟩, ?_, hv.legible (hr.lexed hvs)⟩
  · obtain ⟨rfl, _⟩ := Word.reads_rule.mp hw
    exact (startsKey_of_like hlike.first).trans hstarts
  · rintro hword ⟨x, hx, hcomment⟩
    cases hx.unique hspells
    have := (Word.Reads.peek_of_endsInComment h hw (hlike.endsInComment ▸ hcomment)).1
    simp [hr.isIdentifier_peek hword] at this

theorem PositiveReads.peek_of_endsInComment (h : Lexed ts) (hc : PositiveReads negative ts c us)
    (hend : c.value.EndsInComment) : (peek us).isIdentifier = false ∧ (peek us).isEnd = false := by
  obtain ⟨_, hw, hr, hv⟩ := hc
  exact hv.peek_of_endsInComment (hr.lexed (Word.Reads.lexed h hw)) hend

theorem Reads.lexed (h : Lexed ts) (hc : Reads ts c us) : Lexed us := by
  cases hc with
  | positive hc => exact hc.lexed h
  | negative _ hc => exact hc.lexed h.tail

theorem Reads.legible (h : Lexed ts) (hc : Reads ts c us) : c.Legible := by
  cases hc with
  | positive hc => exact hc.legible h
  | negative _ hc => exact hc.legible h.tail

theorem Reads.peek_of_endsInComment (h : Lexed ts) (hc : Reads ts c us)
    (hend : c.value.EndsInComment) : (peek us).isIdentifier = false ∧ (peek us).isEnd = false := by
  cases hc with
  | positive hc => exact hc.peek_of_endsInComment h hend
  | negative _ hc => exact hc.peek_of_endsInComment h.tail hend

end Condition

-- ---------------------------------------------------------------------------
-- Params and filters
-- ---------------------------------------------------------------------------

namespace Param

/-- A blank is printed in front of a param only if it begins with a name. -/
theorem SequenceReads.isIdentifier_peek {ts us : List Token} {ps : List Param}
    (h : SequenceReads ts ps us) (hblank : ps.head?.any beginsBlank) : (peek ts).isIdentifier := by
  cases h with
  | connective hc _ => exact hc.isIdentifier_peek (by simpa [beginsBlank] using hblank)
  | nil _ => cases hblank
  | group _ _ _ _ | star _ _ | condition _ _ => cases hblank

/-- What is read from a text is legible, and no comment hides what follows it. -/
theorem SequenceReads.legible {ts us : List Token} {ps : List Param} (h : Lexed ts)
    (hps : SequenceReads ts ps us) : LegibleIn ps ∧ Lexed us ∧
      ∀ p ∈ ps.getLast?, p.EndsInComment → (peek us).isEnd = false := by
  induction hps with
  | nil _ => exact ⟨trivial, h, nofun⟩
  | @group t u ts vs us ps qs _ _ _ _ ihin ih =>
    obtain ⟨hin, hvs, _⟩ := ihin h.tail
    obtain ⟨hqs, hus, hlast⟩ := ih hvs.tail
    refine ⟨⟨hin, fun _ => nofun, hqs⟩, hus, ?_⟩
    cases qs <;> simp_all [EndsInComment]
  | @connective ts vs us c qs hc _ ih =>
    obtain ⟨hqs, hus, hlast⟩ := ih (hc.lexed h)
    refine ⟨⟨trivial, fun _ => nofun, hqs⟩, hus, ?_⟩
    cases qs <;> simp_all [EndsInComment]
  | @star t ts us qs _ _ ih =>
    obtain ⟨hqs, hus, hlast⟩ := ih h.tail
    refine ⟨⟨trivial, fun _ => nofun, hqs⟩, hus, ?_⟩
    cases qs <;> simp_all [EndsInComment]
  | @condition ts vs us c qs hc hmore ih =>
    obtain ⟨hqs, hus, hlast⟩ := ih (hc.lexed h)
    refine ⟨⟨hc.legible h, fun hblank hend => ?_, hqs⟩, hus, ?_⟩
    · have := (hc.peek_of_endsInComment h hend).1
      simp [hmore.isIdentifier_peek hblank] at this
    · cases qs with
      | nil =>
        cases hmore with
        | nil _ =>
          simp only [List.getLast?_singleton, Option.mem_def, Option.some.injEq, forall_eq']
          exact fun hend => (hc.peek_of_endsInComment h hend).2
      | cons q qs => simpa using hlast

end Param

namespace Filter

variable {ts us : List Token} {f : Filter}

theorem legible_of_reads (h : Lexed ts) (hf : rule.Reads ts f us) : f.Legible :=
  ((reads_rule.mp hf).legible h).1

end Filter

end MetricLang
