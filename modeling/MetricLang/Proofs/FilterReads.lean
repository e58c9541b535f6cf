-- SUMMARY: What the rules for filters read.
import MetricLang.Proofs.ValueReads

/-!
# Reading filters

A sequence of params is read up to the end of the input or a closing bracket, at
the top of a filter and inside a group alike. `Param.SequenceReads` is the one
relation for both.
-/

namespace MetricLang

-- ---------------------------------------------------------------------------
-- Relations
-- ---------------------------------------------------------------------------

namespace Relation

/-- Does the punctuation `c` come next and touch `prev`? -/
def touched (prev : Token) (c : Char) (ts : List Token) : Bool :=
  (peek ts).isPunct c && prev.touches (peek ts)

/-- The tokens of a relation. -/
inductive Reads : List Token → Relation → List Token → Prop
  | equal {t : Token} {us : List Token} (colon : t.isPunct ':')
      (alone : ∀ c ∈ ['>', '<', '~'], touched t c us = false) : Reads (t :: us) .equal us
  | greater {t u : Token} {us : List Token} (colon : t.isPunct ':')
      (sign : touched t '>' (u :: us)) (alone : touched u '=' us = false) :
      Reads (t :: u :: us) .greater us
  | less {t u : Token} {us : List Token} (colon : t.isPunct ':')
      (sign : touched t '<' (u :: us)) (alone : touched u '=' us = false) :
      Reads (t :: u :: us) .less us
  | greaterEqual {t u v : Token} {us : List Token} (colon : t.isPunct ':')
      (sign : touched t '>' (u :: v :: us)) (equals : touched u '=' (v :: us)) :
      Reads (t :: u :: v :: us) .greaterEqual us
  | lessEqual {t u v : Token} {us : List Token} (colon : t.isPunct ':')
      (sign : touched t '<' (u :: v :: us)) (equals : touched u '=' (v :: us)) :
      Reads (t :: u :: v :: us) .lessEqual us
  | regex {t u : Token} {us : List Token} (colon : t.isPunct ':')
      (sign : touched t '~' (u :: us)) : Reads (t :: u :: us) .regex us
  | isIn {t : Token} {us : List Token} (word : t.isKeyword Keyword.isIn.spelling) :
      Reads (t :: us) .isIn us
  | notIn {t u : Token} {us : List Token} (first : t.isKeyword Keyword.not.spelling)
      (second : u.isKeyword Keyword.isIn.spelling) : Reads (t :: u :: us) .notIn us
  | andNot {t u : Token} {us : List Token} (first : t.isKeyword Keyword.and.spelling)
      (second : u.isKeyword Keyword.not.spelling) : Reads (t :: u :: us) .andNot us

theorem exists_of_touched {prev : Token} {c : Char} {ts : List Token} (h : touched prev c ts) :
    ∃ u us, ts = u :: us ∧ u.isPunct c ∧ prev.touches u := by
  cases ts with
  | nil => simp [touched] at h
  | cons u us => exact ⟨u, us, rfl, by simpa [touched] using h⟩

theorem touched_of_ne {prev : Token} {c d : Char} {ts : List Token} (h : touched prev c ts)
    (hne : c ≠ d) : touched prev d ts = false := by
  simp only [touched, Bool.and_eq_true] at h ⊢
  rw [Token.isPunct_of_ne h.1 hne, Bool.false_and]

section

variable {n : Nat} {t u : Token} {us : List Token} {c : Char} {α : Type} {joined alone : α}

theorem next?_of_touched {h : (u :: us).length < n} (ht : touched t c (u :: us)) :
    (⟨t, u :: us, h⟩ : Read n Token).next? (Probe.adjacentPunct t c) =
      some ⟨u, us, Nat.lt_trans (Nat.lt_succ_self _) h⟩ :=
  Read.next?_of_takes (Probe.takes_adjacentPunct.mpr ⟨rfl, by simpa [touched] using ht⟩)

theorem next?_of_not_touched {h : us.length < n} (ht : touched t c us = false) :
    (⟨t, us, h⟩ : Read n Token).next? (Probe.adjacentPunct t c) = none :=
  Read.next?_eq_none.mpr (Probe.adjacentPunct_eq_none.mpr ht)

theorem ifJoined_of_touched {h : (u :: us).length < n} (ht : touched t c (u :: us)) :
    (⟨t, u :: us, h⟩ : Read n Token).ifJoined c joined alone =
      ⟨joined, us, Nat.lt_trans (Nat.lt_succ_self _) h⟩ := by
  simp only [Read.ifJoined, next?_of_touched ht]
  rfl

theorem ifJoined_of_not_touched {h : us.length < n} (ht : touched t c us = false) :
    (⟨t, us, h⟩ : Read n Token).ifJoined c joined alone = ⟨alone, us, h⟩ := by
  simp only [Read.ifJoined, next?_of_not_touched ht]
  rfl

end

/-- What follows a colon always makes a relation of it. -/
theorem reads_afterColon {n : Nat} {t : Token} {us : List Token} (ht : t.isPunct ':')
    (h : us.length < n) : Reads (t :: us) (afterColon ⟨t, us, h⟩).value (afterColon ⟨t, us, h⟩).rest := by
  have hequals : ∀ (u : Token) (vs : List Token), (∃ w ws, vs = w :: ws ∧ touched u '=' vs) ∨
      touched u '=' vs = false := by
    intro u vs
    cases hvs : touched u '=' vs with
    | false => exact .inr rfl
    | true =>
      obtain ⟨w, ws, rfl, _⟩ := exists_of_touched hvs
      exact .inl ⟨w, ws, rfl, rfl⟩
  unfold afterColon
  cases hgt : touched t '>' us with
  | true =>
    obtain ⟨u, vs, rfl, hu⟩ := exists_of_touched hgt
    simp only [next?_of_touched hgt]
    obtain ⟨w, ws, rfl, hw⟩ | hw := hequals u vs
    · rw [ifJoined_of_touched hw]
      exact .greaterEqual ht hgt hw
    · rw [ifJoined_of_not_touched hw]
      exact .greater ht hgt hw
  | false =>
    simp only [next?_of_not_touched hgt]
    cases hlt : touched t '<' us with
    | true =>
      obtain ⟨u, vs, rfl, hu⟩ := exists_of_touched hlt
      simp only [next?_of_touched hlt]
      obtain ⟨w, ws, rfl, hw⟩ | hw := hequals u vs
      · rw [ifJoined_of_touched hw]
        exact .lessEqual ht hlt hw
      · rw [ifJoined_of_not_touched hw]
        exact .less ht hlt hw
    | false =>
      simp only [next?_of_not_touched hlt]
      cases htilde : touched t '~' us with
      | true =>
        obtain ⟨u, vs, rfl, hu⟩ := exists_of_touched htilde
        rw [ifJoined_of_touched htilde]
        exact .regex ht htilde
      | false =>
        rw [ifJoined_of_not_touched htilde]
        exact .equal ht (by simp [hgt, hlt, htilde])

theorem takes_wordsProbe {first second : Keyword} {ts us : List Token} {u : Token} :
    (wordsProbe first second).Takes ts u us ↔
      ∃ t, ts = t :: u :: us ∧ t.isKeyword first.spelling ∧ u.isKeyword second.spelling := by
  constructor
  · rintro ⟨h, hts⟩
    obtain ⟨_, hfirst, hsecond⟩ := Option.bind_eq_some_iff.mp hts
    obtain ⟨t, vs, _, rfl, htakes⟩ := Probe.takes_of_eq_some hfirst
    obtain ⟨rfl, ht⟩ := Probe.takes_keyword.mp htakes
    obtain ⟨v, ws, _, hr, htakes⟩ := Read.takes_of_next? hsecond
    cases hr
    obtain ⟨rfl, hu⟩ := Probe.takes_keyword.mp htakes
    exact ⟨t, rfl, ht, hu⟩
  · rintro ⟨t, rfl, ht, hu⟩
    have hfirst : (Probe.keyword first).Takes (t :: u :: us) t (u :: us) :=
      Probe.takes_keyword.mpr ⟨rfl, ht⟩
    exact ⟨Nat.lt_succ_of_lt (Nat.lt_succ_self _), Option.bind_eq_some_iff.mpr
      ⟨_, hfirst.eq_some, Read.next?_of_takes (Probe.takes_keyword.mpr ⟨rfl, hu⟩)⟩⟩

theorem wordsProbe_eq_none {first second : Keyword} {ts : List Token}
    (h : (peek ts).isKeyword first.spelling = false) : wordsProbe first second ts = none := by
  simp [wordsProbe, Probe.keyword_eq_none.mpr h]

theorem Reads.rest_lt {ts us : List Token} {r : Relation} (h : Reads ts r us) :
    us.length < ts.length := by
  cases h <;> simp only [List.length_cons] <;> omega

/-- The relation that a colon begins, said by what touches it. -/
theorem afterColon_of_reads {n : Nat} {t : Token} {ts us : List Token} {r : Relation}
    (ht : t.isPunct ':') (h : Reads (t :: ts) r us) (hlt : ts.length < n) :
    ∃ hlt', afterColon (⟨t, ts, hlt⟩ : Read n Token) = ⟨r, us, hlt'⟩ := by
  refine ⟨Nat.lt_of_le_of_lt (Nat.le_of_lt_succ h.rest_lt) hlt, ?_⟩
  cases h with
  | equal _ halone =>
    simp only [List.mem_cons, List.not_mem_nil, or_false, forall_eq_or_imp, forall_eq] at halone
    simp only [afterColon, next?_of_not_touched halone.1, next?_of_not_touched halone.2.1,
      ifJoined_of_not_touched halone.2.2]
  | greater _ hsign halone =>
    simp only [afterColon, next?_of_touched hsign, ifJoined_of_not_touched halone]
  | less _ hsign halone =>
    simp only [afterColon, next?_of_not_touched (touched_of_ne hsign (d := '>') (by decide)),
      next?_of_touched hsign, ifJoined_of_not_touched halone]
  | greaterEqual _ hsign hequals =>
    simp only [afterColon, next?_of_touched hsign, ifJoined_of_touched hequals]
  | lessEqual _ hsign hequals =>
    simp only [afterColon, next?_of_not_touched (touched_of_ne hsign (d := '>') (by decide)),
      next?_of_touched hsign, ifJoined_of_touched hequals]
  | regex _ hsign =>
    simp only [afterColon, next?_of_not_touched (touched_of_ne hsign (d := '>') (by decide)),
      next?_of_not_touched (touched_of_ne hsign (d := '<') (by decide)),
      ifJoined_of_touched hsign]
  | isIn hword | notIn hword _ | andNot hword _ =>
    simp [Token.isPunct_of_isIdentifier ':' (Token.isIdentifier_of_isKeyword hword)] at ht

theorem reads_of_wordProbe {ts us : List Token} {r : Relation} (h : wordProbe.Takes ts r us) :
    Reads ts r us := by
  obtain ⟨_, hword⟩ := h
  simp only [wordProbe] at hword
  split at hword
  · next hin =>
    obtain ⟨t, vs, _, rfl, htakes⟩ := Probe.takes_of_eq_some hin
    obtain ⟨rfl, ht⟩ := Probe.takes_keyword.mp htakes
    cases hword
    exact .isIn ht
  · split at hword
    · next hnot =>
      obtain ⟨u, vs, _, rfl, htakes⟩ := Probe.takes_of_eq_some hnot
      obtain ⟨t, rfl, ht, hu⟩ := takes_wordsProbe.mp htakes
      cases hword
      exact .notIn ht hu
    · obtain ⟨_, hand, he⟩ := Option.map_eq_some_iff.mp hword
      obtain ⟨u, vs, _, rfl, htakes⟩ := Probe.takes_of_eq_some hand
      obtain ⟨t, rfl, ht, hu⟩ := takes_wordsProbe.mp htakes
      cases he
      exact .andNot ht hu

/-- The relations that no colon begins are spelled in words. -/
theorem wordProbe_of_reads {ts us : List Token} {r : Relation}
    (hcolon : (peek ts).isPunct ':' = false) (h : Reads ts r us) : wordProbe.Takes ts r us := by
  refine ⟨h.rest_lt, ?_⟩
  cases h with
  | equal ht _ | regex ht _ => simp [ht] at hcolon
  | greater ht _ _ | less ht _ _ | greaterEqual ht _ _ | lessEqual ht _ _ => simp [ht] at hcolon
  | isIn ht =>
    simp only [wordProbe, (Probe.takes_keyword.mpr ⟨rfl, ht⟩).eq_some]
    rfl
  | @notIn t u us ht hu =>
    have hin : (peek (t :: u :: us)).isKeyword Keyword.isIn.spelling = false :=
      Token.isKeyword_of_ne (k := .not) ht (by decide)
    simp only [wordProbe, Probe.keyword_eq_none.mpr hin,
      (takes_wordsProbe.mpr ⟨t, rfl, ht, hu⟩).eq_some]
    rfl
  | @andNot t u us ht hu =>
    have hin : (peek (t :: u :: us)).isKeyword Keyword.isIn.spelling = false :=
      Token.isKeyword_of_ne (k := .and) ht (by decide)
    have hnot : (peek (t :: u :: us)).isKeyword Keyword.not.spelling = false :=
      Token.isKeyword_of_ne (k := .and) ht (by decide)
    simp only [wordProbe, Probe.keyword_eq_none.mpr hin, wordsProbe_eq_none hnot,
      (takes_wordsProbe.mpr ⟨t, rfl, ht, hu⟩).eq_some]
    rfl

theorem reads_rule {ts us : List Token} {r : Relation} : rule.Reads ts r us ↔ Reads ts r us := by
  constructor
  · rintro ⟨h, hts⟩
    unfold rule at hts
    split at hts
    · next hcolon =>
      obtain ⟨t, vs, _, rfl, htakes⟩ := Probe.takes_of_eq_some hcolon
      obtain ⟨rfl, ht⟩ := Probe.takes_punct.mp htakes
      have := reads_afterColon ht (Nat.lt_succ_self vs.length)
      rw [Except.ok.injEq] at hts
      rwa [hts] at this
    · split at hts
      · next hword =>
        cases hts
        exact reads_of_wordProbe ⟨h, hword⟩
      · cases hts
  · intro h
    cases hcolon : (peek ts).isPunct ':' with
    | true =>
      obtain ⟨vs, hts⟩ := exists_of_peek (Token.isEnd_of_isPunct hcolon)
      rw [hts] at h ⊢
      obtain ⟨hlt, hafter⟩ := afterColon_of_reads hcolon h (Nat.lt_succ_self _)
      refine ⟨hlt, ?_⟩
      simp only [rule, (Probe.takes_punct.mpr ⟨rfl, hcolon⟩).eq_some]
      rw [hafter]
    | false =>
      have htakes := wordProbe_of_reads hcolon h
      refine ⟨htakes.1, ?_⟩
      simp only [rule, Probe.punct_eq_none.mpr hcolon, htakes.eq_some]

end Relation

-- ---------------------------------------------------------------------------
-- Values of a condition
-- ---------------------------------------------------------------------------

namespace ValueList

/-- The tokens of the items of a list, from one item on, with the closing bracket. -/
inductive TailReads : List Token → List Value → List Connective → List Token → Prop
  | last {t : Token} {ts us : List Token} {v : Value} (item : Value.Reads ts v (t :: us))
      (closed : t.isPunct ')') : TailReads ts [v] [] us
  | cons {ts vs ws us : List Token} {v : Value} {c : Connective} {items : List Value}
      {connectives : List Connective} (item : Value.Reads ts v vs)
      (connective : Connective.Reads vs c ws) (tail : TailReads ws items connectives us) :
      TailReads ts (v :: items) (c :: connectives) us

theorem reads_more {opened : Position} {l l' : ValueList} {ts us : List Token} :
    Rule.Reads (more opened l) ts l' us ↔ ∃ items connectives, TailReads ts items connectives us ∧
      l' = ⟨l.items ++ items, l.connectives ++ connectives⟩ := by
  constructor
  · rintro ⟨h, hts⟩
    induction hn : ts.length using Nat.strongRecOn generalizing ts l with
    | ind n ih =>
      rw [more] at hts
      obtain ⟨_, hitem, hts⟩ := bind_eq_ok.mp hts
      obtain ⟨v, vs, hvs, rfl, hv⟩ := Rule.reads_of_eq_ok hitem
      have hv := Value.reads_rule.mp hv
      split at hts
      · next hclosed =>
        obtain ⟨t, ws, _, rfl, htakes⟩ := Read.takes_of_next? hclosed
        obtain ⟨rfl, ht⟩ := Probe.takes_punct.mp htakes
        cases pure_eq_ok.mp hts
        exact ⟨[v], [], .last hv ht, by simp⟩
      · dsimp only at hts
        split at hts
        · cases hts
        · split at hts
          · cases hts
          · next hconnective =>
            obtain ⟨c, ws, hws, rfl, hc⟩ := Read.reads_of_next hconnective
            obtain ⟨tail, htail, hts⟩ := bind_eq_ok.mp hts
            cases pure_eq_ok.mp hts
            obtain ⟨items, connectives, htail, hl⟩ := ih _ (hn ▸ hws) tail.rest_lt htail rfl
            refine ⟨v :: items, c :: connectives, .cons hv (Connective.reads_rule.mp hc) htail, ?_⟩
            simp [hl]
  · rintro ⟨items, connectives, htail, rfl⟩
    induction htail generalizing l with
    | last hv ht =>
      have hv := Value.reads_rule.mpr hv
      have hlt := hv.rest_lt
      refine ⟨by simp only [List.length_cons] at hlt; omega, ?_⟩
      rw [more]
      refine bind_eq_ok.mpr ⟨_, hv.eq_ok, ?_⟩
      simp only [Read.next?_of_takes (Probe.takes_punct.mpr ⟨rfl, ht⟩)]
      simp [Read.as, pure, Except.pure]
    | @cons ts vs ws us v c items connectives hv hc _ ih =>
      have hv := Value.reads_rule.mpr hv
      have hread := Connective.reads_rule.mpr hc
      have htail := @ih ⟨l.items ++ [v], l.connectives ++ [c]⟩
      have hlt := hv.rest_lt
      have hlt' := hread.rest_lt
      have hlt'' := Rule.Reads.rest_lt htail
      refine ⟨by omega, ?_⟩
      rw [more]
      refine bind_eq_ok.mpr ⟨_, hv.eq_ok, ?_⟩
      have hpunct := fun p => hc.isPunct_peek (p := p)
      simp only [Read.next?_eq_none.mpr (Probe.punct_eq_none.mpr (hpunct ')' (by decide))),
        hpunct '\x7d' (by decide), hc.isEnd_peek, Bool.or_self, Bool.false_eq_true, if_false,
        Read.next_of_reads hread]
      refine bind_eq_ok.mpr ⟨_, htail.eq_ok, ?_⟩
      simp [Read.andThen, pure, Except.pure]

theorem TailReads.isPunct_peek {ts us : List Token} {items : List Value}
    {connectives : List Connective} (h : TailReads ts items connectives us) {p : Char}
    (hstar : '*' ≠ p) (hnot : '!' ≠ p) : (peek ts).isPunct p = false := by
  cases h with
  | last hv _ => exact hv.isPunct_peek hstar hnot
  | cons hv _ _ => exact hv.isPunct_peek hstar hnot

/-- The tokens of a list of values. -/
inductive Reads : List Token → ValueList → List Token → Prop
  | empty {t u : Token} {us : List Token} (opened : t.isPunct '(') (closed : u.isPunct ')') :
      Reads (t :: u :: us) ⟨[], []⟩ us
  | items {t : Token} {ts us : List Token} {items : List Value} {connectives : List Connective}
      (opened : t.isPunct '(') (tail : TailReads ts items connectives us) :
      Reads (t :: ts) ⟨items, connectives⟩ us

theorem reads_rule {ts us : List Token} {l : ValueList} : rule.Reads ts l us ↔ Reads ts l us := by
  constructor
  · rintro ⟨h, hts⟩
    obtain ⟨_, hopened, hts⟩ := bind_eq_ok.mp hts
    obtain ⟨t, vs, _, rfl, hread⟩ := Rule.reads_of_eq_ok hopened
    obtain ⟨rfl, ht⟩ := Rule.reads_punct.mp hread
    split at hts
    · next hclosed =>
      obtain ⟨u, ws, _, rfl, htakes⟩ := Read.takes_of_next? hclosed
      obtain ⟨rfl, hu⟩ := Probe.takes_punct.mp htakes
      cases pure_eq_ok.mp hts
      exact .empty ht hu
    · obtain ⟨_, ws, _, he, hmore⟩ := Read.reads_of_next hts
      cases he
      obtain ⟨items, connectives, htail, rfl⟩ := reads_more.mp hmore
      exact .items ht htail
  · intro h
    cases h with
    | empty ht hu =>
      refine ⟨Nat.lt_succ_of_lt (Nat.lt_succ_self _), ?_⟩
      refine bind_eq_ok.mpr ⟨_, (Rule.reads_punct.mpr ⟨rfl, ht⟩).eq_ok, ?_⟩
      simp only [Read.next?_of_takes (Probe.takes_punct.mpr ⟨rfl, hu⟩)]
      rfl
    | @items t ts _ items connectives ht htail =>
      have hmore : Rule.Reads (more t.start ⟨[], []⟩) ts ⟨items, connectives⟩ us :=
        reads_more.mpr ⟨items, connectives, htail, rfl⟩
      have hclosed := htail.isPunct_peek (p := ')') (by decide) (by decide)
      refine ⟨Nat.lt_succ_of_lt hmore.rest_lt, ?_⟩
      refine bind_eq_ok.mpr ⟨_, (Rule.reads_punct.mpr ⟨rfl, ht⟩).eq_ok, ?_⟩
      simp only [Read.next?_eq_none.mpr (Probe.punct_eq_none.mpr hclosed)]
      exact Read.next_of_reads hmore

end ValueList

/-- The tokens of a value or a list of values. -/
inductive FilterValue.Reads : List Token → FilterValue → List Token → Prop
  | single {ts us : List Token} {v : Value} (value : Value.Reads ts v us) :
      FilterValue.Reads ts (.single v) us
  | list {ts us : List Token} {l : ValueList} (values : ValueList.Reads ts l us) :
      FilterValue.Reads ts (.list l) us

theorem ValueList.Reads.isPunct_peek {ts us : List Token} {l : ValueList} (h : Reads ts l us) :
    (peek ts).isPunct '(' = true := by
  cases h <;> assumption

theorem FilterValue.reads_rule {ts us : List Token} {v : FilterValue} :
    FilterValue.rule.Reads ts v us ↔ Reads ts v us := by
  constructor
  · rintro ⟨h, hts⟩
    unfold FilterValue.rule at hts
    split at hts
    · obtain ⟨_, hrule, hts⟩ := bind_eq_ok.mp hts
      obtain ⟨l, vs, _, rfl, hl⟩ := Rule.reads_of_eq_ok hrule
      cases pure_eq_ok.mp hts
      exact .list (ValueList.reads_rule.mp hl)
    · obtain ⟨_, hrule, hts⟩ := bind_eq_ok.mp hts
      obtain ⟨v, vs, _, rfl, hv⟩ := Rule.reads_of_eq_ok hrule
      cases pure_eq_ok.mp hts
      exact .single (Value.reads_rule.mp hv)
  · intro h
    cases h with
    | single hv =>
      have hread := Value.reads_rule.mpr hv
      refine ⟨hread.rest_lt, ?_⟩
      unfold FilterValue.rule
      rw [if_neg (by simp [hv.isPunct_peek (p := '(') (by decide) (by decide)])]
      exact bind_eq_ok.mpr ⟨_, hread.eq_ok, rfl⟩
    | list hl =>
      have hread := ValueList.reads_rule.mpr hl
      refine ⟨hread.rest_lt, ?_⟩
      unfold FilterValue.rule
      rw [if_pos hl.isPunct_peek]
      exact bind_eq_ok.mpr ⟨_, hread.eq_ok, rfl⟩

-- ---------------------------------------------------------------------------
-- Conditions
-- ---------------------------------------------------------------------------

namespace Condition

/-- The tokens of a condition without its negation sign. -/
inductive PositiveReads (negative : Bool) : List Token → Condition → List Token → Prop
  | mk {ts vs ws us : List Token} {w : Word} {r : Relation} {v : FilterValue}
      (starts : startsKey (peek ts)) (key : Word.rule.Reads ts w vs)
      (relation : Relation.Reads vs r ws) (value : FilterValue.Reads ws v us) :
      PositiveReads negative ts ⟨negative, w.text, r, v⟩ us

theorem reads_positiveRule {negative : Bool} {ts us : List Token} {c : Condition} :
    (positiveRule negative).Reads ts c us ↔ PositiveReads negative ts c us := by
  constructor
  · rintro ⟨h, hts⟩
    obtain ⟨key, hkey, hts⟩ := bind_eq_ok.mp hts
    unfold keyRule at hkey
    split at hkey
    · next hstarts =>
      obtain ⟨_, hrule, hkey⟩ := bind_eq_ok.mp hkey
      obtain ⟨w, vs, _, rfl, hw⟩ := Rule.reads_of_eq_ok hrule
      cases pure_eq_ok.mp hkey
      split at hts
      · cases hts
      · next hrelation =>
        obtain ⟨r, ws, _, rfl, hr⟩ := Read.reads_of_next hrelation
        obtain ⟨_, hvalue, hts⟩ := bind_eq_ok.mp hts
        obtain ⟨v, xs, _, rfl, hv⟩ := Read.reads_of_next hvalue
        cases pure_eq_ok.mp hts
        exact .mk hstarts hw (Relation.reads_rule.mp hr) (FilterValue.reads_rule.mp hv)
    · cases hkey
  · rintro ⟨hstarts, hw, hr, hv⟩
    have hr := Relation.reads_rule.mpr hr
    have hv := FilterValue.reads_rule.mpr hv
    have := hw.rest_lt
    have := hr.rest_lt
    have := hv.rest_lt
    refine ⟨by omega, ?_⟩
    refine bind_eq_ok.mpr ⟨_, (by rw [keyRule, if_pos hstarts]; exact bind_eq_ok.mpr ⟨_, hw.eq_ok, rfl⟩), ?_⟩
    simp only [Read.map, Read.next_of_reads hr]
    exact bind_eq_ok.mpr ⟨_, Read.next_of_reads hv, rfl⟩

/-- The tokens of a condition. -/
inductive Reads : List Token → Condition → List Token → Prop
  | positive {ts us : List Token} {c : Condition} (read : PositiveReads false ts c us) :
      Reads ts c us
  | negative {t : Token} {ts us : List Token} {c : Condition} (sign : t.isPunct '!')
      (read : PositiveReads true ts c us) : Reads (t :: ts) c us

theorem isPunct_of_startsKey {t : Token} (p : Char) (h : startsKey t) : t.isPunct p = false := by
  simp only [startsKey, Bool.and_eq_true, Bool.or_eq_true] at h
  obtain h | h := h.1
  · exact Token.isPunct_of_isIdentifier p h
  · exact Token.isPunct_of_isNumber p h

theorem reads_rule {ts us : List Token} {c : Condition} : rule.Reads ts c us ↔ Reads ts c us := by
  constructor
  · rintro ⟨h, hts⟩
    unfold rule at hts
    split at hts
    · next hsign =>
      obtain ⟨t, vs, _, rfl, htakes⟩ := Probe.takes_of_eq_some hsign
      obtain ⟨rfl, ht⟩ := Probe.takes_punct.mp htakes
      obtain ⟨_, ws, _, he, hread⟩ := Read.reads_of_next hts
      cases he
      exact .negative ht (reads_positiveRule.mp hread)
    · exact .positive (reads_positiveRule.mp ⟨h, hts⟩)
  · intro h
    cases h with
    | positive h =>
      have hread := reads_positiveRule.mpr h
      refine ⟨hread.rest_lt, ?_⟩
      obtain ⟨hstarts, _⟩ := h
      simp only [rule, Probe.punct_eq_none.mpr (isPunct_of_startsKey '!' hstarts)]
      exact hread.eq_ok
    | negative ht h =>
      have hread := reads_positiveRule.mpr h
      refine ⟨Nat.lt_succ_of_lt hread.rest_lt, ?_⟩
      simp only [rule, (Probe.takes_punct.mpr ⟨rfl, ht⟩).eq_some]
      exact Read.next_of_reads hread

theorem Reads.isPunct_peek {ts us : List Token} {c : Condition} (h : Reads ts c us) {p : Char}
    (hp : '!' ≠ p) : (peek ts).isPunct p = false := by
  cases h with
  | positive h =>
    obtain ⟨hstarts, _⟩ := h
    exact isPunct_of_startsKey p hstarts
  | negative ht _ => exact Token.isPunct_of_ne ht hp

theorem Reads.isEnd_peek {ts us : List Token} {c : Condition} (h : Reads ts c us) :
    (peek ts).isEnd = false := by
  cases h with
  | positive h =>
    obtain ⟨_, hw, _⟩ := h
    obtain ⟨rfl, hstart, _⟩ := Word.reads_rule.mp hw
    exact Word.isEnd_of_canStart hstart
  | negative ht _ => exact Token.isEnd_of_isPunct ht

theorem isKeyword_of_startsKey {t : Token} {k : Keyword} (h : startsKey t) (hk : k.isOperator) :
    t.isKeyword k.spelling = false := by
  rw [← Bool.not_eq_true]
  intro hword
  simp [startsKey, Keyword.ofText?_of_isKeyword hword, hk] at h

theorem Reads.not_startsWord {ts us : List Token} {c : Condition} (h : Reads ts c us) :
    Connective.startsWord (peek ts) = false := by
  cases h with
  | positive h =>
    obtain ⟨hstarts, _⟩ := h
    have hword := fun k => isKeyword_of_startsKey (k := k) hstarts
    simp [Connective.startsWord, hword .and rfl, hword .or rfl, hword .isIn rfl]
  | negative ht _ => simp [Connective.startsWord, Token.isKeyword_of_isPunct _ ht]

end Condition

-- ---------------------------------------------------------------------------
-- Params and filters
-- ---------------------------------------------------------------------------

namespace Param

/-- The tokens of params up to where a sequence of them ends. -/
inductive SequenceReads : List Token → List Param → List Token → Prop
  | nil {ts : List Token} (ends : endsBefore (peek ts)) : SequenceReads ts [] ts
  | group {t u : Token} {ts vs us : List Token} {ps qs : List Param} (opened : t.isPunct '(')
      (inside : SequenceReads ts ps (u :: vs)) (closed : u.isPunct ')')
      (more : SequenceReads vs qs us) : SequenceReads (t :: ts) (.group ps :: qs) us
  | connective {ts vs us : List Token} {c : Connective} {qs : List Param}
      (read : Connective.Reads ts c vs) (more : SequenceReads vs qs us) :
      SequenceReads ts (.connective c :: qs) us
  | star {t : Token} {ts us : List Token} {qs : List Param} (isStar : t.isPunct '*')
      (more : SequenceReads ts qs us) : SequenceReads (t :: ts) (.star :: qs) us
  | condition {ts vs us : List Token} {c : Condition} {qs : List Param}
      (read : Condition.Reads ts c vs) (more : SequenceReads vs qs us) :
      SequenceReads ts (.condition c :: qs) us

/-- The tokens of one param. -/
inductive Reads : List Token → Param → List Token → Prop
  | group {t u : Token} {ts us : List Token} {ps : List Param} (opened : t.isPunct '(')
      (inside : SequenceReads ts ps (u :: us)) (closed : u.isPunct ')') :
      Reads (t :: ts) (.group ps) us
  | connective {ts us : List Token} {c : Connective} (read : Connective.Reads ts c us) :
      Reads ts (.connective c) us
  | star {t : Token} {us : List Token} (isStar : t.isPunct '*') : Reads (t :: us) .star us
  | condition {ts us : List Token} {c : Condition} (read : Condition.Reads ts c us) :
      Reads ts (.condition c) us

theorem Reads.cons {ts vs us : List Token} {p : Param} {ps : List Param} (h : Reads ts p vs)
    (hs : SequenceReads vs ps us) : SequenceReads ts (p :: ps) us := by
  cases h with
  | group ht hin hu => exact .group ht hin hu hs
  | connective hc => exact .connective hc hs
  | star ht => exact .star ht hs
  | condition hc => exact .condition hc hs

theorem SequenceReads.uncons {ts us : List Token} {p : Param} {ps : List Param}
    (h : SequenceReads ts (p :: ps) us) : ∃ vs, Reads ts p vs ∧ SequenceReads vs ps us := by
  cases h with
  | group ht hin hu hs => exact ⟨_, .group ht hin hu, hs⟩
  | connective hc hs => exact ⟨_, .connective hc, hs⟩
  | star ht hs => exact ⟨_, .star ht, hs⟩
  | condition hc hs => exact ⟨_, .condition hc, hs⟩

theorem Reads.endsBefore_peek {ts us : List Token} {p : Param} (h : Reads ts p us) :
    endsBefore (peek ts) = false := by
  have hpunct : ∀ {t : Token} {c : Char}, t.isPunct c → '\x7d' ≠ c → ')' ≠ c →
      endsBefore t = false := by
    intro t c ht hbrace hparen
    simp [endsBefore, Token.isEnd_of_isPunct ht, Token.isPunct_of_ne ht hbrace.symm,
      Token.isPunct_of_ne ht hparen.symm]
  cases h with
  | group ht _ _ => exact hpunct ht (by decide) (by decide)
  | connective hc =>
    simp [endsBefore, hc.isEnd_peek, hc.isPunct_peek (p := '\x7d') (by decide),
      hc.isPunct_peek (p := ')') (by decide)]
  | star ht => exact hpunct ht (by decide) (by decide)
  | condition hc =>
    simp [endsBefore, hc.isEnd_peek, hc.isPunct_peek (p := '\x7d') (by decide),
      hc.isPunct_peek (p := ')') (by decide)]

section

variable {t u : Token} {ts vs us : List Token} {p : Param} {ps : List Param} {opened : Position}

theorem rule_group (ht : t.isPunct '(') (hin : Rule.Reads (groupTail t.start) ts ps us) :
    Rule.Reads rule (t :: ts) (.group ps) us := by
  refine ⟨Nat.lt_succ_of_lt hin.rest_lt, ?_⟩
  rw [rule, (Probe.takes_punct.mpr ⟨rfl, ht⟩).eq_some]
  exact bind_eq_ok.mpr ⟨_, hin.eq_ok, rfl⟩

theorem rule_connective {c : Connective} (hc : Connective.Reads ts c us) :
    Rule.Reads rule ts (.connective c) us := by
  have hread := Connective.reads_rule.mpr hc
  refine ⟨hread.rest_lt, ?_⟩
  rw [rule, Probe.punct_eq_none.mpr (hc.isPunct_peek (by decide)), hread.eq_ok]
  rfl

theorem rule_star (ht : t.isPunct '*') : Rule.Reads rule (t :: ts) .star ts := by
  refine ⟨Nat.lt_succ_self _, ?_⟩
  have hopen : (peek (t :: ts)).isPunct '(' = false := Token.isPunct_of_ne ht (by decide)
  rw [rule, Probe.punct_eq_none.mpr hopen]
  cases hc : Connective.rule (t :: ts) with
  | ok r =>
    obtain ⟨c, vs, _, rfl, hread⟩ := Rule.reads_of_eq_ok hc
    have := (Connective.reads_rule.mp hread).isPunct_peek (p := '*') (by decide)
    simp [ht] at this
  | error e =>
    rw [(Probe.takes_punct.mpr ⟨rfl, ht⟩).eq_some]
    rfl

theorem rule_condition {c : Condition} (hc : Condition.Reads ts c us) :
    Rule.Reads rule ts (.condition c) us := by
  have hread := Condition.reads_rule.mpr hc
  refine ⟨hread.rest_lt, ?_⟩
  rw [rule, Probe.punct_eq_none.mpr (hc.isPunct_peek (by decide))]
  cases hconnective : Connective.rule ts with
  | ok r =>
    obtain ⟨c, vs, _, rfl, hread⟩ := Rule.reads_of_eq_ok hconnective
    cases Connective.reads_rule.mp hread with
    | comma ht => simpa [ht] using hc.isPunct_peek (p := ',') (by decide)
    | word hw => simpa [hw.startsWord] using hc.not_startsWord
  | error e =>
    rw [Probe.punct_eq_none.mpr (hc.isPunct_peek (by decide))]
    exact bind_eq_ok.mpr ⟨_, hread.eq_ok, rfl⟩

theorem groupTail_nil (hu : u.isPunct ')') : Rule.Reads (groupTail opened) (u :: us) [] us := by
  refine ⟨Nat.lt_succ_self _, ?_⟩
  rw [groupTail, (Probe.takes_punct.mpr ⟨rfl, hu⟩).eq_some]
  rfl

theorem groupTail_cons (hends : endsBefore (peek ts) = false) (hp : Rule.Reads rule ts p vs)
    (hps : Rule.Reads (groupTail opened) vs ps us) :
    Rule.Reads (groupTail opened) ts (p :: ps) us := by
  have hclosed : (peek ts).isPunct ')' = false := by
    simp only [endsBefore, Bool.or_eq_false_iff] at hends
    exact hends.2
  refine ⟨Nat.lt_trans hps.rest_lt hp.rest_lt, ?_⟩
  rw [groupTail, Probe.punct_eq_none.mpr hclosed]
  simp only [hends]
  exact bind_eq_ok.mpr ⟨_, hp.eq_ok, bind_eq_ok.mpr ⟨_, hps.eq_ok, rfl⟩⟩

end

/-- A sequence of params in front of a closing parenthesis is the inside of a group. -/
theorem SequenceReads.groupTail {ts vs us : List Token} {u : Token} {ps : List Param}
    (h : SequenceReads ts ps vs) (hvs : vs = u :: us) (hu : u.isPunct ')') (opened : Position) :
    Rule.Reads (groupTail opened) ts ps us := by
  induction h generalizing opened u us with
  | nil _ =>
    subst hvs
    exact groupTail_nil hu
  | group ht hin hclosed hmore ihin ih =>
    exact groupTail_cons (Reads.group ht hin hclosed).endsBefore_peek
      (rule_group ht (ihin rfl hclosed _)) (ih hvs hu opened)
  | connective hc _ ih =>
    exact groupTail_cons (Reads.connective hc).endsBefore_peek (rule_connective hc)
      (ih hvs hu opened)
  | star ht _ ih =>
    exact groupTail_cons (Reads.star ht).endsBefore_peek (rule_star ht) (ih hvs hu opened)
  | condition hc _ ih =>
    exact groupTail_cons (Reads.condition hc).endsBefore_peek (rule_condition hc)
      (ih hvs hu opened)

theorem Reads.rule {ts us : List Token} {p : Param} (h : Reads ts p us) :
    Rule.Reads rule ts p us := by
  cases h with
  | group ht hin hu => exact rule_group ht (hin.groupTail rfl hu _)
  | connective hc => exact rule_connective hc
  | star ht => exact rule_star ht
  | condition hc => exact rule_condition hc

/-- What the rules for a param and for the inside of a group read, of at most `n` tokens. -/
theorem reads_of_rule_of_groupTail (n : Nat) :
    (∀ {ts us p}, ts.length < n → Rule.Reads rule ts p us → Reads ts p us) ∧
      ∀ {ts us ps opened}, ts.length < n → Rule.Reads (groupTail opened) ts ps us →
        ∃ u, SequenceReads ts ps (u :: us) ∧ u.isPunct ')' := by
  induction n with
  | zero => simp
  | succ n ih =>
    have hrule : ∀ {ts us p}, ts.length < n + 1 → Rule.Reads rule ts p us → Reads ts p us := by
      rintro ts us p hn ⟨h, hts⟩
      rw [Param.rule] at hts
      split at hts
      · next hopened =>
        obtain ⟨t, vs, _, rfl, htakes⟩ := Probe.takes_of_eq_some hopened
        obtain ⟨rfl, ht⟩ := Probe.takes_punct.mp htakes
        obtain ⟨_, hgroup, hts⟩ := bind_eq_ok.mp hts
        obtain ⟨ps, ws, _, rfl, hps⟩ := Rule.reads_of_eq_ok hgroup
        cases pure_eq_ok.mp hts
        obtain ⟨u, hin, hu⟩ := ih.2 (Nat.lt_of_succ_lt_succ hn) hps
        exact .group ht hin hu
      · split at hts
        · next hconnective =>
          obtain ⟨c, vs, _, rfl, hc⟩ := Rule.reads_of_eq_ok hconnective
          cases hts
          exact .connective (Connective.reads_rule.mp hc)
        · split at hts
          · next hstar =>
            obtain ⟨t, vs, _, rfl, htakes⟩ := Probe.takes_of_eq_some hstar
            obtain ⟨rfl, ht⟩ := Probe.takes_punct.mp htakes
            cases hts
            exact .star ht
          · obtain ⟨_, hcondition, hts⟩ := bind_eq_ok.mp hts
            obtain ⟨c, vs, _, rfl, hc⟩ := Rule.reads_of_eq_ok hcondition
            cases pure_eq_ok.mp hts
            exact .condition (Condition.reads_rule.mp hc)
    refine ⟨hrule, ?_⟩
    rintro ts us ps opened hn ⟨h, hts⟩
    rw [Param.groupTail] at hts
    split at hts
    · next hclosed =>
      obtain ⟨u, vs, _, rfl, htakes⟩ := Probe.takes_of_eq_some hclosed
      obtain ⟨rfl, hu⟩ := Probe.takes_punct.mp htakes
      cases hts
      exact ⟨u, .nil (by simp [endsBefore, hu]), hu⟩
    · split at hts
      · cases hts
      · obtain ⟨_, hparam, hts⟩ := bind_eq_ok.mp hts
        obtain ⟨p, vs, hvs, rfl, hp⟩ := Rule.reads_of_eq_ok hparam
        obtain ⟨_, hmore, hts⟩ := bind_eq_ok.mp hts
        obtain ⟨qs, ws, _, rfl, hqs⟩ := Rule.reads_of_eq_ok hmore
        cases pure_eq_ok.mp hts
        obtain ⟨u, hseq, hu⟩ := ih.2 (Nat.lt_of_lt_of_le hvs (Nat.le_of_lt_succ hn)) hqs
        exact ⟨u, (hrule hn hp).cons hseq, hu⟩

theorem reads_rule {ts us : List Token} {p : Param} :
    Rule.Reads rule ts p us ↔ Reads ts p us :=
  ⟨(reads_of_rule_of_groupTail (ts.length + 1)).1 (Nat.lt_succ_self _), Reads.rule⟩

end Param

namespace Filter

theorem extend_of_sequenceReads {n : Nat} {f : Filter} {ts us : List Token} {ps : List Param}
    (h : Param.SequenceReads ts ps us) (hts : ts.length < n) :
    ∃ hus, extend (⟨f, ts, hts⟩ : Read n Filter) = .ok ⟨⟨f.first, f.rest ++ ps⟩, us, hus⟩ := by
  induction ps generalizing f ts with
  | nil =>
    cases h with
    | nil hends =>
      refine ⟨hts, ?_⟩
      rw [extend]
      simp [hends]
  | cons p ps ih =>
    obtain ⟨vs, hp, hps⟩ := h.uncons
    have hread := Param.reads_rule.mpr hp
    obtain ⟨hus, hmore⟩ := ih (f := f.push p) hps (Nat.lt_trans hread.rest_lt hts)
    refine ⟨hus, ?_⟩
    rw [extend]
    simp only [hp.endsBefore_peek]
    refine bind_eq_ok.mpr ⟨_, hread.eq_ok, ?_⟩
    simpa [push, Read.map, Read.andThen] using hmore

theorem sequenceReads_of_extend {n : Nat} {f g : Filter} {ts us : List Token}
    {hts : ts.length < n} {hus : us.length < n}
    (h : extend (⟨f, ts, hts⟩ : Read n Filter) = .ok ⟨g, us, hus⟩) :
    ∃ ps, Param.SequenceReads ts ps us ∧ g = ⟨f.first, f.rest ++ ps⟩ := by
  induction hk : ts.length using Nat.strongRecOn generalizing f ts with
  | ind k ih =>
    rw [extend] at h
    split at h
    · next hends =>
      cases h
      exact ⟨[], .nil hends, by simp⟩
    · obtain ⟨_, hparam, h⟩ := bind_eq_ok.mp h
      obtain ⟨p, vs, hvs, rfl, hp⟩ := Rule.reads_of_eq_ok hparam
      obtain ⟨ps, hps, rfl⟩ := ih _ (hk ▸ hvs) h rfl
      exact ⟨p :: ps, (Param.reads_rule.mp hp).cons hps, by simp [push]⟩

theorem reads_rule {ts us : List Token} {f : Filter} :
    rule.Reads ts f us ↔ Param.SequenceReads ts f.params us := by
  constructor
  · rintro ⟨h, hts⟩
    obtain ⟨_, hfirst, hts⟩ := bind_eq_ok.mp hts
    obtain ⟨p, vs, _, rfl, hp⟩ := Rule.reads_of_eq_ok hfirst
    obtain ⟨ps, hps, rfl⟩ := sequenceReads_of_extend hts
    exact (Param.reads_rule.mp hp).cons hps
  · intro h
    obtain ⟨vs, hp, hps⟩ := h.uncons
    have hread := Param.reads_rule.mpr hp
    obtain ⟨hus, hmore⟩ := extend_of_sequenceReads (f := ofParam f.first) hps hread.rest_lt
    exact ⟨hus, bind_eq_ok.mpr ⟨_, hread.eq_ok, hmore⟩⟩

end Filter

end MetricLang
