-- SUMMARY: What the rules for expressions and for monitors read.
import MetricLang.Proofs.QueryReads

/-!
# Reading expressions

Operands, terms and expressions hold one another, and the rules for terms and
expressions go on from what they have read already. `Phrase` names each of these
readings, so that one relation says what all of them read and one induction goes
through them. An operator is a token of its own or the sign of a number.
-/

namespace MetricLang

-- ---------------------------------------------------------------------------
-- Operators
-- ---------------------------------------------------------------------------

namespace Operator

/-- Is the token an operator that goes on with a term, or, if `binds` is not set,
    one that begins a new term? -/
def IsAt (binds : Bool) (op : Operator) (t : Token) : Prop :=
  op.isMultiplicative = binds ∧ t.isPunct op.symbol

theorem symbol_injective {op op' : Operator} (h : op.symbol = op'.symbol) : op = op' := by
  revert h
  cases op <;> cases op' <;> simp [symbol]

theorem IsAt.unique {binds : Bool} {op op' : Operator} {t : Token} (h : IsAt binds op t)
    (h' : IsAt binds op' t) : op = op' :=
  symbol_injective (Token.isPunct_unique h.2 h'.2)

/-- Takes one of two punctuation characters, each for an operator. -/
def eitherProbe (op op' : Operator) : Probe Operator := fun ts =>
  match Probe.punct op.symbol ts with
  | some t => some (t.as op)
  | none => (Probe.punct op'.symbol ts).map (·.as op')

theorem takes_eitherProbe (op op' : Operator) {x : Operator} {ts us : List Token} :
    (eitherProbe op op').Takes ts x us ↔
      (x = op ∨ x = op') ∧ ∃ t, ts = t :: us ∧ t.isPunct x.symbol := by
  constructor
  · rintro ⟨h, hts⟩
    unfold eitherProbe at hts
    split at hts
    · next hfirst =>
      obtain ⟨t, vs, _, rfl, htakes⟩ := Probe.takes_of_eq_some hfirst
      obtain ⟨rfl, ht⟩ := Probe.takes_punct.mp htakes
      cases hts
      exact ⟨.inl rfl, t, rfl, ht⟩
    · obtain ⟨r, hsecond, hr⟩ := Option.map_eq_some_iff.mp hts
      obtain ⟨t, vs, _, rfl, htakes⟩ := Probe.takes_of_eq_some hsecond
      obtain ⟨rfl, ht⟩ := Probe.takes_punct.mp htakes
      cases hr
      exact ⟨.inr rfl, t, rfl, ht⟩
  · rintro ⟨hx, t, rfl, ht⟩
    have htakes := (Probe.takes_punct.mpr ⟨rfl, ht⟩ : Probe.Takes _ (t :: us) t us).eq_some
    refine ⟨Nat.lt_succ_self _, ?_⟩
    unfold eitherProbe
    by_cases heq : x = op
    · subst heq
      rw [htakes]
      rfl
    · obtain rfl := hx.resolve_left heq
      have hfirst : (peek (t :: us)).isPunct op.symbol = false :=
        Token.isPunct_of_ne ht fun h => heq (symbol_injective h)
      rw [Probe.punct_eq_none.mpr hfirst, htakes]
      rfl

theorem eitherProbe_eq_none (op op' : Operator) {ts : List Token} : eitherProbe op op' ts = none ↔
    ∀ x, x = op ∨ x = op' → (peek ts).isPunct x.symbol = false := by
  simp only [forall_eq_or_imp, forall_eq, ← Probe.punct_eq_none, eitherProbe]
  cases Probe.punct op.symbol ts <;> simp

theorem takes_additiveProbe {ts us : List Token} {op : Operator} :
    additiveProbe.Takes ts op us ↔ ∃ t, ts = t :: us ∧ IsAt false op t := by
  refine (takes_eitherProbe .add .sub).trans ?_
  cases op <;> simp [IsAt, isMultiplicative]

theorem takes_multiplicativeProbe {ts us : List Token} {op : Operator} :
    multiplicativeProbe.Takes ts op us ↔ ∃ t, ts = t :: us ∧ IsAt true op t := by
  refine (takes_eitherProbe .mul .div).trans ?_
  cases op <;> simp [IsAt, isMultiplicative]

theorem additiveProbe_eq_none {ts : List Token} :
    additiveProbe ts = none ↔ ∀ op, ¬ IsAt false op (peek ts) := by
  refine (eitherProbe_eq_none .add .sub).trans (forall_congr' fun op => ?_)
  cases op <;> simp [IsAt, isMultiplicative]

theorem multiplicativeProbe_eq_none {ts : List Token} :
    multiplicativeProbe ts = none ↔ ∀ op, ¬ IsAt true op (peek ts) := by
  refine (eitherProbe_eq_none .mul .div).trans (forall_congr' fun op => ?_)
  cases op <;> simp [IsAt, isMultiplicative]

theorem isNumber_of_ofSigned? {t : Token} {signed : Operator × Double}
    (h : ofSigned? t = some signed) : t.isNumber := by
  unfold ofSigned? at h
  split at h
  · assumption
  · cases h

theorem takes_signedProbe {ts us : List Token} {signed : Operator × Double} :
    signedProbe.Takes ts signed us ↔ ∃ t, ts = t :: us ∧ ofSigned? t = some signed := by
  constructor
  · rintro ⟨h, hts⟩
    cases ts with
    | nil => cases hts
    | cons t ts =>
      obtain ⟨signed, ht, hr⟩ := Option.map_eq_some_iff.mp hts
      cases hr
      exact ⟨t, rfl, ht⟩
  · rintro ⟨t, rfl, ht⟩
    exact ⟨Nat.lt_succ_self _, by simp [signedProbe, ht, Read.ofTail]⟩

theorem signedProbe_eq_none {ts : List Token} :
    signedProbe ts = none ↔ ofSigned? (peek ts) = none := by
  cases ts with
  | nil => simp [signedProbe, ofSigned?, Token.absent, Token.endAt, Token.isNumber]
  | cons t ts => simp [signedProbe]

end Operator

-- ---------------------------------------------------------------------------
-- Expressions and their parts
-- ---------------------------------------------------------------------------

/-- What can be read of an expression: a part of it from its beginning, or the end
    of a part that has begun. -/
inductive Phrase where
  | operand (v : Operand)
  | term (t : Term)
  | factors (begun whole : Term)
  | expression (e : Expression)
  | terms (begun whole : Expression)

namespace Phrase

/-- The tokens of a phrase. -/
inductive Reads : Phrase → List Token → List Token → Prop
  | number {t : Token} {us : List Token} {d : Double} (isNumber : t.isNumber)
      (finite : Double.read? t.text.toList = some d) : Reads (.operand (.number d)) (t :: us) us
  | group {t u : Token} {ts us : List Token} {e : Expression} (opened : t.isPunct '(')
      (inside : Reads (.expression e) ts (u :: us)) (closed : u.isPunct ')') :
      Reads (.operand (.group e)) (t :: ts) us
  | query {ts us : List Token} {q : Query} (read : Query.Reads ts q us) :
      Reads (.operand (.query q)) ts us
  | call {t u : Token} {ts vs us : List Token} {e : Expression} {args : List Value}
      (noQuery : ∀ q ws, ¬ Query.Reads (t :: u :: ts) q ws) (name : t.isIdentifier)
      (opened : u.isPunct '(') (inside : Reads (.expression e) ts vs)
      (more : Rule.ItemsRead ')' Value.argument vs args us) :
      Reads (.operand (.call t.text e args)) (t :: u :: ts) us
  | term {ts vs us : List Token} {v : Operand} {t : Term} (first : Reads (.operand v) ts vs)
      (more : Reads (.factors (.single v) t) vs us) : Reads (.term t) ts us
  | factorsEnd {ts : List Token} {t : Term} (ends : ∀ op, ¬ Operator.IsAt true op (peek ts)) :
      Reads (.factors t t) ts ts
  | factor {o : Token} {ts vs us : List Token} {op : Operator} {v : Operand} {s t : Term}
      (operator : Operator.IsAt true op o) (operand : Reads (.operand v) ts vs)
      (more : Reads (.factors (.snoc s op v) t) vs us) : Reads (.factors s t) (o :: ts) us
  | expression {ts vs us : List Token} {t : Term} {e : Expression}
      (first : Reads (.term t) ts vs) (more : Reads (.terms (.single t) e) vs us) :
      Reads (.expression e) ts us
  | termsEnd {ts : List Token} {e : Expression} (ends : ∀ op, ¬ Operator.IsAt false op (peek ts))
      (unsigned : Operator.ofSigned? (peek ts) = none) : Reads (.terms e e) ts ts
  | sum {o : Token} {ts vs us : List Token} {op : Operator} {t : Term} {d e : Expression}
      (operator : Operator.IsAt false op o) (last : Reads (.term t) ts vs)
      (more : Reads (.terms (.snoc d op t) e) vs us) : Reads (.terms d e) (o :: ts) us
  | signed {o : Token} {ts vs us : List Token} {op : Operator} {n : Double} {t : Term}
      {d e : Expression} (signed : Operator.ofSigned? o = some (op, n))
      (last : Reads (.factors (.single (.number n)) t) ts vs)
      (more : Reads (.terms (.snoc d op t) e) vs us) : Reads (.terms d e) (o :: ts) us

theorem Reads.rest_le {p : Phrase} {ts us : List Token} (h : Reads p ts us) :
    us.length ≤ ts.length := by
  induction h with
  | number => simp
  | group _ _ _ ih => simp only [List.length_cons] at *; omega
  | query hq => exact Nat.le_of_lt (Query.reads_rule.mpr hq).rest_lt
  | call _ _ _ _ hargs ih =>
    have := hargs.rest_lt
    simp only [List.length_cons]
    omega
  | term _ _ ih ih' => omega
  | factorsEnd => exact Nat.le_refl _
  | factor _ _ _ ih ih' => simp only [List.length_cons]; omega
  | expression _ _ ih ih' => omega
  | termsEnd => exact Nat.le_refl _
  | sum _ _ _ ih ih' => simp only [List.length_cons]; omega
  | signed _ _ _ ih ih' => simp only [List.length_cons]; omega

/-- The rule of the phrase reads it. The end of a part goes on from what was read of
    `n` tokens. -/
def IsRead (n : Nat) : Phrase → List Token → List Token → Prop
  | .operand v, ts, us => Rule.Reads Operand.rule ts v us
  | .term t, ts, us => Rule.Reads Term.rule ts t us
  | .factors s t, ts, us =>
    ∃ h h', Term.extend (⟨s, ts, h⟩ : Read n Term) = .ok ⟨t, us, h'⟩
  | .expression e, ts, us => Rule.Reads Expression.rule ts e us
  | .terms d e, ts, us =>
    ∃ h h', Expression.extend (⟨d, ts, h⟩ : Read n Expression) = .ok ⟨e, us, h'⟩

theorem isNumber_of_isPunct {t : Token} {c : Char} (h : t.isPunct c) : t.isNumber = false := by
  rw [← Bool.not_eq_true]
  exact fun hn => by simp [Token.isPunct_of_isNumber c hn] at h

theorem isNumber_of_isIdentifier {t : Token} (h : t.isIdentifier) : t.isNumber = false := by
  simp_all [Token.isIdentifier, Token.isNumber]

/-- A query begins with a name. -/
theorem isIdentifier_of_query {ts us : List Token} {q : Query} (h : Query.Reads ts q us) :
    (peek ts).isIdentifier := by
  cases h with
  | selection hs =>
    obtain ⟨ha, _⟩ := hs
    cases ha <;> assumption
  | call hname _ _ _ => exact hname

-- ---------------------------------------------------------------------------
-- Each phrase is what its rule reads
-- ---------------------------------------------------------------------------

theorem operandRule_of_isNumber {t : Token} {us : List Token} {d : Double} (ht : t.isNumber)
    (hd : Double.read? t.text.toList = some d) :
    Rule.Reads Operand.rule (t :: us) (.number d) us := by
  refine ⟨Nat.lt_succ_self _, ?_⟩
  rw [Operand.rule, (Probe.takes_take.mpr ⟨rfl, Token.isEnd_of_isNumber ht, ht⟩).eq_some]
  exact bind_eq_ok.mpr ⟨.number d, by simp [Operand.numberOf, hd], rfl⟩

theorem operandRule_of_group {t u : Token} {ts us : List Token} {e : Expression}
    (ht : t.isPunct '(') (he : Rule.Reads Expression.rule ts e (u :: us)) (hu : u.isPunct ')') :
    Rule.Reads Operand.rule (t :: ts) (.group e) us := by
  have hlt := he.rest_lt
  have hnumber : Probe.take (·.isNumber) (t :: ts) = none :=
    Probe.take_eq_none.mpr (.inr (isNumber_of_isPunct ht))
  refine ⟨by simp only [List.length_cons] at *; omega, ?_⟩
  rw [Operand.rule, hnumber]
  dsimp only
  rw [(Probe.takes_punct.mpr ⟨rfl, ht⟩).eq_some]
  refine bind_eq_ok.mpr ⟨_, he.eq_ok, ?_⟩
  exact bind_eq_ok.mpr ⟨_, Read.next_of_reads (Rule.reads_punct.mpr ⟨rfl, hu⟩), rfl⟩

/-- What begins with a name is neither a number nor in parentheses. -/
theorem probes_of_isIdentifier {t : Token} (ts : List Token) (ht : t.isIdentifier) :
    Probe.take (·.isNumber) (t :: ts) = none ∧ Probe.punct '(' (t :: ts) = none :=
  ⟨Probe.take_eq_none.mpr (.inr (isNumber_of_isIdentifier ht)),
    Probe.punct_eq_none.mpr (Token.isPunct_of_isIdentifier '(' ht)⟩

theorem operandRule_of_query {ts us : List Token} {q : Query} (h : Query.Reads ts q us) :
    Rule.Reads Operand.rule ts (.query q) us := by
  have hname := isIdentifier_of_query h
  obtain ⟨vs, hts⟩ := exists_of_peek (Token.isEnd_of_isIdentifier hname)
  have hread := Query.reads_rule.mpr h
  rw [hts] at hread ⊢
  obtain ⟨hnumber, hopened⟩ := probes_of_isIdentifier vs hname
  refine ⟨hread.rest_lt, ?_⟩
  rw [Operand.rule, hnumber]
  dsimp only
  rw [hopened]
  dsimp only
  rw [hread.eq_ok]
  rfl

theorem callRule_eq : Operand.callRule = callOf Expression.rule .operandEnd .call := by
  funext ts
  rw [Operand.callRule]
  rfl

theorem reads_callRule {ts us : List Token} {v : Operand} : Rule.Reads Operand.callRule ts v us ↔
    CallReads (Rule.Reads Expression.rule) .call ts v us := by
  rw [callRule_eq, reads_callOf]

theorem operandRule_of_call {t : Token} {ts us : List Token} {v : Operand}
    (hno : ∀ q ws, ¬ Query.Reads (t :: ts) q ws) (ht : t.isIdentifier)
    (hcall : Rule.Reads Operand.callRule (t :: ts) v us) :
    Rule.Reads Operand.rule (t :: ts) v us := by
  obtain ⟨hnumber, hopened⟩ := probes_of_isIdentifier ts ht
  refine ⟨hcall.rest_lt, ?_⟩
  rw [Operand.rule, hnumber]
  dsimp only
  rw [hopened]
  dsimp only
  split
  · next hquery =>
    obtain ⟨q, ws, _, rfl, hq⟩ := Rule.reads_of_eq_ok hquery
    exact absurd (Query.reads_rule.mp hq) (hno q ws)
  · rw [hcall.eq_ok]

theorem isRead_of_reads {p : Phrase} {ts us : List Token} (h : Reads p ts us) {n : Nat}
    (hn : ts.length < n) : p.IsRead n ts us := by
  induction h generalizing n with
  | number ht hd => exact operandRule_of_isNumber ht hd
  | group ht _ hu ih => exact operandRule_of_group ht (ih (Nat.lt_succ_self _)) hu
  | query hq => exact operandRule_of_query hq
  | call hno ht hu _ hargs ih =>
    exact operandRule_of_call hno ht
      (reads_callRule.mpr (.mk ht hu (ih (Nat.lt_succ_self _)) hargs))
  | term _ _ ih ih' =>
    have hfirst := ih hn
    obtain ⟨_, hlt, hmore⟩ := ih' (Rule.Reads.rest_lt hfirst)
    refine ⟨hlt, ?_⟩
    rw [Term.rule]
    exact bind_eq_ok.mpr ⟨_, Rule.Reads.eq_ok hfirst, hmore⟩
  | factorsEnd hend =>
    refine ⟨hn, hn, ?_⟩
    rw [Term.extend, Operator.multiplicativeProbe_eq_none.mpr hend]
  | @factor o ts vs us op v s t hop _ _ ih ih' =>
    have hlast := ih (Nat.lt_succ_self _)
    have := Rule.Reads.rest_lt hlast
    obtain ⟨_, hus, hmore⟩ := ih' (n := n) (by simp only [List.length_cons] at hn; omega)
    refine ⟨hn, hus, ?_⟩
    rw [Term.extend, (Operator.takes_multiplicativeProbe.mpr ⟨o, rfl, hop⟩).eq_some]
    exact bind_eq_ok.mpr ⟨_, Rule.Reads.eq_ok hlast, hmore⟩
  | expression _ _ ih ih' =>
    have hfirst := ih hn
    obtain ⟨_, hlt, hmore⟩ := ih' (Rule.Reads.rest_lt hfirst)
    refine ⟨hlt, ?_⟩
    rw [Expression.rule]
    exact bind_eq_ok.mpr ⟨_, Rule.Reads.eq_ok hfirst, hmore⟩
  | termsEnd hend hunsigned =>
    refine ⟨hn, hn, ?_⟩
    rw [Expression.extend, Operator.additiveProbe_eq_none.mpr hend]
    dsimp only
    rw [Operator.signedProbe_eq_none.mpr hunsigned]
  | @sum o ts vs us op t d e hop _ _ ih ih' =>
    have hlast := ih (Nat.lt_succ_self _)
    have := Rule.Reads.rest_lt hlast
    obtain ⟨_, hus, hmore⟩ := ih' (n := n) (by simp only [List.length_cons] at hn; omega)
    refine ⟨hn, hus, ?_⟩
    rw [Expression.extend, (Operator.takes_additiveProbe.mpr ⟨o, rfl, hop⟩).eq_some]
    exact bind_eq_ok.mpr ⟨_, Rule.Reads.eq_ok hlast, hmore⟩
  | @signed o ts vs us op d t e e' hsigned _ _ ih ih' =>
    obtain ⟨_, hvs, hlast⟩ := ih (Nat.lt_succ_self ts.length)
    obtain ⟨_, hus, hmore⟩ := ih' (n := n) (by simp only [List.length_cons] at hn hvs; omega)
    have hnone : ∀ op, ¬ Operator.IsAt false op (peek (o :: ts)) := fun op hop => by
      have := Token.isPunct_of_isNumber op.symbol (Operator.isNumber_of_ofSigned? hsigned)
      simp [this, Operator.IsAt] at hop
    refine ⟨hn, hus, ?_⟩
    rw [Expression.extend, Operator.additiveProbe_eq_none.mpr hnone]
    dsimp only
    rw [(Operator.takes_signedProbe.mpr ⟨o, rfl, hsigned⟩).eq_some]
    exact bind_eq_ok.mpr ⟨_, hlast, hmore⟩

theorem reads_of_operandRule {ts us : List Token} {v : Operand}
    (ih : ∀ {vs e ws}, vs.length < ts.length → Rule.Reads Expression.rule vs e ws →
      Reads (.expression e) vs ws)
    (h : Rule.Reads Operand.rule ts v us) : Reads (.operand v) ts us := by
  obtain ⟨_, hts⟩ := h
  rw [Operand.rule] at hts
  split at hts
  · next hnumber =>
    obtain ⟨t, vs, _, rfl, htakes⟩ := Probe.takes_of_eq_some hnumber
    obtain ⟨rfl, _, ht⟩ := Probe.takes_take.mp htakes
    obtain ⟨w, hw, hts⟩ := bind_eq_ok.mp hts
    cases pure_eq_ok.mp hts
    unfold Operand.numberOf at hw
    split at hw
    · next hd =>
      cases hw
      exact .number ht hd
    · cases hw
  · split at hts
    · next hopened =>
      obtain ⟨t, vs, hvs, rfl, htakes⟩ := Probe.takes_of_eq_some hopened
      obtain ⟨rfl, ht⟩ := Probe.takes_punct.mp htakes
      obtain ⟨_, hinside, hts⟩ := bind_eq_ok.mp hts
      obtain ⟨e, ws, _, rfl, he⟩ := Rule.reads_of_eq_ok hinside
      obtain ⟨_, hclosed, hts⟩ := bind_eq_ok.mp hts
      obtain ⟨u, xs, _, rfl, hread⟩ := Read.reads_of_next hclosed
      obtain ⟨rfl, hu⟩ := Rule.reads_punct.mp hread
      cases pure_eq_ok.mp hts
      exact .group ht (ih hvs he) hu
    · split at hts
      · next hquery =>
        obtain ⟨q, vs, _, rfl, hq⟩ := Rule.reads_of_eq_ok hquery
        cases hts
        exact .query (Query.reads_rule.mp hq)
      · next hnoQuery =>
        split at hts
        · next hcall =>
          cases hts
          obtain ⟨ht, hu, he, hargs⟩ := reads_callRule.mp ⟨_, hcall⟩
          refine .call (fun q ws hq => (Query.reads_rule.mpr hq).ne_error hnoQuery) ht hu ?_ hargs
          exact ih (Nat.lt_succ_of_lt (Nat.lt_succ_self _)) he
        · cases hts

/-- How much a rule has before it: the tokens, and how many rules it may call before
    one of them takes a token. -/
def size : Phrase → List Token → Nat
  | .operand _, ts => 3 * ts.length
  | .term _, ts | .factors _ _, ts => 3 * ts.length + 1
  | .expression _, ts | .terms _ _, ts => 3 * ts.length + 2

theorem reads_of_isRead {n : Nat} {p : Phrase} {ts us : List Token} (h : p.IsRead n ts us) :
    Reads p ts us := by
  induction hk : p.size ts using Nat.strongRecOn generalizing n p ts us with
  | ind k ih =>
    subst hk
    cases p with
    | operand v =>
      refine reads_of_operandRule (fun hlt he => ?_) h
      exact ih _ (by simp only [size]; omega) (n := 0) (p := .expression _) he rfl
    | term t =>
      obtain ⟨_, hts⟩ := h
      rw [Term.rule] at hts
      obtain ⟨_, hfirst, hts⟩ := bind_eq_ok.mp hts
      obtain ⟨v, vs, hvs, rfl, hv⟩ := Rule.reads_of_eq_ok hfirst
      exact .term (ih _ (by simp only [size]; omega) (n := n) (p := .operand v) hv rfl)
        (ih _ (by simp only [size]; omega) (p := .factors (.single v) t) ⟨_, _, hts⟩ rfl)
    | factors s t =>
      obtain ⟨hlt, hlt', hts⟩ := h
      rw [Term.extend] at hts
      split at hts
      · next hend =>
        cases hts
        exact .factorsEnd (Operator.multiplicativeProbe_eq_none.mp hend)
      · next hprobe =>
        obtain ⟨op, vs, _, rfl, htakes⟩ := Probe.takes_of_eq_some hprobe
        obtain ⟨o, rfl, hop⟩ := Operator.takes_multiplicativeProbe.mp htakes
        obtain ⟨_, hlast, hts⟩ := bind_eq_ok.mp hts
        obtain ⟨v, ws, _, rfl, hv⟩ := Rule.reads_of_eq_ok hlast
        have hws : ws.length < vs.length := Rule.Reads.rest_lt hv
        exact .factor hop
          (ih _ (by simp only [size, List.length_cons]; omega) (n := n) (p := .operand v) hv rfl)
          (ih _ (by simp only [size, List.length_cons]; omega) (p := .factors _ t) ⟨_, _, hts⟩ rfl)
    | expression e =>
      obtain ⟨_, hts⟩ := h
      rw [Expression.rule] at hts
      obtain ⟨_, hfirst, hts⟩ := bind_eq_ok.mp hts
      obtain ⟨t, vs, hvs, rfl, ht⟩ := Rule.reads_of_eq_ok hfirst
      exact .expression (ih _ (by simp only [size]; omega) (n := n) (p := .term t) ht rfl)
        (ih _ (by simp only [size]; omega) (p := .terms (.single t) e) ⟨_, _, hts⟩ rfl)
    | terms d e =>
      obtain ⟨hlt, hlt', hts⟩ := h
      rw [Expression.extend] at hts
      split at hts
      · next hprobe =>
        obtain ⟨op, vs, _, rfl, htakes⟩ := Probe.takes_of_eq_some hprobe
        obtain ⟨o, rfl, hop⟩ := Operator.takes_additiveProbe.mp htakes
        obtain ⟨_, hlast, hts⟩ := bind_eq_ok.mp hts
        obtain ⟨t, ws, _, rfl, ht⟩ := Rule.reads_of_eq_ok hlast
        have hws : ws.length < vs.length := Rule.Reads.rest_lt ht
        exact .sum hop
          (ih _ (by simp only [size, List.length_cons]; omega) (n := n) (p := .term t) ht rfl)
          (ih _ (by simp only [size, List.length_cons]; omega) (p := .terms _ e) ⟨_, _, hts⟩ rfl)
      · next hend =>
        split at hts
        · next hprobe =>
          obtain ⟨⟨op, a⟩, vs, _, rfl, htakes⟩ := Probe.takes_of_eq_some hprobe
          obtain ⟨o, rfl, hsigned⟩ := Operator.takes_signedProbe.mp htakes
          obtain ⟨⟨t, ws, hws⟩, hlast, hts⟩ := bind_eq_ok.mp hts
          have hws' : ws.length ≤ vs.length := (ih _ (by simp only [size, List.length_cons]; omega)
              (p := .factors _ t) ⟨_, _, hlast⟩ rfl).rest_le
          exact .signed hsigned
            (ih _ (by simp only [size, List.length_cons]; omega) (p := .factors _ t)
              ⟨_, _, hlast⟩ rfl)
            (ih _ (by simp only [size, List.length_cons]; omega) (p := .terms _ e)
              ⟨_, _, hts⟩ rfl)
        · next hunsigned =>
          cases hts
          exact .termsEnd (Operator.additiveProbe_eq_none.mp hend)
            (Operator.signedProbe_eq_none.mp hunsigned)

end Phrase

theorem Operand.reads_rule {ts us : List Token} {v : Operand} :
    Rule.Reads Operand.rule ts v us ↔ Phrase.Reads (.operand v) ts us :=
  ⟨fun h => Phrase.reads_of_isRead (n := 0) h, fun h => Phrase.isRead_of_reads h (Nat.lt_succ_self _)⟩

theorem Term.reads_rule {ts us : List Token} {t : Term} :
    Rule.Reads Term.rule ts t us ↔ Phrase.Reads (.term t) ts us :=
  ⟨fun h => Phrase.reads_of_isRead (n := 0) h, fun h => Phrase.isRead_of_reads h (Nat.lt_succ_self _)⟩

theorem Expression.reads_rule {ts us : List Token} {e : Expression} :
    Rule.Reads Expression.rule ts e us ↔ Phrase.Reads (.expression e) ts us :=
  ⟨fun h => Phrase.reads_of_isRead (n := 0) h, fun h => Phrase.isRead_of_reads h (Nat.lt_succ_self _)⟩

-- ---------------------------------------------------------------------------
-- Monitors
-- ---------------------------------------------------------------------------

namespace Comparator

/-- The tokens of a comparator. -/
inductive Reads : List Token → Comparator → List Token → Prop
  | greater {t : Token} {us : List Token} (sign : t.isPunct '>')
      (alone : Relation.touched t '=' us = false) : Reads (t :: us) .greater us
  | greaterEqual {t u : Token} {us : List Token} (sign : t.isPunct '>')
      (equals : Relation.touched t '=' (u :: us)) : Reads (t :: u :: us) .greaterEqual us
  | less {t : Token} {us : List Token} (sign : t.isPunct '<')
      (alone : Relation.touched t '=' us = false) : Reads (t :: us) .less us
  | lessEqual {t u : Token} {us : List Token} (sign : t.isPunct '<')
      (equals : Relation.touched t '=' (u :: us)) : Reads (t :: u :: us) .lessEqual us

theorem reads_rule {ts us : List Token} {c : Comparator} :
    rule.Reads ts c us ↔ Reads ts c us := by
  constructor
  · rintro ⟨h, hts⟩
    unfold rule at hts
    split at hts
    · next hsign =>
      obtain ⟨t, vs, _, rfl, htakes⟩ := Probe.takes_of_eq_some hsign
      obtain ⟨rfl, ht⟩ := Probe.takes_punct.mp htakes
      cases hequals : Relation.touched t '=' vs with
      | true =>
        obtain ⟨u, ws, rfl, _⟩ := Relation.exists_of_touched hequals
        rw [Relation.ifJoined_of_touched hequals] at hts
        cases hts
        exact .greaterEqual ht hequals
      | false =>
        rw [Relation.ifJoined_of_not_touched hequals] at hts
        cases hts
        exact .greater ht hequals
    · split at hts
      · next hsign =>
        obtain ⟨t, vs, _, rfl, htakes⟩ := Probe.takes_of_eq_some hsign
        obtain ⟨rfl, ht⟩ := Probe.takes_punct.mp htakes
        cases hequals : Relation.touched t '=' vs with
        | true =>
          obtain ⟨u, ws, rfl, _⟩ := Relation.exists_of_touched hequals
          rw [Relation.ifJoined_of_touched hequals] at hts
          cases hts
          exact .lessEqual ht hequals
        | false =>
          rw [Relation.ifJoined_of_not_touched hequals] at hts
          cases hts
          exact .less ht hequals
      · cases hts
  · intro h
    have hgreater : ∀ {t : Token} {us : List Token}, t.isPunct '<' → Probe.punct '>' (t :: us) = none :=
      fun ht => Probe.punct_eq_none.mpr (Token.isPunct_of_ne ht (by decide))
    cases h with
    | greater ht halone =>
      refine ⟨Nat.lt_succ_self _, ?_⟩
      unfold rule
      simp only [(Probe.takes_punct.mpr ⟨rfl, ht⟩).eq_some]
      rw [Relation.ifJoined_of_not_touched halone]
    | greaterEqual ht hequals =>
      refine ⟨Nat.lt_succ_of_lt (Nat.lt_succ_self _), ?_⟩
      unfold rule
      simp only [(Probe.takes_punct.mpr ⟨rfl, ht⟩).eq_some]
      rw [Relation.ifJoined_of_touched hequals]
    | less ht halone =>
      refine ⟨Nat.lt_succ_self _, ?_⟩
      unfold rule
      simp only [hgreater ht, (Probe.takes_punct.mpr ⟨rfl, ht⟩).eq_some]
      rw [Relation.ifJoined_of_not_touched halone]
    | lessEqual ht hequals =>
      refine ⟨Nat.lt_succ_of_lt (Nat.lt_succ_self _), ?_⟩
      unfold rule
      simp only [hgreater ht, (Probe.takes_punct.mpr ⟨rfl, ht⟩).eq_some]
      rw [Relation.ifJoined_of_touched hequals]

end Comparator

namespace Monitor

/-- The tokens of a monitor. -/
inductive Reads : List Token → Monitor → List Token → Prop
  | mk {t u v w n : Token} {ts vs ws us : List Token} {x : Word} {q : Query}
      {c : Comparator} {d : Double} (aggregation : t.isIdentifier) (opened : u.isPunct '(')
      (window : Word.rule.Reads ts x (v :: w :: vs)) (closed : v.isPunct ')')
      (colon : w.isPunct ':') (query : Query.Reads vs q ws)
      (comparator : Comparator.Reads ws c (n :: us)) (threshold : n.isNumber)
      (finite : Double.read? n.text.toList = some d) :
      Reads (t :: u :: ts) ⟨t.text, x.text, q, c, d⟩ us

theorem reads_thresholdRule {ts us : List Token} {d : Double} : thresholdRule.Reads ts d us ↔
    ∃ n, ts = n :: us ∧ n.isNumber ∧ Double.read? n.text.toList = some d := by
  constructor
  · rintro ⟨h, hts⟩
    obtain ⟨_, hnumber, hts⟩ := bind_eq_ok.mp hts
    obtain ⟨n, vs, _, rfl, hread⟩ := Rule.reads_of_eq_ok hnumber
    obtain ⟨rfl, _, hn⟩ := Rule.reads_expect.mp hread
    split at hts
    · next hd =>
      cases pure_eq_ok.mp hts
      exact ⟨n, rfl, hn, hd⟩
    · cases hts
  · rintro ⟨n, rfl, hn, hd⟩
    refine ⟨Nat.lt_succ_self _, ?_⟩
    refine bind_eq_ok.mpr ⟨_, (Rule.reads_expect.mpr ⟨rfl, Token.isEnd_of_isNumber hn, hn⟩).eq_ok, ?_⟩
    simp only [hd]
    rfl

theorem reads_rule {ts us : List Token} {m : Monitor} : rule.Reads ts m us ↔ Reads ts m us := by
  constructor
  · rintro ⟨h, hts⟩
    obtain ⟨_, haggregation, hts⟩ := bind_eq_ok.mp hts
    obtain ⟨t, vs, _, rfl, hread⟩ := Rule.reads_of_eq_ok haggregation
    obtain ⟨rfl, ht⟩ := Rule.reads_identifier.mp hread
    obtain ⟨_, hopened, hts⟩ := bind_eq_ok.mp hts
    obtain ⟨u, ws, _, rfl, hread⟩ := Read.reads_of_next hopened
    obtain ⟨rfl, hu⟩ := Rule.reads_punct.mp hread
    obtain ⟨_, hwindow, hts⟩ := bind_eq_ok.mp hts
    obtain ⟨x, xs, _, rfl, hx⟩ := Read.reads_of_next hwindow
    obtain ⟨_, hclosed, hts⟩ := bind_eq_ok.mp hts
    obtain ⟨v, ys, _, rfl, hread⟩ := Read.reads_of_next hclosed
    obtain ⟨rfl, hv⟩ := Rule.reads_punct.mp hread
    obtain ⟨_, hcolon, hts⟩ := bind_eq_ok.mp hts
    obtain ⟨w, zs, _, rfl, hread⟩ := Read.reads_of_next hcolon
    obtain ⟨rfl, hw⟩ := Rule.reads_punct.mp hread
    obtain ⟨_, hquery, hts⟩ := bind_eq_ok.mp hts
    obtain ⟨q, _, _, rfl, hq⟩ := Read.reads_of_next hquery
    obtain ⟨_, hcomparator, hts⟩ := bind_eq_ok.mp hts
    obtain ⟨c, _, _, rfl, hc⟩ := Read.reads_of_next hcomparator
    obtain ⟨_, hthreshold, hts⟩ := bind_eq_ok.mp hts
    obtain ⟨d, _, _, rfl, hd⟩ := Read.reads_of_next hthreshold
    obtain ⟨n, rfl, hn, hd⟩ := reads_thresholdRule.mp hd
    cases pure_eq_ok.mp hts
    exact .mk ht hu hx hv hw (Query.reads_rule.mp hq) (Comparator.reads_rule.mp hc) hn hd
  · rintro ⟨ht, hu, hwindow, hv, hw, hq, hc, hn, hd⟩
    have hq := Query.reads_rule.mpr hq
    have hc := Comparator.reads_rule.mpr hc
    have hd : thresholdRule.Reads _ _ us := reads_thresholdRule.mpr ⟨_, rfl, hn, hd⟩
    have := hwindow.rest_lt
    have := hq.rest_lt
    have := hc.rest_lt
    have := hd.rest_lt
    refine ⟨by simp only [List.length_cons] at *; omega, ?_⟩
    refine bind_eq_ok.mpr ⟨_, (Rule.reads_identifier.mpr ⟨rfl, ht⟩).eq_ok, ?_⟩
    refine bind_eq_ok.mpr ⟨_, Read.next_of_reads (Rule.reads_punct.mpr ⟨rfl, hu⟩), ?_⟩
    refine bind_eq_ok.mpr ⟨_, Read.next_of_reads hwindow, ?_⟩
    refine bind_eq_ok.mpr ⟨_, Read.next_of_reads (Rule.reads_punct.mpr ⟨rfl, hv⟩), ?_⟩
    refine bind_eq_ok.mpr ⟨_, Read.next_of_reads (Rule.reads_punct.mpr ⟨rfl, hw⟩), ?_⟩
    refine bind_eq_ok.mpr ⟨_, Read.next_of_reads hq, ?_⟩
    refine bind_eq_ok.mpr ⟨_, Read.next_of_reads hc, ?_⟩
    exact bind_eq_ok.mpr ⟨_, Read.next_of_reads hd, rfl⟩

end Monitor

end MetricLang
